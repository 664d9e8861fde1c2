import MCertikos.Mem.Container
import Mathlib.Algebra.BigOperators.Ring.Finset
import Mathlib.Tactic.IntervalCases

/-!
# Quotas over runs

What the quotas of containers promise, over all sequences of calls from the state after boot. The
ghost `held` records which pages each container has allocated and not freed.

`splitMachine` is the container interface as its comments ask to use it: a container gives a child
no more than it may still use. There, a container below its quota always gets a page
(`quota_guarantees_memory`). `spawnMachine` is the interface that processes have, where the quota
of a child is an argument of `sys_spawn`. The test of `container_can_consume` is one of unsigned
32-bit numbers, so a quota for which the sum wraps around passes it, and the accounts are right in
those runs only in which no sum wraps around.
-/

namespace MCertikos

open Transition Function

/-- The physical memory with the pages that each container holds. -/
structure Pool where
  mem : Mem
  held : Nat → Finset Nat

namespace Pool

/-- The state after boot. -/
def init (mmap : List MmapEntry) : Pool where
  mem := .init mmap
  held _ := ∅

variable (s : Pool) (id : Nat)

/-- `container_alloc`, which gives the page to the container. -/
def alloc : Pool where
  mem := (s.mem.containerAlloc id).1
  held :=
    if (s.mem.containerAlloc id).2 = 0 then s.held
    else update s.held id (insert (s.mem.containerAlloc id).2 (s.held id))

/-- `container_free` of a page that the container holds. -/
def free (page : Nat) : Pool where
  mem := s.mem.containerFree id page
  held := update s.held id ((s.held id).erase page)

/-- The container is used by a process. -/
def Used : Prop := id < numIds ∧ (s.mem.container id).used = true

instance : Decidable (s.Used id) := inferInstanceAs (Decidable (_ ∧ _))

/-- The children of a container. -/
def children : Finset Nat :=
  (Finset.range numIds).filter fun i => i ≠ 0 ∧ (s.mem.container i).used ∧
    (s.mem.container i).parent = id

end Pool

/-- A call of a container function. -/
inductive SplitAct where
  | split (id : Nat) (quota : BitVec 32)
  | alloc (id : Nat)
  | free (id page : Nat)

/-- Containers are split, and allocate and free their pages. A container gives away no more than it
may still use. -/
def splitMachine : Machine Pool SplitAct where
  Init s := ∃ mmap, s = Pool.init mmap
  step s
    | .split id quota =>
      if id < numIds ∧
          (s.mem.container id).usage.toInt + quota.toNat ≤ (s.mem.container id).quota.toInt then
        some { s with mem := (s.mem.allocMemQuota id quota).1 }
      else none
    | .alloc id => if id < numIds then some (s.alloc id) else none
    | .free id page => if id < numIds ∧ page ∈ s.held id then some (s.free id page) else none

/-- A call by a process. -/
inductive SpawnAct where
  | spawn (id elfId : Nat) (quota : BitVec 32)
  | alloc (id : Nat)
  | free (id page : Nat)

/-- Processes spawn children with any quota, and allocate and free their pages. -/
def spawnMachine : Machine Pool SpawnAct where
  Init s := ∃ mmap, s = Pool.init mmap
  step s
    | .spawn id elfId quota =>
      if s.Used id then some { s with mem := (s.mem.sysSpawn id elfId quota).1 } else none
    | .alloc id => if s.Used id then some (s.alloc id) else none
    | .free id page => if s.Used id ∧ page ∈ s.held id then some (s.free id page) else none

/-! ## Pages -/

/-- The quotas are covered, and the pages that containers hold are allocated, each to one of
them. -/
structure Pool.Backed (s : Pool) : Prop where
  covered : s.mem.Covered
  held : ∀ id, s.held id ⊆ s.mem.table.taken
  once : ∀ i j page, page ∈ s.held i → page ∈ s.held j → i = j

namespace Pool.Backed

variable {s : Pool} {id page : Nat}

theorem init (mmap : List MmapEntry) : (Pool.init mmap).Backed :=
  ⟨Mem.covered_init mmap, fun _ => Finset.empty_subset _, fun _ _ _ h =>
    absurd h (Finset.notMem_empty _)⟩

/-- What `container_alloc` does to the pages. -/
theorem alloc_cases (h : s.Backed) (hid : id < numIds) :
    ((s.mem.container id).usage.toNat = (s.mem.container id).quota.toNat ∧ s.alloc id = s) ∨
      ∃ page, (s.mem.container id).usage.toNat < (s.mem.container id).quota.toNat ∧ page ≠ 0 ∧
        (s.mem.containerAlloc id).2 = page ∧
        page ∈ s.mem.table.normal ∧ page ∉ s.mem.table.taken ∧
        (s.alloc id).mem.table.taken = insert page s.mem.table.taken ∧
        (s.alloc id).mem.container = update s.mem.container id
          { s.mem.container id with usage := (s.mem.container id).usage + 1 } ∧
        (s.alloc id).held = update s.held id (insert page (s.held id)) := by
  rcases h.covered.containerAlloc_cases hid with ⟨hfull, heq⟩ | ⟨hlt, hne, heq⟩
  · refine .inl ⟨hfull, ?_⟩
    rw [alloc, heq, if_pos rfl]
  · obtain ⟨hnormal, hnot, htaken⟩ := h.covered.ok.palloc.page hne
    refine .inr ⟨_, hlt, hne, by rw [heq], hnormal, hnot, ?_⟩
    rw [alloc, heq, if_neg hne]
    exact ⟨htaken, rfl, rfl⟩

theorem alloc (h : s.Backed) (hid : id < numIds) : (s.alloc id).Backed := by
  have hcov : (s.alloc id).mem.Covered := h.covered.containerAlloc hid
  rcases h.alloc_cases hid with ⟨-, heq⟩ | ⟨page, -, -, -, -, hnot, htaken, -, hheld⟩
  · rwa [heq]
  · refine ⟨hcov, fun i => ?_, fun i j p hi hj => ?_⟩
    · rw [hheld, htaken]
      rcases eq_or_ne i id with rfl | hne
      · rw [update_self]
        exact Finset.insert_subset_insert _ (h.held i)
      · rw [update_of_ne hne]
        exact (h.held i).trans (Finset.subset_insert _ _)
    · have hold : ∀ k, p ∈ (s.alloc id).held k → (p = page ∧ k = id) ∨ p ∈ s.held k := by
        intro k hk
        rw [hheld] at hk
        rcases eq_or_ne k id with rfl | hne
        · rw [update_self] at hk
          exact (Finset.mem_insert.1 hk).imp (fun hp => ⟨hp, rfl⟩) id
        · rw [update_of_ne hne] at hk
          exact .inr hk
      rcases hold i hi with ⟨hp, hi'⟩ | hi' <;> rcases hold j hj with ⟨hp', hj'⟩ | hj'
      · rw [hi', hj']
      · exact absurd (h.held j (hp ▸ hj')) hnot
      · exact absurd (h.held i (hp' ▸ hi')) hnot
      · exact h.once i j p hi' hj'

/-- The pages that a container holds after it has freed one. -/
theorem mem_held_free {i p : Nat} : p ∈ (s.free id page).held i ↔ p ∈ s.held i ∧
    ¬ (i = id ∧ p = page) := by
  simp only [Pool.free]
  rcases eq_or_ne i id with rfl | hne
  · rw [update_self, Finset.mem_erase]
    tauto
  · rw [update_of_ne hne]
    tauto

theorem taken_free (h : s.Backed) (hp : page ∈ s.held id) :
    (s.free id page).mem.table.taken = s.mem.table.taken.erase page := by
  rw [Pool.free, h.covered.containerFree_eq (h.held id hp), h.covered.ok.taken_free]

theorem free (h : s.Backed) (hid : id < numIds) (hp : page ∈ s.held id) :
    (s.free id page).Backed := by
  refine ⟨h.covered.containerFree hid (h.held id hp), fun i p hi => ?_, fun i j p hi hj => ?_⟩
  · rw [mem_held_free] at hi
    rw [h.taken_free hp, Finset.mem_erase]
    refine ⟨fun he => hi.2 ⟨?_, he⟩, h.held i hi.1⟩
    exact h.once i id page (he ▸ hi.1) hp
  · exact h.once i j p (mem_held_free.1 hi).1 (mem_held_free.1 hj).1

/-- A container gives a part of what it may still use to a child. -/
theorem split (h : s.Backed) (hid : id < numIds) {q : BitVec 32}
    (hq : (s.mem.container id).usage.toNat + q.toNat ≤ (s.mem.container id).quota.toNat) :
    Backed { s with mem := (s.mem.allocMemQuota id q).1 } :=
  ⟨h.covered.split hid hq, h.held, h.once⟩

/-- The signed numbers are those that the words stand for. -/
theorem toInt_usage (h : s.Backed) :
    (s.mem.container id).usage.toInt = (s.mem.container id).usage.toNat :=
  toInt_of_lt ((h.covered.usage id).trans_lt ((h.covered.quota id).trans_lt h.covered.small))

theorem toInt_quota (h : s.Backed) :
    (s.mem.container id).quota.toInt = (s.mem.container id).quota.toNat :=
  toInt_of_lt ((h.covered.quota id).trans_lt h.covered.small)

end Pool.Backed

theorem backed_of_reachable {s : Pool} (h : splitMachine.Reachable s) : s.Backed := by
  refine h.invariant ?_ fun s a t hs ht => ?_
  · rintro s ⟨mmap, rfl⟩
    exact .init mmap
  · cases a with
    | split id quota =>
      obtain ⟨⟨hid, hq⟩, rfl⟩ := of_guard ht
      rw [hs.toInt_usage, hs.toInt_quota] at hq
      exact hs.split hid (by exact_mod_cast hq)
    | alloc id =>
      obtain ⟨hid, rfl⟩ := of_guard ht
      exact hs.alloc hid
    | free id page =>
      obtain ⟨⟨hid, hp⟩, rfl⟩ := of_guard ht
      exact hs.free hid hp

/-- The pages that are allocated are never more than the quota of the root, which is the number of
normal pages; a container below its quota gets a page that was not allocated; and the usage of a
container grows only with a page that it got. -/
theorem quota_guarantees_memory {s : Pool} (h : splitMachine.Reachable s) :
    (s.mem.container 0).quota.toInt = s.mem.table.normal.card ∧
    (s.mem.table.taken.card : Int) ≤ (s.mem.container 0).quota.toInt ∧
    ∀ id < numIds,
      ((s.mem.container id).usage.toInt < (s.mem.container id).quota.toInt →
        (s.mem.containerAlloc id).2 ≠ 0) ∧
      ((s.mem.containerAlloc id).2 ≠ 0 →
        (s.mem.containerAlloc id).2 ∈ s.mem.table.normal ∧
        (s.mem.containerAlloc id).2 ∉ s.mem.table.taken ∧
        (s.mem.containerAlloc id).1.table.taken =
          insert (s.mem.containerAlloc id).2 s.mem.table.taken ∧
        ((s.mem.containerAlloc id).1.container id).usage.toInt =
          (s.mem.container id).usage.toInt + 1) ∧
      ((s.mem.containerAlloc id).2 = 0 → (s.mem.containerAlloc id).1 = s.mem) := by
  have hb := backed_of_reachable h
  have hroot := hb.covered.root
  have hle := hb.covered.le
  refine ⟨by rw [hb.toInt_quota, hroot], by rw [hb.toInt_quota]; omega, fun id hid => ?_⟩
  rcases hb.covered.containerAlloc_cases hid with ⟨hfull, heq⟩ | ⟨hlt, hne, heq⟩
  · rw [heq, hb.toInt_usage, hb.toInt_quota]
    exact ⟨fun hlt => by omega, fun hne => absurd rfl hne, fun _ => rfl⟩
  · obtain ⟨hnormal, hnot, htaken⟩ := hb.covered.ok.palloc.page hne
    have hb' : ((s.alloc id).mem.container id).usage.toInt = _ := (hb.alloc hid).toInt_usage
    have hadd : ((s.mem.container id).usage + 1).toNat = (s.mem.container id).usage.toNat + 1 :=
      hb.covered.usage_add (q := 1) hlt
    rw [Pool.alloc, heq] at hb'
    rw [heq]
    refine ⟨fun _ => hne, fun _ => ⟨hnormal, hnot, htaken, ?_⟩, fun h0 => absurd h0 hne⟩
    simp only [update_self] at hb' ⊢
    rw [hb', hadd, hb.toInt_usage]
    omega

/-- A machine with four normal pages. -/
def fourPages : List MmapEntry := [{ start := 0x40000000, len := 0x4000, usable := true }]

theorem normal_fourPages : (pmemInit fourPages).normal = Finset.Ico 0x40000 0x40004 := by
  ext i
  rw [(AllocTable.ok_pmemInit _).mem_normal, Finset.mem_Ico]
  constructor
  · intro hi
    obtain ⟨hlo, -, hlt⟩ := (AllocTable.ok_pmemInit _).norm i hi
    exact ⟨hlo, hlt⟩
  · rintro ⟨hlo, hhi⟩
    interval_cases i <;> decide

theorem realQuota_fourPages : realQuota (pmemInit fourPages) = 4 := by
  rw [(AllocTable.ok_pmemInit _).realQuota, AllocTable.taken_pmemInit, normal_fourPages]
  rfl

/-- The machine with four pages after boot. -/
def fourPool : Pool where
  mem := { table := pmemInit fourPages, container := containerInit 4 }
  held _ := ∅

theorem init_fourPages : Pool.init fourPages = fourPool := by
  rw [Pool.init, Mem.init, realQuota_fourPages]
  rfl

/-- The root of a machine with four pages gives two of them to a child, which allocates a page and
frees it. With one page allocated, and with none, the child is below its quota and gets a page. -/
theorem quota_guarantees_memory_four : ∃ s₁ s₂ s₃,
    splitMachine.step (.init fourPages) (.split 0 2) = some s₁ ∧
    splitMachine.step s₁ (.alloc 1) = some s₂ ∧ s₂.held 1 = {0x40000} ∧
    splitMachine.step s₂ (.free 1 0x40000) = some s₃ ∧ s₃.held 1 = ∅ ∧
    ((s₂.mem.containerAlloc 1).2 ≠ 0 ∧ (s₂.mem.containerAlloc 1).2 ∉ s₂.mem.table.taken) ∧
    (s₃.mem.containerAlloc 1).2 ≠ 0 := by
  have heval : ((splitMachine.step fourPool (.split 0 2)).any fun s₁ =>
      (splitMachine.step s₁ (.alloc 1)).any fun s₂ =>
      (splitMachine.step s₂ (.free 1 0x40000)).any fun s₃ =>
        decide (s₂.held 1 = {0x40000} ∧ s₃.held 1 = ∅ ∧
          (s₂.mem.container 1).usage.toInt < (s₂.mem.container 1).quota.toInt ∧
          (s₃.mem.container 1).usage.toInt < (s₃.mem.container 1).quota.toInt)) = true := by
    decide +kernel
  simp only [Option.any_eq_true, decide_eq_true_eq] at heval
  obtain ⟨s₁, h₁, s₂, h₂, s₃, h₃, hheld₂, hheld₃, hlt₂, hlt₃⟩ := heval
  rw [← init_fourPages] at h₁
  have hinit : splitMachine.Reachable (.init fourPages) := .init ⟨_, rfl⟩
  have hr₂ := (hinit.step h₁).step h₂
  obtain ⟨-, -, halloc₂⟩ := quota_guarantees_memory hr₂
  obtain ⟨-, -, halloc₃⟩ := quota_guarantees_memory (hr₂.step h₃)
  have hgot := (halloc₂ 1 (by decide)).1 hlt₂
  exact ⟨s₁, s₂, s₃, h₁, h₂, hheld₂, h₃, hheld₃, ⟨hgot, ((halloc₂ 1 (by decide)).2.1 hgot).2.1⟩,
    (halloc₃ 1 (by decide)).1 hlt₃⟩

/-! ## Accounts -/

/-- The sum that `container_can_consume` compares does not wrap around. -/
def SpawnAct.NoWrap (s : Pool) : SpawnAct → Prop
  | .spawn id _ quota => (s.mem.container id).usage.toNat + quota.toNat < 2 ^ 32
  | _ => True

/-- Containers in use form a tree, and a container uses the pages that it holds and the quotas of
its children. -/
structure Pool.Accounted (s : Pool) : Prop extends s.Backed, Family s.mem.container where
  empty : ∀ id, (s.mem.container id).used = false → s.held id = ∅
  account : ∀ id, (s.mem.container id).used → (s.mem.container id).usage.toNat =
    (s.held id).card + ∑ i ∈ s.children id, (s.mem.container i).quota.toNat

namespace Pool.Accounted

variable {s : Pool} {id page : Nat}

theorem init (mmap : List MmapEntry) : (Pool.init mmap).Accounted := by
  have hunused : ∀ i ≠ 0, ((Pool.init mmap).mem.container i).used = false := fun i hi => by
    simp only [Pool.init, Mem.init, containerInit, update_of_ne hi]
  refine ⟨.init mmap, .init _, fun _ _ => rfl, fun id hu => ?_⟩
  have hnone : (Pool.init mmap).children id = ∅ := by
    refine Finset.filter_eq_empty_iff.2 fun i _ hi => ?_
    rw [hunused i hi.1] at hi
    cases hi.2.1
  rw [hnone, Finset.sum_empty]
  rcases eq_or_ne id 0 with rfl | hne
  · rfl
  · rw [hunused id hne] at hu
    cases hu

/-- A change of the usage of one container, and of the pages that it holds by as many. -/
theorem setUsage {t : Pool} (u : BitVec 32) {H : Finset Nat} (h : s.Accounted) (hb : t.Backed)
    (hused : (s.mem.container id).used)
    (hc : t.mem.container = update s.mem.container id { s.mem.container id with usage := u })
    (hheld : t.held = update s.held id H)
    (hu : u.toNat + (s.held id).card = (s.mem.container id).usage.toNat + H.card) :
    t.Accounted := by
  -- all fields but the usage are as before
  have hsame : ∀ i, (t.mem.container i).used = (s.mem.container i).used ∧
      (t.mem.container i).parent = (s.mem.container i).parent ∧
      (t.mem.container i).nchildren = (s.mem.container i).nchildren ∧
      (t.mem.container i).quota = (s.mem.container i).quota := by
    intro i
    rw [hc]
    rcases eq_or_ne i id with rfl | hne
    · simp only [update_self, and_self]
    · simp only [update_of_ne hne, and_self]
  have hchildren : ∀ i, t.children i = s.children i := fun i => by
    simp only [children, hsame]
  have hfamily : Family t.mem.container :=
    h.toFamily.congr fun i => ⟨(hsame i).1, (hsame i).2.1, (hsame i).2.2.1⟩
  refine ⟨hb, hfamily, fun i hui => ?_, fun i hui => ?_⟩
  · rw [(hsame i).1] at hui
    rw [hheld, update_of_ne]
    · exact h.empty i hui
    · rintro rfl
      rw [hused] at hui
      cases hui
  · rw [(hsame i).1] at hui
    have hsum : ∑ j ∈ t.children i, (t.mem.container j).quota.toNat =
        ∑ j ∈ s.children i, (s.mem.container j).quota.toNat := by
      simp only [hchildren, hsame]
    have := h.account i hui
    rw [hsum, hheld, hc]
    rcases eq_or_ne i id with rfl | hne
    · simp only [update_self]
      omega
    · simpa only [update_of_ne hne] using this

theorem alloc (h : s.Accounted) (hid : s.Used id) : (s.alloc id).Accounted := by
  rcases h.alloc_cases hid.1 with ⟨-, heq⟩ | ⟨page, hlt, -, -, -, hnot, -, hc, hheld⟩
  · rwa [heq]
  · refine h.setUsage _ (h.toBacked.alloc hid.1) hid.2 hc hheld ?_
    have hadd : ((s.mem.container id).usage + 1).toNat = (s.mem.container id).usage.toNat + 1 :=
      h.covered.usage_add (q := 1) hlt
    rw [hadd, Finset.card_insert_of_notMem fun hm => hnot (h.held id hm)]
    omega

theorem free (h : s.Accounted) (hid : s.Used id) (hp : page ∈ s.held id) :
    (s.free id page).Accounted := by
  have hcard : 0 < (s.held id).card := Finset.card_pos.2 ⟨page, hp⟩
  have hacc := h.account id hid.2
  have hpos : 0 < (s.mem.container id).usage.toNat := by omega
  refine h.setUsage ((s.mem.container id).usage - 1) (h.toBacked.free hid.1 hp) hid.2 ?_ rfl ?_
  · rw [Pool.free, h.covered.containerFree_eq (h.held id hp), if_pos hpos]
  · have hsub : ((s.mem.container id).usage - 1).toNat = (s.mem.container id).usage.toNat - 1 :=
      BitVec.toNat_sub_of_le hpos
    rw [hsub, Finset.card_erase_of_mem hp]
    omega

end Pool.Accounted

/-- What the split of a container does to the pool: a container `c` that was not in use becomes a
child of `id` with the quota `q`. -/
structure Pool.Splits (s t : Pool) (id c : Nat) (q : BitVec 32) : Prop where
  lt : c < numIds
  ne : id ≠ c
  pos : 0 < c
  free : (s.mem.container c).used = false
  self : t.mem.container id = { s.mem.container id with
    usage := (s.mem.container id).usage + q, nchildren := (s.mem.container id).nchildren + 1 }
  child : t.mem.container c = { used := true, quota := q, usage := 0, parent := id, nchildren :=
    0 }
  other : ∀ i, i ≠ id → i ≠ c → t.mem.container i = s.mem.container i
  held : t.held = s.held

namespace Pool.Splits

variable {s t : Pool} {id c i : Nat} {q : BitVec 32}

/-- Other containers keep their places in the tree. -/
theorem of_ne (h : s.Splits t id c q) (hic : i ≠ c) :
    (t.mem.container i).used = (s.mem.container i).used ∧
      (t.mem.container i).parent = (s.mem.container i).parent ∧
      (t.mem.container i).quota = (s.mem.container i).quota := by
  rcases eq_or_ne i id with rfl | hi
  · rw [h.self]
    exact ⟨rfl, rfl, rfl⟩
  · rw [h.other i hi hic]
    exact ⟨rfl, rfl, rfl⟩

theorem notMem (h : s.Splits t id c q) : c ∉ s.children i := fun hi => by
  have := (Finset.mem_filter.1 hi).2.2.1
  rw [h.free] at this
  cases this

/-- The new container is the only new child. -/
theorem children (h : s.Splits t id c q) :
    t.children i = if i = id then insert c (s.children i) else s.children i := by
  ext j
  rcases eq_or_ne j c with rfl | hjc
  · have hmem : j ∈ t.children i ↔ i = id := by
      simp only [Pool.children, Finset.mem_filter, Finset.mem_range, h.child]
      exact ⟨fun hj => hj.2.2.2.symm, fun hi => ⟨h.lt, h.pos.ne', trivial, hi.symm⟩⟩
    rw [hmem]
    split
    case isTrue hi => exact ⟨fun _ => Finset.mem_insert_self _ _, fun _ => hi⟩
    case isFalse hi => exact ⟨fun hid => absurd hid hi, fun hj => absurd hj h.notMem⟩
  · have hmem : j ∈ t.children i ↔ j ∈ s.children i := by
      simp only [Pool.children, Finset.mem_filter, h.of_ne hjc]
    rw [hmem]
    split
    · rw [Finset.mem_insert, or_iff_right hjc]
    · rfl

/-- The quotas of the old children are as before. -/
theorem sum_quota (h : s.Splits t id c q) :
    ∑ j ∈ s.children i, (t.mem.container j).quota.toNat =
      ∑ j ∈ s.children i, (s.mem.container j).quota.toNat :=
  Finset.sum_congr rfl fun j hj => by
    rw [(h.of_ne fun he => h.notMem (he ▸ hj)).2.2]

end Pool.Splits

namespace Pool.Accounted

variable {s t : Pool} {id c : Nat} {q : BitVec 32}

/-- The accounts after a split. -/
theorem splits (h : s.Accounted) (hs : s.Splits t id (nextChild s.mem.container id) q)
    (hb : t.Backed) (hfamily : Family t.mem.container) (hused : (s.mem.container id).used)
    (hadd : ((s.mem.container id).usage + q).toNat = (s.mem.container id).usage.toNat + q.toNat) :
    t.Accounted := by
  refine ⟨hb, hfamily, fun i hu => ?_, fun i hu => ?_⟩
  · rw [hs.held]
    rcases eq_or_ne i (nextChild s.mem.container id) with rfl | hic
    · exact h.empty _ hs.free
    · rw [(hs.of_ne hic).1] at hu
      exact h.empty i hu
  · rcases eq_or_ne i (nextChild s.mem.container id) with rfl | hic
    · -- no container is a child of the new one
      have hnil : s.children (nextChild s.mem.container id) = ∅ := by
        refine Finset.filter_eq_empty_iff.2 fun j _ hj => ?_
        obtain ⟨k, hk, -⟩ := h.child j hj.1 hj.2.1
        rw [hj.2.2, h.unused _ hs.free] at hk
        omega
      rw [hs.children, if_neg hs.ne.symm, hnil, hs.child, hs.held, h.empty _ hs.free]
      rfl
    · rw [(hs.of_ne hic).1] at hu
      have hacc := h.account i hu
      rcases eq_or_ne i id with rfl | hi
      · rw [hs.children, if_pos rfl, Finset.sum_insert hs.notMem, hs.sum_quota, hs.self, hs.child,
          hs.held]
        dsimp only
        omega
      · rw [hs.children, if_neg hi, hs.sum_quota, hs.other i hi hic, hs.held]
        exact hacc

/-- A container with less than three children gives a part of what it may still use to a child. -/
theorem split (h : s.Accounted) (hid : s.Used id)
    (hn : (s.mem.container id).nchildren < maxChildren)
    (hq : (s.mem.container id).usage.toNat + q.toNat ≤ (s.mem.container id).quota.toNat) :
    Accounted { s with mem := (s.mem.allocMemQuota id q).1 } := by
  have hb := h.toBacked.split hid.1 hq
  rcases Nat.lt_or_ge (nextChild s.mem.container id) numIds with hlt | hge
  · have hne := (lt_nextChild s.mem.container id).ne
    refine h.splits ?_ hb (h.toFamily.split hid.2 hn) hid.2 (h.covered.usage_add hq)
    rw [Mem.allocMemQuota, containerSplit_of_lt hlt]
    exact {
      lt := hlt
      ne := hne
      pos := (lt_nextChild s.mem.container id).pos
      free := h.toFamily.used_nextChild hn
      self := update_self _ _ _
      child := by simp only [update_of_ne hne.symm, update_self]
      other := fun i hi hic => by simp only [update_of_ne hi, update_of_ne hic]
      held := rfl }
  · rw [Mem.allocMemQuota, containerSplit_of_le hge]
    exact h

end Pool.Accounted

/-- `sys_spawn` fails, or splits a container with less than three children. -/
theorem sysSpawn_cases (m : Mem) (id elfId : Nat) (q : BitVec 32) :
    (m.sysSpawn id elfId q).1 = m ∨
      (containerCanConsume m.container id q ∧ (m.container id).nchildren ≠ maxChildren ∧
        (m.sysSpawn id elfId q).1 = (m.allocMemQuota id q).1) := by
  rw [Mem.sysSpawn]
  split
  · exact .inl rfl
  split
  · exact .inl rfl
  split
  · exact .inl rfl
  split
  · exact .inl rfl
  · exact .inr ⟨not_not.1 ‹_›, ‹_›, rfl⟩

/-- The test of `container_can_consume` is exact if the sum does not wrap around. -/
theorem le_of_containerCanConsume {c : Nat → SContainer} {id : Nat} {q : BitVec 32}
    (hwrap : (c id).usage.toNat + q.toNat < 2 ^ 32) (h : containerCanConsume c id q) :
    (c id).usage.toNat + q.toNat ≤ (c id).quota.toNat := by
  simp only [containerCanConsume, decide_eq_true_eq, BitVec.le_def, BitVec.toNat_add] at h
  rwa [Nat.mod_eq_of_lt hwrap] at h

/-- A spawn whose sum does not wrap around keeps the accounts, and the usage of the parent does not
decrease. -/
theorem Pool.Accounted.spawn {s : Pool} {id : Nat} (elfId : Nat) {q : BitVec 32} (h : s.Accounted)
    (hid : s.Used id) (hwrap : (s.mem.container id).usage.toNat + q.toNat < 2 ^ 32) :
    Pool.Accounted { s with mem := (s.mem.sysSpawn id elfId q).1 } ∧
      (s.mem.container id).usage.toNat ≤
        ((s.mem.sysSpawn id elfId q).1.container id).usage.toNat := by
  rcases sysSpawn_cases s.mem id elfId q with heq | ⟨hcan, hn, heq⟩
  · rw [heq]
    exact ⟨h, le_rfl⟩
  · have hq := le_of_containerCanConsume hwrap hcan
    have hlt := lt_of_le_of_ne (h.few id) hn
    rw [heq]
    refine ⟨h.split hid hlt hq, ?_⟩
    rw [Mem.allocMemQuota]
    rcases Nat.lt_or_ge (nextChild s.mem.container id) numIds with hc | hc
    · rw [containerSplit_of_lt hc]
      simp only [update_self, h.covered.usage_add hq]
      omega
    · rw [containerSplit_of_le hc]

theorem accounted_of_runs {s₀ s : Pool} (hinit : spawnMachine.Init s₀)
    (h : spawnMachine.Runs SpawnAct.NoWrap s₀ s) : s.Accounted := by
  obtain ⟨mmap, rfl⟩ := hinit
  refine h.invariant (fun s a t hs hok ht => ?_) (.init mmap)
  cases a with
  | spawn id elfId quota =>
    obtain ⟨hid, rfl⟩ := of_guard ht
    exact (hs.spawn elfId hid hok).1
  | alloc id =>
    obtain ⟨hid, rfl⟩ := of_guard ht
    exact hs.alloc hid
  | free id page =>
    obtain ⟨⟨hid, hp⟩, rfl⟩ := of_guard ht
    exact hs.free hid hp

/-- In a run in which no sum of `container_can_consume` wraps around, each container in use is
within its quota and uses the pages that it holds and the quotas of its children, and a spawn does
not decrease the usage of the parent. -/
theorem quota_accounting {s₀ s : Pool} (hinit : spawnMachine.Init s₀)
    (h : spawnMachine.Runs SpawnAct.NoWrap s₀ s) :
    (∀ id, s.Used id →
      0 ≤ (s.mem.container id).usage.toInt ∧
      (s.mem.container id).usage.toInt ≤ (s.mem.container id).quota.toInt ∧
      (s.mem.container id).usage.toInt =
        (s.held id).card + ∑ i ∈ s.children id, (s.mem.container i).quota.toInt) ∧
    ∀ id elfId quota t, SpawnAct.NoWrap s (.spawn id elfId quota) →
      spawnMachine.step s (.spawn id elfId quota) = some t →
      (s.mem.container id).usage.toInt ≤ (t.mem.container id).usage.toInt := by
  have hs := accounted_of_runs hinit h
  refine ⟨fun id hid => ?_, fun id elfId quota t hok ht => ?_⟩
  · have hacc := hs.account id hid.2
    have hle := hs.covered.usage id
    have hsum : ∑ i ∈ s.children id, (s.mem.container i).quota.toInt =
        ((∑ i ∈ s.children id, (s.mem.container i).quota.toNat : Nat) : Int) := by
      rw [Nat.cast_sum]
      exact Finset.sum_congr rfl fun i _ => hs.toInt_quota
    rw [hsum, hs.toInt_usage, hs.toInt_quota]
    omega
  · obtain ⟨hid, rfl⟩ := of_guard ht
    obtain ⟨hs', hle⟩ := hs.spawn elfId hid hok
    rw [hs.toInt_usage, hs'.toInt_usage]
    exact_mod_cast hle

theorem fourPool_init : spawnMachine.Init fourPool := ⟨fourPages, init_fourPages.symm⟩

/-- The root spawns a process with two pages. -/
theorem quota_accounting_spawn : ∃ s, spawnMachine.Runs SpawnAct.NoWrap fourPool s ∧ s.Used 1 ∧
    (s.mem.container 1).quota.toInt = 2 ∧
    (s.mem.container 0).usage.toInt =
      (s.held 0).card + ∑ i ∈ s.children 0, (s.mem.container i).quota.toInt := by
  have hroot : fourPool.Used 0 := by decide
  have hrun : spawnMachine.Runs SpawnAct.NoWrap fourPool
      { fourPool with mem := (fourPool.mem.sysSpawn 0 1 2).1 } :=
    .tail (a := .spawn 0 1 2) .refl
      (by decide : 0 + 2 < 2 ^ 32) (by simp only [spawnMachine, if_pos hroot])
  refine ⟨_, hrun, by decide, by decide, ?_⟩
  exact ((quota_accounting fourPool_init hrun).1 0 (by decide)).2.2

/-- A process that has used one of its two pages spawns a child with the quota `2^32 - 1`. The sum
of `container_can_consume` wraps around to 0; the child gets the quota -1, which it exceeds, and
the usage of the process decreases. -/
theorem quota_forged : ∃ s t, spawnMachine.Reachable s ∧
    spawnMachine.step s (.spawn 1 1 0xFFFFFFFF) = some t ∧
    (t.mem.container 1).usage.toInt < (s.mem.container 1).usage.toInt ∧
    t.Used 4 ∧ (t.mem.container 4).quota.toInt < (t.mem.container 4).usage.toInt := by
  have heval : ((spawnMachine.replay fourPool [.spawn 0 1 2, .alloc 1]).any fun s =>
      (spawnMachine.step s (.spawn 1 1 0xFFFFFFFF)).any fun t =>
        decide ((t.mem.container 1).usage.toInt < (s.mem.container 1).usage.toInt ∧
          t.Used 4 ∧ (t.mem.container 4).quota.toInt < (t.mem.container 4).usage.toInt)) =
          true := by
    decide +kernel
  obtain ⟨s, hs, heval⟩ := (Option.any_eq_true _ _).1 heval
  obtain ⟨t, ht, heval⟩ := (Option.any_eq_true _ _).1 heval
  exact ⟨s, t, (Machine.Runs.of_replay hs).reachable (.init fourPool_init), ht,
    of_decide_eq_true heval⟩

end MCertikos
