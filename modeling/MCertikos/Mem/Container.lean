import MCertikos.Lib.Table
import MCertikos.Mem.AllocTable
import MCertikos.Thread.Sched

/-!
# Containers

A container holds the number of pages that a process may use, its quota, and the number that it
uses: the pages that it holds and the quotas that it has given to its children. The functions of
`kern/pmm/MContainer` that hand out pages, and the system call that creates a child.

The quotas never promise more pages than there are: the pages that are allocated and those that the
containers may still use are together at most the normal pages of the machine (`Covered`). So a
container that is below its quota always gets a page.
-/

namespace MCertikos

open Transition Function

/-- The physical memory: the allocation table and the containers. -/
structure Mem where
  table : AllocTable
  container : Nat → SContainer

/-- The loop of `container_init`, which counts the pages that may be allocated
(`kern/pmm/MContainer/MContainer.c:35`). -/
def realQuota (t : AllocTable) : Nat := (List.range' 1 (t.nps - 1)).countP (t.Available ·)

namespace Mem

/-- The memory after boot. Reference: `container_init` (`kern/pmm/MContainer/MContainer.c:22`). -/
def init (mmap : List MmapEntry) : Mem where
  table := pmemInit mmap
  container := containerInit (BitVec.ofNat 32 (realQuota (pmemInit mmap)))

variable (m : Mem) (id : Nat)

/-- Allocates a page for a process; the result 0 means that it gets none. The comparison is one of
signed numbers. Reference: `container_alloc` (`kern/pmm/MContainer/MContainer.c:129`). -/
def containerAlloc : Mem × Nat :=
  if ((m.container id).usage + 1).sle (m.container id).quota then
    ({ table := m.table.palloc.1
       container := update m.container id
        { m.container id with usage := (m.container id).usage + 1 } }, m.table.palloc.2)
  else (m, 0)

/-- Reference: `container_free` (`kern/pmm/MContainer/MContainer.c:146`). -/
def containerFree (page : Nat) : Mem :=
  if m.table.atIsAllocated page then
    { table := m.table.pfree page
      container :=
        if (0 : BitVec 32).slt (m.container id).usage then
          update m.container id
            { m.container id with usage := (m.container id).usage - 1 }
        else m.container }
  else m

/-- Gives a part of the quota to a new child. Reference: `alloc_mem_quota`
(`kern/vmm/MPTNew/MPTNew.c:30`), which is `container_split`. -/
def allocMemQuota (quota : BitVec 32) : Mem × Nat :=
  ({ m with container := (containerSplit m.container id quota).1 },
    (containerSplit m.container id quota).2)

end Mem

/-- The errors of `sys_spawn`. Reference: `kern/lib/syscall.h`. -/
inductive SpawnError where
  /-- `E_EXCEEDS_QUOTA`. -/
  | exceedsQuota
  /-- `E_MAX_NUM_CHILDEN_REACHED`. -/
  | maxNumChildren
  /-- `E_INVAL_CHILD_ID`. -/
  | invalChildId
  /-- `E_INVAL_PID`. -/
  | invalPid
  deriving DecidableEq, Repr

/-- What `sys_spawn` does to the containers, and the id of the new process. The program images have
the numbers 1 to 7. Loading the image allocates pages for the child, with `container_alloc`.
Reference: `sys_spawn` (`kern/trap/TSyscall/TSyscall.c:113`) with `kctx_new`
(`kern/thread/PKCtxNew/PKCtxNew.c:15`). -/
def Mem.sysSpawn (m : Mem) (curid elfId : Nat) (quota : BitVec 32) : Mem × Except SpawnError Nat :=
  if ¬ containerCanConsume m.container curid quota then (m, .error .exceedsQuota)
  else if numIds < curid * maxChildren + 1 + maxChildren then (m, .error .maxNumChildren)
  else if (m.container curid).nchildren = maxChildren then (m, .error .invalChildId)
  else if elfId < 1 ∨ 7 < elfId then (m, .error .invalPid)
  -- `kctx_new` tests the quota once more
  else if ¬ containerCanConsume m.container curid quota then (m, .error .invalPid)
  else
    let (m', pid) := m.allocMemQuota curid quota
    (m', if pid = numIds then .error .invalPid else .ok pid)

/-- Whatever the quotas are, `container_alloc` gives out pages that were not allocated. -/
theorem Mem.grants_containerAlloc {m : Mem} (h : m.table.Ok) (id : Nat) :
    AllocTable.Grants m.table (m.containerAlloc id).1.table (m.containerAlloc id).2 := by
  rw [Mem.containerAlloc]
  split
  · exact h.palloc.grants
  · exact ⟨h, fun _ => rfl, fun h0 => absurd rfl h0⟩

/-- `container_free` frees the page if it is allocated. -/
theorem Mem.table_containerFree (m : Mem) (id page : Nat) :
    (m.containerFree id page).table =
      if m.table.atIsAllocated page then m.table.pfree page else m.table := by
  rw [Mem.containerFree]
  split <;> rfl

/-! ## Quotas cover no more than there is -/

/-- The pages that a container may still use. -/
def SContainer.slack (c : SContainer) : Nat := c.quota.toNat - c.usage.toNat

/-- No container uses more than its quota, and the pages that are allocated and those that
containers may still use are together at most the normal pages. -/
structure Mem.Covered (m : Mem) : Prop where
  ok : m.table.Ok
  small : m.table.normal.card < 2 ^ 20
  usage : ∀ id, (m.container id).usage.toNat ≤ (m.container id).quota.toNat
  quota : ∀ id, (m.container id).quota.toNat ≤ m.table.normal.card
  root : (m.container 0).quota.toNat = m.table.normal.card
  le : m.table.taken.card + ∑ id ∈ Finset.range numIds, (m.container id).slack ≤
    m.table.normal.card

theorem toInt_of_lt {x : BitVec 32} (h : x.toNat < 2 ^ 20) : x.toInt = x.toNat :=
  BitVec.toInt_eq_toNat_of_lt (by omega)

theorem toNat_add_one {x : BitVec 32} (h : x.toNat < 2 ^ 20) : (x + 1).toNat = x.toNat + 1 := by
  rw [BitVec.toNat_add, Nat.mod_eq_of_lt]
  · rfl
  · exact (by omega : x.toNat + 1 < 2 ^ 32)

/-- The count of `container_init`. -/
theorem AllocTable.Ok.realQuota {t : AllocTable} (h : t.Ok) :
    realQuota t = (t.normal \ t.taken).card := by
  have hnodup : ((List.range' 1 (t.nps - 1)).filter (t.Available ·)).Nodup :=
    (List.nodup_range').filter _
  rw [MCertikos.realQuota, List.countP_eq_length_filter, ← List.toFinset_card_of_nodup hnodup]
  congr 1
  ext i
  rw [List.mem_toFinset, List.mem_filter, List.mem_range'_1, decide_eq_true_eq, Finset.mem_sdiff,
    h.mem_normal, h.mem_taken]
  refine and_iff_right_of_imp fun ⟨hn, _⟩ => ?_
  obtain ⟨hlo, -, hlt⟩ := h.norm i hn
  have : userLoPi = 0x40000 := rfl
  omega

theorem SContainer.slack_eq {c : SContainer} (h : c.usage.toNat ≤ c.quota.toNat) :
    c.usage.toNat + c.slack = c.quota.toNat := Nat.add_sub_cancel' h

namespace Mem

/-- At boot the root may use the pages that there are. -/
theorem covered_init (mmap : List MmapEntry) : (init mmap).Covered := by
  have hok := AllocTable.ok_pmemInit mmap
  have hcard : (pmemInit mmap).normal.card ≤ numPages mmap :=
    (Finset.card_filter_le _ _).trans (Finset.card_range _).le
  have hlt := AllocTable.numPages_lt mmap
  have hquota : realQuota (pmemInit mmap) = (pmemInit mmap).normal.card := by
    rw [hok.realQuota, AllocTable.taken_pmemInit, Finset.sdiff_empty]
  have hroot : (BitVec.ofNat 32 (realQuota (pmemInit mmap))).toNat =
      (pmemInit mmap).normal.card := by
    rw [BitVec.toNat_ofNat, hquota, Nat.mod_eq_of_lt (by omega)]
  have hsum := Table.sum_range_update (n := numIds) (a := 0) (by decide) SContainer.slack
    (fun _ => { quota := 0, usage := 0, parent := 0, nchildren := 0, used := false })
    { quota := BitVec.ofNat 32 (realQuota (pmemInit mmap)), usage := 0, parent := 0, nchildren := 0
      used := true }
  refine ⟨hok, hcard.trans_lt hlt, fun id => ?_, fun id => ?_, hroot, ?_⟩
  · rcases eq_or_ne id 0 with rfl | hne
    · exact Nat.zero_le _
    · simp [init, containerInit, update_of_ne hne]
  · rcases eq_or_ne id 0 with rfl | hne
    · exact hroot.le
    · simp [init, containerInit, update_of_ne hne]
  · simp only [SContainer.slack, hroot] at hsum
    simp only [init, containerInit, SContainer.slack, AllocTable.taken_pmemInit, Finset.card_empty]
    simp at hsum ⊢
    omega

end Mem

/-! ### The operations -/

section
variable {m : Mem} {id page : Nat} {q : BitVec 32}

/-- The index of the next child of a container. -/
def nextChild (c : Nat → SContainer) (id : Nat) : Nat := id * maxChildren + 1 + (c id).nchildren

theorem lt_nextChild (c : Nat → SContainer) (id : Nat) : id < nextChild c id := by
  rw [nextChild, maxChildren]
  omega

theorem containerSplit_of_le {c : Nat → SContainer} (h : numIds ≤ nextChild c id) :
    containerSplit c id q = (c, numIds) := if_pos h

theorem containerSplit_of_lt {c : Nat → SContainer} (h : nextChild c id < numIds) :
    containerSplit c id q =
      (update (update c (nextChild c id)
        { used := true, quota := q, usage := 0, parent := id, nchildren := 0 }) id
        { c id with usage := (c id).usage + q, nchildren := (c id).nchildren + 1 },
        nextChild c id) := by
  have hne : id ≠ nextChild c id := (lt_nextChild c id).ne
  have hif : ¬ numIds ≤ id * maxChildren + 1 + (c id).nchildren := h.not_ge
  rw [containerSplit, if_neg hif]
  simp only [nextChild] at hne ⊢
  rw [update_of_ne hne]

namespace Mem.Covered

/-- The sum of two words below the number of pages. -/
theorem usage_add (h : m.Covered) (hq : (m.container id).usage.toNat + q.toNat ≤
    (m.container id).quota.toNat) :
    ((m.container id).usage + q).toNat = (m.container id).usage.toNat + q.toNat := by
  have := h.quota id
  have := h.small
  rw [BitVec.toNat_add, Nat.mod_eq_of_lt (by omega)]

/-- The usage of a container changes by no less than the pages that are allocated. -/
theorem setUsage (h : m.Covered) (hid : id < numIds) {t : AllocTable} {u : BitVec 32} (hok : t.Ok)
    (hnormal : t.normal = m.table.normal) (hu : u.toNat ≤ (m.container id).quota.toNat)
    (hle : t.taken.card + (m.container id).usage.toNat ≤ m.table.taken.card + u.toNat) :
    Covered { table := t
              container := update m.container id { m.container id with usage := u } } := by
  refine ⟨hok, hnormal ▸ h.small, fun i => ?_, fun i => ?_, ?_, ?_⟩
  · rcases eq_or_ne i id with rfl | hi
    · simpa only [update_self] using hu
    · simpa only [update_of_ne hi] using h.usage i
  · rw [hnormal]
    rcases eq_or_ne i id with rfl | hi
    · simpa only [update_self] using h.quota i
    · simpa only [update_of_ne hi] using h.quota i
  · rw [hnormal]
    rcases eq_or_ne 0 id with rfl | hi
    · simpa only [update_self] using h.root
    · simpa only [update_of_ne hi] using h.root
  · have hsum := Table.sum_range_update hid SContainer.slack m.container
      { m.container id with usage := u }
    have hslack : SContainer.slack { m.container id with usage := u } + u.toNat =
        (m.container id).slack + (m.container id).usage.toNat := by
      have := h.usage id
      simp only [SContainer.slack]
      omega
    have := h.le
    rw [hnormal]
    dsimp only at hsum hslack ⊢
    omega

/-- A container gives a part of what it may still use to a child. -/
theorem split (h : m.Covered) (hid : id < numIds)
    (hq : (m.container id).usage.toNat + q.toNat ≤ (m.container id).quota.toNat) :
    (m.allocMemQuota id q).1.Covered := by
  rw [allocMemQuota]
  by_cases hle : numIds ≤ nextChild m.container id
  · rwa [containerSplit_of_le hle]
  rw [Nat.not_le] at hle
  rw [containerSplit_of_lt hle]
  have hne := (lt_nextChild m.container id).ne
  have hadd := h.usage_add hq
  have hquota := h.quota id
  refine ⟨h.ok, h.small, fun i => ?_, fun i => ?_, ?_, ?_⟩
  · rcases eq_or_ne i id with rfl | hi
    · simpa only [update_self, hadd] using hq
    rcases eq_or_ne i (nextChild m.container id) with rfl | hc
    · simp [update_of_ne hi]
    · simpa only [update_of_ne hi, update_of_ne hc] using h.usage i
  · rcases eq_or_ne i id with rfl | hi
    · simpa only [update_self] using hquota
    rcases eq_or_ne i (nextChild m.container id) with rfl | hc
    · simp only [update_of_ne hi, update_self]
      omega
    · simpa only [update_of_ne hi, update_of_ne hc] using h.quota i
  · have h0 : 0 ≠ nextChild m.container id := ((Nat.zero_le id).trans_lt (lt_nextChild _ _)).ne
    rcases eq_or_ne 0 id with rfl | hi
    · simpa only [update_self] using h.root
    · simpa only [update_of_ne hi, update_of_ne h0] using h.root
  · -- what the parent may use decreases by `q`, and what the child may use becomes `q`
    have hchild := Table.sum_range_update hle SContainer.slack m.container
      { used := true, quota := q, usage := 0, parent := id, nchildren := 0 }
    have hparent := Table.sum_range_update hid SContainer.slack (update m.container
      (nextChild m.container id) { used := true, quota := q, usage := 0, parent := id, nchildren :=
        0 })
      { m.container id with
        usage := (m.container id).usage + q, nchildren := (m.container id).nchildren + 1 }
    have hslack := SContainer.slack_eq (h.usage id)
    have hle := h.le
    rw [update_of_ne hne] at hparent
    have hnew : SContainer.slack { used := true, quota := q, usage := 0, parent := id, nchildren :=
      0 } =
        q.toNat := rfl
    have hold : SContainer.slack { m.container id with
        usage := (m.container id).usage + q, nchildren := (m.container id).nchildren + 1 } +
          q.toNat =
        (m.container id).slack := by
      simp only [SContainer.slack, hadd]
      omega
    rw [hnew] at hchild
    dsimp only at hparent hold ⊢
    omega

/-- A container that is below its quota gets a page. -/
theorem palloc_ne_zero (h : m.Covered) (hid : id < numIds)
    (hlt : (m.container id).usage.toNat < (m.container id).quota.toNat) :
    m.table.palloc.2 ≠ 0 := by
  intro h0
  have hfull := (h.ok.palloc.fail h0).2
  have hle := h.le
  have hone : (m.container id).slack ≤ ∑ i ∈ Finset.range numIds, (m.container i).slack :=
    Finset.single_le_sum (f := fun i => (m.container i).slack) (fun _ _ => Nat.zero_le _)
      (Finset.mem_range.2 hid)
  rw [hfull] at hle
  rw [SContainer.slack] at hone
  omega

/-- The test of `container_alloc`. -/
theorem sle_iff (h : m.Covered) : ((m.container id).usage + 1).sle (m.container id).quota ↔
    (m.container id).usage.toNat < (m.container id).quota.toNat := by
  have hu := h.usage id
  have hq := h.quota id
  have hs := h.small
  have hadd : ((m.container id).usage + 1).toNat = (m.container id).usage.toNat + 1 :=
    toNat_add_one (by omega)
  rw [BitVec.sle_iff_toInt_le, BitVec.toInt_eq_toNat_of_lt (by omega),
    BitVec.toInt_eq_toNat_of_lt (by omega), hadd]
  omega

/-- What a process gets from `container_alloc`: nothing if it has used up its quota, and otherwise
a page that was not allocated. -/
theorem containerAlloc_cases (h : m.Covered) (hid : id < numIds) :
    ((m.container id).usage.toNat = (m.container id).quota.toNat ∧ m.containerAlloc id = (m, 0)) ∨
      ((m.container id).usage.toNat < (m.container id).quota.toNat ∧ m.table.palloc.2 ≠ 0 ∧
        m.containerAlloc id =
          ({ table := m.table.palloc.1
             container := update m.container id
              { m.container id with usage := (m.container id).usage + 1 } },
              m.table.palloc.2)) := by
  rw [containerAlloc]
  by_cases hlt : (m.container id).usage.toNat < (m.container id).quota.toNat
  · rw [if_pos (h.sle_iff.2 hlt)]
    exact .inr ⟨hlt, h.palloc_ne_zero hid hlt, rfl⟩
  · rw [if_neg fun hs => hlt (h.sle_iff.1 hs)]
    exact .inl ⟨Nat.le_antisymm (h.usage id) (Nat.not_lt.1 hlt), rfl⟩

theorem containerAlloc (h : m.Covered) (hid : id < numIds) : (m.containerAlloc id).1.Covered := by
  rcases h.containerAlloc_cases hid with ⟨-, heq⟩ | ⟨hlt, hne, heq⟩
  · rwa [heq]
  · have hp := h.ok.palloc
    obtain ⟨-, hnot, htaken⟩ := hp.page hne
    have hadd : ((m.container id).usage + 1).toNat = (m.container id).usage.toNat + 1 :=
      h.usage_add (q := 1) hlt
    rw [heq]
    refine h.setUsage hid hp.ok hp.normal ?_ ?_
    · rw [hadd]
      exact hlt
    · rw [htaken, Finset.card_insert_of_notMem hnot, hadd]
      omega

/-- A page that is allocated is freed, and the container that frees it uses one page less, unless
it uses none. -/
theorem containerFree_eq (h : m.Covered) (ht : page ∈ m.table.taken) :
    m.containerFree id page =
      { table := m.table.pfree page
        container :=
          if 0 < (m.container id).usage.toNat then
            update m.container id
              { m.container id with usage := (m.container id).usage - 1 }
          else m.container } := by
  have hu := h.usage id
  have hq := h.quota id
  have hs := h.small
  have hpos : (0 : BitVec 32).slt (m.container id).usage ↔ 0 < (m.container id).usage.toNat := by
    rw [BitVec.slt_iff_toInt_lt, BitVec.toInt_eq_toNat_of_lt
      (x := (m.container id).usage) (by omega)]
    simp
  rw [containerFree, if_pos (h.ok.mem_taken.1 ht)]
  simp only [hpos]

/-- `container_free` of a page that is allocated. -/
theorem containerFree (h : m.Covered) (hid : id < numIds) (ht : page ∈ m.table.taken) :
    (m.containerFree id page).Covered := by
  have htaken : (m.table.pfree page).taken.card + 1 = m.table.taken.card := by
    rw [h.ok.taken_free, Finset.card_erase_add_one ht]
  have hok : (m.table.pfree page).Ok := h.ok.pfree
  have hnormal : (m.table.pfree page).normal = m.table.normal := AllocTable.normal_atSetAllocated
  rw [h.containerFree_eq ht]
  split
  case isTrue hpos =>
    have hsub : ((m.container id).usage - 1).toNat = (m.container id).usage.toNat - 1 :=
      BitVec.toNat_sub_of_le hpos
    have hu := h.usage id
    exact h.setUsage hid hok hnormal (by omega) (by omega)
  case isFalse =>
    have hle := h.le
    refine ⟨hok, hnormal ▸ h.small, h.usage, hnormal ▸ h.quota, hnormal ▸ h.root, ?_⟩
    rw [hnormal]
    dsimp only
    omega

end Mem.Covered

end

/-! ## The tree of containers -/

/-- A container in use is the child of its parent with a number below the number of children of the
parent. -/
structure Family (c : Nat → SContainer) : Prop where
  child : ∀ i ≠ 0, (c i).used →
    ∃ k < (c (c i).parent).nchildren, i = (c i).parent * maxChildren + 1 + k
  few : ∀ id, (c id).nchildren ≤ maxChildren
  unused : ∀ id, (c id).used = false → (c id).nchildren = 0

namespace Family

variable {c : Nat → SContainer} {id : Nat} {q : BitVec 32}

theorem init (realQuota : BitVec 32) : Family (containerInit realQuota) := by
  have hzero : ∀ i ≠ 0, containerInit realQuota i =
      { quota := 0, usage := 0, parent := 0, nchildren := 0, used := false } :=
    fun i hi => update_of_ne hi _ _
  refine ⟨fun i hi hu => ?_, fun id => ?_, fun id hu => ?_⟩
  · rw [hzero i hi] at hu
    cases hu
  · rcases eq_or_ne id 0 with rfl | hne
    · exact Nat.zero_le _
    · rw [hzero id hne]
      exact Nat.zero_le _
  · rcases eq_or_ne id 0 with rfl | hne
    · cases hu
    · rw [hzero id hne]

/-- The next child of a container with less than three children is not in use. -/
theorem used_nextChild (h : Family c) (hn : (c id).nchildren < maxChildren) :
    (c (nextChild c id)).used = false := by
  by_contra hu
  rw [Bool.not_eq_false] at hu
  have hpos := lt_nextChild c id
  obtain ⟨k, hk, heq⟩ := h.child _ (by omega) hu
  have hfew := h.few (c (nextChild c id)).parent
  -- both are the children of one parent, and of the same number
  have hparent : (c (nextChild c id)).parent = id := by
    rw [maxChildren] at *
    rw [nextChild] at heq ⊢
    rw [maxChildren] at heq ⊢
    omega
  rw [hparent] at hk heq
  rw [nextChild] at heq
  omega

/-- A change of quotas and usages keeps the tree. -/
theorem congr {c' : Nat → SContainer} (h : Family c)
    (hc : ∀ i, (c' i).used = (c i).used ∧ (c' i).parent = (c i).parent ∧
      (c' i).nchildren = (c i).nchildren) : Family c' := by
  refine ⟨fun i hi hu => ?_, fun id => ?_, fun id hu => ?_⟩
  · rw [(hc i).1] at hu
    rw [(hc i).2.1, (hc _).2.2]
    exact h.child i hi hu
  · rw [(hc id).2.2]
    exact h.few id
  · rw [(hc id).1] at hu
    rw [(hc id).2.2]
    exact h.unused id hu

/-- A container with less than three children gets one more. -/
theorem split (h : Family c) (hid : (c id).used) (hn : (c id).nchildren < maxChildren) :
    Family (containerSplit c id q).1 := by
  by_cases hlt : nextChild c id < numIds
  · have hne := (lt_nextChild c id).ne
    have hfree := h.used_nextChild hn
    rw [containerSplit_of_lt hlt]
    dsimp only
    generalize hchild : nextChild c id = n at hne hfree
    rw [nextChild] at hchild
    refine ⟨fun i hi hu => ?_, fun i => ?_, fun i hu => ?_⟩
    · rcases eq_or_ne i n with rfl | hin
      · refine ⟨(c id).nchildren, ?_, ?_⟩
        · simp [update_of_ne hne.symm]
        · simp only [update_of_ne hne.symm, update_self]
          exact hchild.symm
      · have hsame : (update (update c n
            { used := true, quota := q, usage := 0, parent := id, nchildren := 0 }) id
            { c id with usage := (c id).usage + q, nchildren := (c id).nchildren + 1 } i).parent =
            (c i).parent := by
          rcases eq_or_ne i id with rfl | hii
          · rw [update_self]
          · rw [update_of_ne hii, update_of_ne hin]
        have hused : (c i).used := by
          rcases eq_or_ne i id with rfl | hii
          · exact hid
          · rwa [update_of_ne hii, update_of_ne hin] at hu
        obtain ⟨k, hk, heq⟩ := h.child i hi hused
        rw [hsame]
        refine ⟨k, ?_, heq⟩
        rcases eq_or_ne (c i).parent id with hp | hp
        · rw [hp] at hk ⊢
          rw [update_self]
          exact Nat.lt_succ_of_lt hk
        · have hpn : (c i).parent ≠ n := by
            intro hpn
            rw [hpn, h.unused n hfree] at hk
            exact absurd hk (Nat.not_lt_zero _)
          rwa [update_of_ne hp, update_of_ne hpn]
    · rcases eq_or_ne i id with rfl | hii
      · rw [update_self]
        exact hn
      · rw [update_of_ne hii]
        rcases eq_or_ne i n with rfl | hin
        · rw [update_self]
          exact Nat.zero_le _
        · rw [update_of_ne hin]
          exact h.few i
    · rcases eq_or_ne i id with rfl | hii
      · rw [update_self] at hu
        rw [hid] at hu
        cases hu
      · rw [update_of_ne hii] at hu ⊢
        rcases eq_or_ne i n with rfl | hin
        · rw [update_self] at hu
          cases hu
        · rw [update_of_ne hin] at hu ⊢
          exact h.unused i hu
  · rw [containerSplit_of_le (Nat.le_of_not_lt hlt)]
    exact h

end Family

end MCertikos
