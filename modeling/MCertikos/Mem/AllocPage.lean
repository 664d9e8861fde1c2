import MCertikos.Mem.Isolation

/-!
# Page allocations that fail

`alloc_page` takes a page from the quota of a process and maps it. If the directory has no entry
for the address, mapping takes a second page, for the page table. Neither page is given back if the
second one cannot be had. So a failed call has no effect exactly if it is refused at once, before
the first page is taken.
-/

namespace MCertikos

open Transition Function

namespace Vmm

variable (s : Vmm) (p : Nat) (va : BitVec 32)

/-- The test of `container_alloc` for the `n`-th page from now on. -/
def InQuota (n : Nat) : Prop :=
  ((s.mem.container p).usage + BitVec.ofNat 32 n).sle (s.mem.container p).quota

/-- The pages that `alloc_page` takes: one for the data, and one for the page table if there is
none. -/
def pagesNeeded : Nat := if s.getPdirEntryByVa p va = 0 then 2 else 1

/-- The quota and the free pages suffice for what `alloc_page` takes. -/
def Supplied : Prop :=
  (∀ n, 1 ≤ n → n ≤ s.pagesNeeded p va → s.InQuota p n) ∧
    s.mem.table.taken.card + s.pagesNeeded p va ≤ s.mem.table.normal.card

end Vmm

/-! ## One page -/

section
variable {m : Mem} {p : Nat} {t : AllocTable}

/-- `container_alloc` refuses a process that has used up its quota, and changes nothing. -/
theorem Mem.containerAlloc_of_refused
    (h : ¬ ((m.container p).usage + 1).sle (m.container p).quota) : m.containerAlloc p = (m, 0) :=
  if_neg h

/-- `container_alloc` for a process below its quota. -/
theorem Mem.containerAlloc_of_quota
    (h : ((m.container p).usage + 1).sle (m.container p).quota) :
    m.containerAlloc p =
      ({ table := m.table.palloc.1
         container := update m.container p
          { m.container p with usage := (m.container p).usage + 1 } }, m.table.palloc.2) :=
  if_pos h

/-- `palloc` finds a page exactly if some page is free. -/
theorem AllocTable.Ok.palloc_eq_zero_iff (h : t.Ok) :
    t.palloc.2 = 0 ↔ t.normal.card ≤ t.taken.card := by
  constructor
  · intro h0
    rw [(h.palloc.fail h0).2]
  · intro hle
    by_contra hne
    obtain ⟨hnormal, hnot, -⟩ := h.palloc.page hne
    have heq := Finset.eq_of_subset_of_card_le h.taken_subset hle
    exact hnot (heq ▸ hnormal)

/-- The number of pages that are allocated after one more. -/
theorem AllocTable.Ok.card_palloc (h : t.Ok) (hne : t.palloc.2 ≠ 0) :
    t.palloc.1.taken.card = t.taken.card + 1 := by
  obtain ⟨-, hnot, htaken⟩ := h.palloc.page hne
  rw [htaken, Finset.card_insert_of_notMem hnot]

theorem AllocTable.Ok.palloc_ne_magic (h : t.Ok) : t.palloc.2 ≠ magicNumber := by
  intro he
  have hne : t.palloc.2 ≠ 0 := by rw [he]; decide
  obtain ⟨hnormal, -, -⟩ := h.palloc.page hne
  obtain ⟨-, hhi, -⟩ := h.norm _ (h.mem_normal.1 hnormal)
  rw [he] at hhi
  exact absurd hhi (by decide)

end

/-! ## The outcomes of `alloc_page` -/

namespace Vmm

variable {s : Vmm} {p page : Nat} {va perm : BitVec 32}

/-- A process that has used up its quota. -/
theorem allocPage_of_refused (h : ¬ s.InQuota p 1) : s.allocPage p va perm = (s, magicNumber) := by
  have hr : s.mem.containerAlloc p = (s.mem, 0) := Mem.containerAlloc_of_refused h
  simp only [allocPage, hr, ne_eq, not_true_eq_false, if_false]

/-- The state once the first page is taken. -/
def afterPage (s : Vmm) (p : Nat) : Vmm := { s with mem := (s.mem.containerAlloc p).1 }

theorem allocPage_of_page (h : s.InQuota p 1) (hne : s.mem.table.palloc.2 ≠ 0) :
    s.allocPage p va perm = (s.afterPage p).mapPage p va s.mem.table.palloc.2 perm := by
  have hr := Mem.containerAlloc_of_quota (m := s.mem) (p := p) h
  have hpage : (s.mem.containerAlloc p).2 ≠ 0 := by
    rw [hr]
    exact hne
  simp only [allocPage, if_pos hpage, afterPage]
  rw [hr]

/-- The directory already has an entry. -/
theorem mapPage_ne_magic_of_pde (h : s.getPdirEntryByVa p va ≠ 0) :
    (s.mapPage p va page perm).2 ≠ magicNumber := by
  have hlt := entryPage_lt (s.getPdirEntryByVa p va)
  simp only [mapPage, if_neg h, magicNumber]
  omega

/-- The directory has no entry: the result depends on the page for the table. -/
theorem mapPage_of_no_pde (h : s.getPdirEntryByVa p va = 0) : (s.mapPage p va page perm).2 =
      if (s.mem.containerAlloc p).2 = 0 then magicNumber else (s.mem.containerAlloc p).2 := by
  by_cases h0 : (s.mem.containerAlloc p).2 = 0 <;> simp [mapPage, allocPtbl, h, h0]

theorem mapPage_fail_eq (h : s.getPdirEntryByVa p va = 0) (h0 : (s.mem.containerAlloc p).2 = 0) :
    (s.mapPage p va page perm).1 = { s with mem := (s.mem.containerAlloc p).1 } := by
  simp [mapPage, allocPtbl, h, h0]

theorem inQuota_afterPage (h : s.InQuota p 1) : (s.afterPage p).InQuota p 1 ↔ s.InQuota p 2 := by
  have hsum : ∀ u : BitVec 32, u + 1 + BitVec.ofNat 32 1 = u + BitVec.ofNat 32 2 := fun u => by
    rw [BitVec.add_assoc]
    rfl
  have hr := Mem.containerAlloc_of_quota (m := s.mem) (p := p) h
  simp only [InQuota, afterPage, hr, update_self, hsum]

/-- A call with the pages that it needs succeeds. -/
theorem Supplied.allocPage (h : s.Supplied p va) (hok : s.mem.table.Ok) :
    (s.allocPage p va perm).2 ≠ magicNumber := by
  obtain ⟨hquota, hcard⟩ := h
  have hpos : 1 ≤ s.pagesNeeded p va := by
    unfold pagesNeeded
    split <;> omega
  have h1 : s.InQuota p 1 := hquota 1 le_rfl hpos
  have hpage : s.mem.table.palloc.2 ≠ 0 := by
    rw [Ne, hok.palloc_eq_zero_iff]
    omega
  rw [allocPage_of_page h1 hpage]
  by_cases hpde : s.getPdirEntryByVa p va = 0
  · have hneed : s.pagesNeeded p va = 2 := if_pos hpde
    have h2 : (s.afterPage p).InQuota p 1 :=
      (inQuota_afterPage h1).2 (hquota 2 (by omega) hneed.ge)
    have hmem : (s.afterPage p).mem.table = s.mem.table.palloc.1 := by
      rw [afterPage, Mem.containerAlloc_of_quota h1]
    have hsecond := Mem.containerAlloc_of_quota (m := (s.afterPage p).mem) (p := p) h2
    have hne : (s.afterPage p).mem.table.palloc.2 ≠ 0 := by
      rw [hmem, Ne, hok.palloc.ok.palloc_eq_zero_iff, hok.palloc.normal, hok.card_palloc hpage]
      omega
    rw [mapPage_of_no_pde (s := s.afterPage p) hpde, hsecond, if_neg hne, hmem]
    exact hok.palloc.ok.palloc_ne_magic
  · exact mapPage_ne_magic_of_pde (s := s.afterPage p) hpde

/-- A call that is neither refused at once nor supplied fails. It has mapped no page, but the
process is charged for pages. -/
theorem allocPage_of_unsupplied (h1 : s.InQuota p 1) (h : ¬ s.Supplied p va)
    (hok : s.mem.table.Ok) :
    (s.allocPage p va perm).2 = magicNumber ∧
      ((s.allocPage p va perm).1.mem.container p).usage ≠ (s.mem.container p).usage ∧
      ∀ q va', (s.allocPage p va perm).1.getPtblEntryByVa q va' = s.getPtblEntryByVa q va' := by
  have hr := Mem.containerAlloc_of_quota (m := s.mem) (p := p) h1
  have hone : ∀ u : BitVec 32, u + 1 ≠ u := fun u => by bv_omega
  have htwo : ∀ u : BitVec 32, u + 1 + 1 ≠ u := fun u => by bv_omega
  by_cases hpage : s.mem.table.palloc.2 = 0
  · -- the page was counted before `palloc` was asked for it
    have hzero : (s.mem.containerAlloc p).2 = 0 := by rw [hr, hpage]
    simp only [allocPage, hzero, ne_eq, not_true_eq_false, if_false, true_and]
    refine ⟨?_, fun _ _ => rfl⟩
    rw [hr]
    simpa only [update_self] using hone _
  have hfree : s.mem.table.taken.card < s.mem.table.normal.card :=
    Nat.lt_of_not_le fun hle => hpage (hok.palloc_eq_zero_iff.2 hle)
  have husage : ((s.afterPage p).mem.container p).usage = (s.mem.container p).usage + 1 := by
    simp only [afterPage, hr, update_self]
  -- one page was there, so it is the page table that cannot be had
  have hpde : s.getPdirEntryByVa p va = 0 := by
    by_contra hne
    have hneed : s.pagesNeeded p va = 1 := if_neg hne
    refine h ⟨fun n hlo hhi => ?_, by omega⟩
    rw [show n = 1 by omega]
    exact h1
  have hneed : s.pagesNeeded p va = 2 := if_pos hpde
  rw [allocPage_of_page h1 hpage]
  have hfail : ((s.afterPage p).mem.containerAlloc p).2 = 0 ∧
      (((s.afterPage p).mem.containerAlloc p).1.container p).usage ≠
      (s.mem.container p).usage := by
    by_cases h2 : (s.afterPage p).InQuota p 1
    · have hsecond := Mem.containerAlloc_of_quota (m := (s.afterPage p).mem) (p := p) h2
      have hmem : (s.afterPage p).mem.table = s.mem.table.palloc.1 := by rw [afterPage, hr]
      rw [hsecond]
      constructor
      · rw [hmem, hok.palloc.ok.palloc_eq_zero_iff, hok.palloc.normal, hok.card_palloc hpage]
        by_contra hlt
        refine h ⟨fun n hlo hhi => ?_, by omega⟩
        rcases (by omega : n = 1 ∨ n = 2) with rfl | rfl
        · exact h1
        · exact (inQuota_afterPage h1).1 h2
      · simp only [update_self, husage]
        exact htwo _
    · rw [Mem.containerAlloc_of_refused h2]
      exact ⟨rfl, husage ▸ hone _⟩
  rw [mapPage_of_no_pde (s := s.afterPage p) hpde, if_pos hfail.1,
    mapPage_fail_eq (s := s.afterPage p) hpde hfail.1]
  exact ⟨rfl, hfail.2, fun _ _ => rfl⟩

/-- `alloc_page` succeeds exactly if it has the pages that it needs; otherwise no entry changes. -/
theorem allocPage_cases_of_ok (hok : s.mem.table.Ok) (va perm : BitVec 32) :
    s.Supplied p va ∧ (s.allocPage p va perm).2 ≠ magicNumber ∨
      ¬ s.Supplied p va ∧ (s.allocPage p va perm).2 = magicNumber ∧
        ∀ q va', (s.allocPage p va perm).1.getPtblEntryByVa q va' = s.getPtblEntryByVa q va' := by
  by_cases h : s.Supplied p va
  · exact .inl ⟨h, h.allocPage hok⟩
  · refine .inr ⟨h, ?_⟩
    by_cases h1 : s.InQuota p 1
    · exact (allocPage_of_unsupplied h1 h hok).imp_right And.right
    · rw [allocPage_of_refused h1]
      exact ⟨rfl, fun _ _ => rfl⟩

end Vmm

/-- In a state in which the process has used up its quota, or in which the quota and the free pages
suffice for the page and the page table that the call needs, a call of `alloc_page` that fails
changes nothing. -/
theorem failed_alloc_unchanged {s : Vmm} (h : vmmMachine.Reachable s) (p : Nat)
    (va perm : BitVec 32) (hs : ¬ s.InQuota p 1 ∨ s.Supplied p va)
    (hr : (s.allocPage p va perm).2 = magicNumber) : (s.allocPage p va perm).1 = s := by
  rcases hs with hrefused | hsupplied
  · rw [Vmm.allocPage_of_refused hrefused]
  · exact absurd hr (hsupplied.allocPage (tables_of_reachable h).ok)

/-- Process 1 has used its two pages. -/
theorem failed_alloc_unchanged_full :
    vmmMachine.Reachable (fourVmmPage 7) ∧
    ((fourVmmPage 7).allocPage 1 0x40001000 7).2 = magicNumber ∧
    ((fourVmmPage 7).allocPage 1 0x40001000 7).1 = fourVmmPage 7 := by
  have hrun : vmmMachine.Runs (fun _ _ => True) (Vmm.init fourPages 0 fun _ _ => 0)
      (fourVmmPage 7) :=
    fourVmmPage_runs trivial trivial
  have hreach : vmmMachine.Reachable (fourVmmPage 7) := hrun.reachable (.init fourVmm_init)
  have hrefused : ¬ (fourVmmPage 7).InQuota 1 1 := by
    unfold Vmm.InQuota
    decide +kernel
  have hmagic : ((fourVmmPage 7).allocPage 1 0x40001000 7).2 = magicNumber := by
    rw [Vmm.allocPage_of_refused hrefused]
  exact ⟨hreach, hmagic, failed_alloc_unchanged hreach 1 _ 7 (.inl hrefused) hmagic⟩

/-- A machine with four pages on which process 1 may use one. -/
def oneVmm : Vmm :=
  let s := Vmm.init fourPages 0 fun _ _ => 0
  { s with mem := (s.mem.allocMemQuota 0 1).1 }

/-- Process 1 would need a second page. -/
theorem allocPage_of_unsupplied_one :
    oneVmm.InQuota 1 1 ∧ (oneVmm.allocPage 1 0x40000000 7).2 = magicNumber ∧
      (oneVmm.allocPage 1 0x40000000 7).1.getPtblEntryByVa 1 0x40000000 = 0 := by
  have hone : oneVmm.InQuota 1 1 ∧ ¬ oneVmm.InQuota 1 2 := by
    unfold Vmm.InQuota
    decide +kernel
  have hreach : vmmMachine.Reachable oneVmm :=
    .step (a := .allocMemQuota 0 1) (.init fourVmm_init) rfl
  have hneed : 2 ≤ oneVmm.pagesNeeded 1 0x40000000 := by decide +kernel
  have hfailed := @Vmm.allocPage_of_unsupplied _ _ _ 7 hone.1
    (fun h => hone.2 (h.1 2 (by decide) hneed)) (tables_of_reachable hreach).ok
  refine ⟨hone.1, hfailed.1, ?_⟩
  rw [hfailed.2.2]
  decide +kernel

/-- Process 1 gets the page that it may use, but no page table for it. The call fails, the page
stays allocated, and the quota is used up. -/
theorem failed_alloc_keeps_page :
    vmmMachine.Reachable oneVmm ∧ UserAddr 1 0x40000000 ∧
    (oneVmm.allocPage 1 0x40000000 7).2 = magicNumber ∧
    (oneVmm.mem.container 1).usage = 0 ∧
    ((oneVmm.allocPage 1 0x40000000 7).1.mem.container 1).usage = 1 ∧
    oneVmm.mem.table.atIsAllocated 0x40000 = false ∧
    (oneVmm.allocPage 1 0x40000000 7).1.mem.table.atIsAllocated 0x40000 = true := by
  refine ⟨.step (a := .allocMemQuota 0 1) (.init fourVmm_init) rfl, by
    decide, ?_, ?_, ?_, ?_, ?_⟩ <;> decide +kernel

end MCertikos
