import MCertikos.Mem.PageTable
import MCertikos.Mem.Quota

/-!
# Page tables over runs

Over all sequences of calls of the virtual memory functions, the page tables of processes are
distinct pages that are allocated (`Vmm.Tables`). So a write to one table changes no entry of
another one, and the two-level structure is a map from the virtual pages of each process to entries
(`page_table_is_a_map`). If pages are mapped by `alloc_page` only, each page that a process refers
to, as a table or as data, is referred to once (`memory_isolation`).
-/

namespace MCertikos

open Transition Ownership Function

/-- An entry of the page directory of a process for user addresses. -/
def UserSlot (p i : Nat) : Prop := p ≠ 0 ∧ p < numIds ∧ userLoPde ≤ i ∧ i < userHiPde

instance (p i : Nat) : Decidable (UserSlot p i) := inferInstanceAs (Decidable (_ ∧ _))

/-- A user address of a process other than 0. -/
def UserAddr (p : Nat) (va : BitVec 32) : Prop :=
  p ≠ 0 ∧ p < numIds ∧ vmUserLo ≤ va.toNat ∧ va.toNat < vmUserHi

instance (p : Nat) (va : BitVec 32) : Decidable (UserAddr p va) :=
  inferInstanceAs (Decidable (_ ∧ _))

theorem UserAddr.slot {p : Nat} {va : BitVec 32} (h : UserAddr p va) :
    UserSlot p (pdeAddr va) := by
  obtain ⟨h0, hp, hlo, hhi⟩ := h
  rw [vmUserLo] at hlo
  rw [vmUserHi] at hhi
  refine ⟨h0, hp, ?_, ?_⟩ <;> rw [pdeAddr_eq] <;> simp only [userLoPde, userHiPde] <;> omega

/-- A place from which a process refers to a physical page: an entry of its page directory, or of
one of its page tables. -/
inductive PageRef where
  | table (p i : Nat)
  | data (p i j : Nat)
  deriving DecidableEq

namespace Vmm

variable (s : Vmm)

/-- The page tables of the processes for user addresses. -/
def tables (x : Nat × Nat) : Option Nat :=
  if UserSlot x.1 x.2 ∧ s.pdir x.1 x.2 ≠ 0 then some (entryPage (s.pdir x.1 x.2)) else none

/-- The pages that processes refer to from user addresses. -/
def refs : PageRef → Option Nat
  | .table p i => s.tables (p, i)
  | .data p i j =>
    if UserSlot p i ∧ s.pdir p i ≠ 0 ∧ j < 1024 ∧ Present (s.getPtblEntry p i j) then
      some (entryPage (s.getPtblEntry p i j))
    else none

/-- The entry for a virtual page. -/
def entryAt (p i j : Nat) : BitVec 32 := if s.pdir p i ≠ 0 then s.getPtblEntry p i j else 0

/-- Page tables are allocated, and each is the table of one directory entry; other directory
entries point to kernel memory. -/
structure Tables : Prop where
  ok : s.mem.table.Ok
  kernel : ∀ p i, ¬ UserSlot p i → entryPage (s.pdir p i) < userLoPi
  once : OwnedOnce s.tables (s.mem.table.taken : Set Nat)

end Vmm

section
variable {s s' : Vmm} {p i j q k l page : Nat} {va e perm : BitVec 32}

theorem Vmm.tables_eq_some (hu : UserSlot p i) (hne : s.pdir p i ≠ 0) :
    s.tables (p, i) = some (entryPage (s.pdir p i)) := if_pos ⟨hu, hne⟩

namespace Vmm.Tables

section
variable (h : s.Tables) (hu : UserSlot p i) (hne : s.pdir p i ≠ 0)
include h hu hne

/-- The page table of a directory entry is allocated. -/
theorem mem_taken : entryPage (s.pdir p i) ∈ s.mem.table.taken :=
  h.once.used _ _ (tables_eq_some hu hne)

/-- Another directory entry points to another page. -/
theorem entryPage_ne (hx : (q, k) ≠ (p, i)) : entryPage (s.pdir q k) ≠ entryPage (s.pdir p i) := by
  intro heq
  have hlo := (h.ok.range_of_taken (h.mem_taken hu hne)).1
  by_cases hk : UserSlot q k
  · by_cases h0 : s.pdir q k = 0
    · rw [h0, show entryPage 0 = 0 from rfl] at heq
      rw [← heq] at hlo
      exact absurd hlo (by decide)
    · refine hx (h.once.once _ _ _ (tables_eq_some hk h0) ?_)
      rw [heq]
      exact tables_eq_some hu hne
  · have := h.kernel q k hk
    omega

/-- So an assignment to an entry of a table changes this entry only. -/
theorem getPtblEntry_putWord : (s.putWord (entryPage (s.pdir p i)) j e).getPtblEntry q k l =
      if q = p ∧ k = i ∧ l = j then e else s.getPtblEntry q k l := by
  simp only [getPtblEntry, putWord]
  by_cases hx : (q, k) = (p, i)
  · obtain ⟨rfl, rfl⟩ := Prod.mk.inj hx
    rw [update_self]
    by_cases hl : l = j
    · rw [hl, update_self, if_pos ⟨rfl, rfl, rfl⟩]
    · rw [update_of_ne hl, if_neg fun hc => hl hc.2.2]
  · rw [update_of_ne (h.entryPage_ne hu hne hx), if_neg fun hc => hx (by rw [hc.1, hc.2.1])]

end

theorem putWord (h : s.Tables) : (s.putWord page j e).Tables := ⟨h.ok, h.kernel, h.once⟩

/-- More pages are allocated. -/
theorem setMem (h : s.Tables) {m : Mem} (hok : m.table.Ok)
    (hsub : s.mem.table.taken ⊆ m.table.taken) : Tables { s with mem := m } :=
  ⟨hok, h.kernel, h.once.mono (Finset.coe_subset.2 hsub)⟩

theorem entryAt_putWord (h : s.Tables) (hu : UserSlot p i) (hne : s.pdir p i ≠ 0) :
    (s.putWord (entryPage (s.pdir p i)) j e).entryAt q k l =
      if q = p ∧ k = i ∧ l = j then e else s.entryAt q k l := by
  simp only [entryAt, h.getPtblEntry_putWord hu hne]
  by_cases hx : q = p ∧ k = i ∧ l = j
  · obtain ⟨rfl, rfl, rfl⟩ := hx
    simp only [and_self, if_true]
    exact if_pos hne
  · simp only [if_neg hx]
    rfl

end Vmm.Tables

/-! ## New tables -/

/-- The state after `alloc_ptbl` has made the page a table of the directory entry `i`. -/
structure Vmm.NewTable (s s' : Vmm) (p i page : Nat) : Prop where
  ok : s'.mem.table.Ok
  fresh : page ∉ s.mem.table.taken
  taken : s'.mem.table.taken = insert page s.mem.table.taken
  pdir : s'.pdir = update s.pdir p (update (s.pdir p) i (pageEntry page ptPermPTU))
  clear : ∀ j < 1024, s'.word page j = 0
  word : ∀ page' ≠ page, s'.word page' = s.word page'

/-- The loop that clears a table. -/
theorem Vmm.clearPtbl_spec (s : Vmm) (p i n : Nat) :
    (s.clearPtbl p i n).mem = s.mem ∧ (s.clearPtbl p i n).pdir = s.pdir ∧
      (∀ j < n, (s.clearPtbl p i n).word (entryPage (s.pdir p i)) j = 0) ∧
      ∀ page ≠ entryPage (s.pdir p i), (s.clearPtbl p i n).word page = s.word page := by
  induction n with
  | zero => exact ⟨rfl, rfl, fun _ hj => absurd hj (by omega), fun _ _ => rfl⟩
  | succ n ih =>
    obtain ⟨hmem, hpdir, hclear, hword⟩ := ih
    simp only [clearPtbl, rmvPtblEntry, putWord, hpdir]
    refine ⟨hmem, trivial, fun j hj => ?_, fun page hne => ?_⟩
    · rw [update_self]
      rcases eq_or_ne j n with rfl | hjn
      · rw [update_self]
      · rw [update_of_ne hjn]
        exact hclear j (by omega)
    · rw [update_of_ne hne]
      exact hword page hne

theorem lt_of_lt_userHiPi (h : page < userHiPi) : page < 2 ^ 20 := h.trans (by decide)

theorem entryPage_table (h : page < 2 ^ 20) : entryPage (pageEntry page ptPermPTU) = page :=
  entryPage_pageEntry h (by decide)

/-- `alloc_ptbl` gets no page and changes no entry, or makes a new table. -/
theorem Vmm.Tables.allocPtbl_cases (h : s.Tables) (p : Nat) (va : BitVec 32) :
    ((s.allocPtbl p va).2 = 0 ∧ ∃ m : Mem, m.table.Ok ∧ m.table.taken = s.mem.table.taken ∧
        (s.allocPtbl p va).1 = { s with mem := m }) ∨
      ((s.allocPtbl p va).2 ≠ 0 ∧
        s.NewTable (s.allocPtbl p va).1 p (pdeAddr va) (s.allocPtbl p va).2) := by
  have hg := Mem.grants_containerAlloc h.ok p
  rw [Vmm.allocPtbl]
  dsimp only
  split
  case isTrue h0 => exact .inl ⟨rfl, _, hg.ok, hg.fail h0, rfl⟩
  case isFalse h0 =>
    obtain ⟨hfresh, htaken⟩ := hg.page h0
    have hlt : (s.mem.containerAlloc p).2 < 2 ^ 20 := by
      refine lt_of_lt_userHiPi (hg.ok.range_of_taken ?_).2
      rw [htaken]
      exact Finset.mem_insert_self _ _
    refine .inr ⟨h0, ?_⟩
    have htable : entryPage ((setPdirEntry { s with mem := (s.mem.containerAlloc p).1 }
      p (pdeAddr va)
        (s.mem.containerAlloc p).2).pdir p (pdeAddr va)) = (s.mem.containerAlloc p).2 := by
      simp only [setPdirEntry, putPdir, update_self]
      exact entryPage_table hlt
    obtain ⟨hmem, hpdir, hclear, hword⟩ := clearPtbl_spec
      (setPdirEntry { s with mem := (s.mem.containerAlloc p).1 } p (pdeAddr va)
        (s.mem.containerAlloc p).2) p (pdeAddr va) 1024
    rw [htable] at hclear hword
    generalize Vmm.clearPtbl _ _ _ _ = t at hmem hpdir hclear hword
    exact {
      ok := hmem ▸ hg.ok
      fresh := hfresh
      taken := hmem ▸ htaken
      pdir := hpdir
      clear := hclear
      word := hword }

namespace Vmm.NewTable

section
variable (h : s.NewTable s' p i page)
include h

theorem range : userLoPi ≤ page ∧ page < 2 ^ 20 := by
  obtain ⟨hlo, hhi⟩ := h.ok.range_of_taken (h.taken ▸ Finset.mem_insert_self _ _)
  exact ⟨hlo, lt_of_lt_userHiPi hhi⟩

theorem pdir_self : s'.pdir p i = pageEntry page ptPermPTU := by
  rw [h.pdir, update_self, update_self]

theorem pdir_of_ne (hne : ¬ (q = p ∧ k = i)) : s'.pdir q k = s.pdir q k := by
  rw [h.pdir]
  rcases eq_or_ne q p with rfl | hq
  · rw [update_self, update_of_ne fun hk => hne ⟨rfl, hk⟩]
  · rw [update_of_ne hq]

theorem entryPage_self : entryPage (s'.pdir p i) = page := by
  rw [h.pdir_self, entryPage_table h.range.2]

theorem pdir_ne_zero : s'.pdir p i ≠ 0 := by
  have hlo := h.range.1
  rw [h.pdir_self]
  refine pageEntry_ne_zero h.range.2 (fun h0 => ?_) (by decide)
  rw [h0] at hlo
  exact absurd hlo (by decide)

/-- The new table is not the table of another entry. -/
theorem entryPage_ne (hs : s.Tables) : entryPage (s.pdir q k) ≠ page := by
  intro heq
  by_cases hk : UserSlot q k
  · by_cases h0 : s.pdir q k = 0
    · have hlo := h.range.1
      rw [← heq, h0] at hlo
      exact absurd hlo (by decide)
    · exact h.fresh (heq ▸ hs.mem_taken hk h0)
  · have := hs.kernel q k hk
    have := h.range.1
    omega

/-- The entries of other tables are as before. -/
theorem getPtblEntry_of_ne (hs : s.Tables) (hne : ¬ (q = p ∧ k = i)) :
    s'.getPtblEntry q k l = s.getPtblEntry q k l := by
  rw [getPtblEntry, h.pdir_of_ne hne, h.word _ (h.entryPage_ne hs), getPtblEntry]

theorem getPtblEntry_self (hl : l < 1024) : s'.getPtblEntry p i l = 0 := by
  rw [getPtblEntry, h.entryPage_self, h.clear l hl]

/-- A new table changes no entry of a virtual page. -/
theorem entryAt (hs : s.Tables) (h0 : s.pdir p i = 0) (hl : l < 1024) :
    s'.entryAt q k l = s.entryAt q k l := by
  by_cases hx : q = p ∧ k = i
  · obtain ⟨rfl, rfl⟩ := hx
    rw [Vmm.entryAt, Vmm.entryAt, h.getPtblEntry_self hl, if_neg (not_not.2 h0), ite_self]
  · rw [Vmm.entryAt, Vmm.entryAt, h.pdir_of_ne hx, h.getPtblEntry_of_ne hs hx]

theorem tables_eq (hu : UserSlot p i) : s'.tables = update s.tables (p, i) (some page) := by
  funext ⟨q, k⟩
  by_cases hx : q = p ∧ k = i
  · obtain ⟨rfl, rfl⟩ := hx
    rw [update_self, tables_eq_some hu h.pdir_ne_zero, h.entryPage_self]
  · have hne : (q, k) ≠ (p, i) := fun he => hx (Prod.mk.inj he)
    rw [update_of_ne hne]
    simp only [Vmm.tables, h.pdir_of_ne hx]

theorem tables (hs : s.Tables) (hu : UserSlot p i) : s'.Tables := by
  refine ⟨h.ok, fun q k hk => ?_, ?_⟩
  · have hx : ¬ (q = p ∧ k = i) := by
      rintro ⟨rfl, rfl⟩
      exact hk hu
    rw [h.pdir_of_ne hx]
    exact hs.kernel q k hk
  · rw [h.tables_eq hu, h.taken, Finset.coe_insert]
    exact hs.once.take fun hm => h.fresh (Finset.mem_coe.1 hm)

end

end Vmm.NewTable

/-! ## Mapping -/

theorem entryPage_lt (e : BitVec 32) : entryPage e < 2 ^ 20 := by
  rw [entryPage_eq]
  have := e.isLt
  omega

/-- The state in which `map_page` sets the entry: there is a page table, which is new or was there
before. -/
structure Vmm.Mapped (s s₁ : Vmm) (p i : Nat) : Prop where
  tables : s₁.Tables
  pdir : s₁.pdir p i ≠ 0
  cases : s₁ = s ∨ ∃ page, s.pdir p i = 0 ∧ s.NewTable s₁ p i page

/-- `map_page` fails without a change of an entry, or sets the entry. -/
theorem Vmm.Tables.mapPage_cases (h : s.Tables) (hu : UserAddr p va) (page : Nat)
    (perm : BitVec 32) :
    ((s.mapPage p va page perm).2 = magicNumber ∧
        ∃ m : Mem, m.table.Ok ∧ m.table.taken = s.mem.table.taken ∧
          (s.mapPage p va page perm).1 = { s with mem := m }) ∨
      ((s.mapPage p va page perm).2 ≠ magicNumber ∧ ∃ s₁, s.Mapped s₁ p (pdeAddr va) ∧
        (s.mapPage p va page perm).1 =
          s₁.putWord (entryPage (s₁.pdir p (pdeAddr va))) (pteAddr va) (pageEntry page perm)) := by
  have hmagic : ∀ n, n < 2 ^ 20 → n ≠ magicNumber := fun n hn => by
    rw [magicNumber]
    omega
  rw [Vmm.mapPage]
  dsimp only
  split
  case isTrue h0 =>
    rcases h.allocPtbl_cases p va with ⟨hr, m, hok, htaken, heq⟩ | ⟨hr, hnew⟩
    · rw [if_pos hr, heq]
      exact .inl ⟨rfl, m, hok, htaken, rfl⟩
    · rw [if_neg hr]
      refine .inr ⟨hmagic _ hnew.range.2, _, ⟨hnew.tables h hu.slot, hnew.pdir_ne_zero, ?_⟩, rfl⟩
      exact .inr ⟨_, h0, hnew⟩
  case isFalse h0 =>
    exact .inr ⟨hmagic _ (entryPage_lt _), s, ⟨h, h0, .inl rfl⟩, rfl⟩

theorem Vmm.Mapped.entryAt {s₁ : Vmm} (h : s.Mapped s₁ p i) (hs : s.Tables) (hl : l < 1024) :
    s₁.entryAt q k l = s.entryAt q k l := by
  rcases h.cases with rfl | ⟨page, h0, hnew⟩
  · rfl
  · exact hnew.entryAt hs h0 hl

theorem Vmm.Tables.mapPage (h : s.Tables) (hu : UserAddr p va) :
    (s.mapPage p va page perm).1.Tables := by
  rcases h.mapPage_cases hu page perm with ⟨-, m, hok, htaken, heq⟩ | ⟨-, s₁, hm, heq⟩
  · rw [heq]
    exact h.setMem hok htaken.ge
  · rw [heq]
    exact hm.tables.putWord

/-- What `map_page` does to the entries. -/
theorem Vmm.Tables.entryAt_mapPage (h : s.Tables) (hu : UserAddr p va) (hl : l < 1024) :
    (s.mapPage p va page perm).1.entryAt q k l =
      if (s.mapPage p va page perm).2 ≠ magicNumber ∧ q = p ∧ k = pdeAddr va ∧ l = pteAddr va then
        pageEntry page perm
      else s.entryAt q k l := by
  rcases h.mapPage_cases hu page perm with ⟨hr, m, -, -, heq⟩ | ⟨hr, s₁, hm, heq⟩
  · rw [heq, if_neg fun hc => hc.1 hr]
    rfl
  · rw [heq, hm.tables.entryAt_putWord hu.slot hm.pdir, hm.entryAt h hl]
    simp only [hr, ne_eq, not_false_eq_true, true_and]

/-- What `unmap_page` does to the entries. -/
theorem Vmm.Tables.entryAt_unmapPage (h : s.Tables) (hu : UserAddr p va) :
    (s.unmapPage p va).1.entryAt q k l =
      if q = p ∧ k = pdeAddr va ∧ l = pteAddr va then 0 else s.entryAt q k l := by
  have hself : s.entryAt p (pdeAddr va) (pteAddr va) = s.getPtblEntryByVa p va := rfl
  rw [Vmm.unmapPage]
  dsimp only
  split
  case isTrue hne =>
    have h0 : s.getPdirEntry p (pdeAddr va) ≠ 0 := fun h0 => hne (if_neg (not_not.2 h0))
    rw [Vmm.rmvPtblEntryByVa, if_pos h0]
    exact h.entryAt_putWord hu.slot h0
  case isFalse he =>
    rw [not_not, ← hself] at he
    split
    case isTrue hx =>
      obtain ⟨rfl, rfl, rfl⟩ := hx
      exact he
    case isFalse => rfl

theorem Vmm.Tables.unmapPage (h : s.Tables) : (s.unmapPage p va).1.Tables := by
  rw [Vmm.unmapPage]
  dsimp only
  split
  · rw [Vmm.rmvPtblEntryByVa]
    split
    · exact h.putWord
    · exact h
  · exact h

/-- `alloc_page` gets no page, or maps one that was not allocated. -/
theorem Vmm.Tables.allocPage_cases (h : s.Tables) (p : Nat) (va perm : BitVec 32) :
    ∃ m : Mem, AllocTable.Grants s.mem.table m.table (s.mem.containerAlloc p).2 ∧
      (s.allocPage p va perm =
        if (s.mem.containerAlloc p).2 ≠ 0 then
          Vmm.mapPage { s with mem := m } p va (s.mem.containerAlloc p).2 perm
        else ({ s with mem := m }, magicNumber)) :=
  ⟨_, Mem.grants_containerAlloc h.ok p, rfl⟩

theorem AllocTable.Grants.subset {t t' : AllocTable} (h : t.Grants t' page) :
    t.taken ⊆ t'.taken := by
  by_cases h0 : page = 0
  · exact (h.fail h0).ge
  · rw [(h.page h0).2]
    exact Finset.subset_insert _ _

theorem Vmm.Tables.allocPage (h : s.Tables) (hu : UserAddr p va) :
    (s.allocPage p va perm).1.Tables := by
  obtain ⟨m, hg, heq⟩ := h.allocPage_cases p va perm
  have hm : Vmm.Tables { s with mem := m } := h.setMem hg.ok hg.subset
  rw [heq]
  split
  · exact hm.mapPage hu
  · exact hm

theorem Vmm.Tables.allocPtbl (h : s.Tables) (hu : UserAddr p va) :
    (s.allocPtbl p va).1.Tables := by
  rcases h.allocPtbl_cases p va with ⟨-, m, hok, htaken, heq⟩ | ⟨-, hnew⟩
  · rw [heq]
    exact h.setMem hok htaken.ge
  · exact hnew.tables h hu.slot

/-- The table after `free_ptbl`. -/
theorem Vmm.taken_freePtbl (p : Nat) (va : BitVec 32) (h : s.mem.table.Ok) :
    (s.freePtbl p va).mem.table.Ok ∧ (s.freePtbl p va).mem.table.taken =
      s.mem.table.taken.erase (entryPage (s.pdir p (pdeAddr va))) := by
  have htable : (s.freePtbl p va).mem.table = _ :=
    Mem.table_containerFree s.mem p (entryPage (s.pdir p (pdeAddr va)))
  rw [htable]
  split
  case isTrue => exact ⟨h.pfree, h.taken_free⟩
  case isFalse hn =>
    rw [Finset.erase_eq_of_notMem fun hm => hn (h.mem_taken.1 hm)]
    exact ⟨h, rfl⟩

theorem Vmm.pdir_freePtbl_of_ne (hx : ¬ (q = p ∧ k = pdeAddr va)) :
    (s.freePtbl p va).pdir q k = s.pdir q k := by
  simp only [freePtbl, rmvPdirEntry, putPdir]
  rcases eq_or_ne q p with rfl | hq
  · rw [update_self, update_of_ne fun hk => hx ⟨rfl, hk⟩]
  · rw [update_of_ne hq]

theorem Vmm.word_freePtbl : (s.freePtbl p va).word = s.word := rfl

theorem Vmm.pdir_freePtbl_self : (s.freePtbl p va).pdir p (pdeAddr va) = 0 := by
  simp only [freePtbl, rmvPdirEntry, putPdir, update_self]

theorem Vmm.Tables.freePtbl (h : s.Tables) (hu : UserAddr p va) : (s.freePtbl p va).Tables := by
  obtain ⟨hok, htaken⟩ := taken_freePtbl p va h.ok
  refine ⟨hok, fun q k hk => ?_, h.once.weaken fun x b hb => ?_⟩
  · rw [pdir_freePtbl_of_ne fun hx => hk (by rw [hx.1, hx.2]; exact hu.slot)]
    exact h.kernel q k hk
  · obtain ⟨q, k⟩ := x
    by_cases hx : q = p ∧ k = pdeAddr va
    · obtain ⟨rfl, rfl⟩ := hx
      simp [tables, pdir_freePtbl_self] at hb
    · have hsame : (s.freePtbl p va).tables (q, k) = s.tables (q, k) := by
        simp only [tables, pdir_freePtbl_of_ne hx]
      rw [hsame] at hb
      refine ⟨hb, ?_⟩
      rw [htaken, Finset.coe_erase]
      refine ⟨h.once.used _ _ hb, fun he => hx ?_⟩
      by_cases h0 : s.pdir p (pdeAddr va) = 0
      · -- page 0 is not allocated
        have hm := (h.ok.range_of_taken (Finset.mem_coe.1 (h.once.used _ _ hb))).1
        rw [Set.mem_singleton_iff, h0] at he
        rw [he] at hm
        exact absurd hm (by decide)
      · rw [Set.mem_singleton_iff] at he
        exact Prod.mk.inj (h.once.once _ _ _ hb (he ▸ tables_eq_some hu.slot h0))

end

/-! ## Runs -/

/-- A call of a virtual memory function. -/
inductive VmmAct where
  | allocMemQuota (id : Nat) (quota : BitVec 32)
  | allocPage (p : Nat) (va perm : BitVec 32)
  | mapPage (p : Nat) (va : BitVec 32) (page : Nat) (perm : BitVec 32)
  | allocPtbl (p : Nat) (va : BitVec 32)
  | unmapPage (p : Nat) (va : BitVec 32)
  | freePtbl (p : Nat) (va : BitVec 32)

/-- Calls for user addresses of processes other than 0, from the state after paging is initialised,
in which the identity tables are kernel memory. `alloc_ptbl` is called for a directory entry
without a table. Containers may be split in any way. -/
def vmmMachine : Machine Vmm VmmAct where
  Init s := ∃ mmap idPage word, idPage + 1024 ≤ userLoPi ∧ s = Vmm.init mmap idPage word
  step s
    | .allocMemQuota id quota => some { s with mem := (s.mem.allocMemQuota id quota).1 }
    | .allocPage p va perm => if UserAddr p va then some (s.allocPage p va perm).1 else none
    | .mapPage p va page perm => if UserAddr p va then some (s.mapPage p va page perm).1 else none
    | .allocPtbl p va =>
      if UserAddr p va ∧ s.getPdirEntryByVa p va = 0 then some (s.allocPtbl p va).1 else none
    | .unmapPage p va => if UserAddr p va then some (s.unmapPage p va).1 else none
    | .freePtbl p va => if UserAddr p va then some (s.freePtbl p va) else none

section
variable {mmap : List MmapEntry} {idPage : Nat} {word : Nat → Nat → BitVec 32}

/-- At boot, processes have no page tables for user addresses. -/
theorem Vmm.pdir_init {p i : Nat} (hu : UserSlot p i) :
    (Vmm.init mmap idPage word).pdir p i = 0 := by
  obtain ⟨h0, -, hlo, hhi⟩ := hu
  refine if_neg fun hc => ?_
  omega

theorem Vmm.refs_init : (Vmm.init mmap idPage word).refs = fun _ => none := by
  funext r
  cases r with
  | table p i => exact if_neg fun hc => hc.2 (pdir_init hc.1)
  | data p i j => exact if_neg fun hc => hc.2.1 (pdir_init hc.1)

theorem Vmm.tables_init (hid : idPage + 1024 ≤ userLoPi) : (Vmm.init mmap idPage word).Tables := by
  have hnone : (Vmm.init mmap idPage word).tables = fun _ => none :=
    funext fun x => congrFun refs_init (.table x.1 x.2)
  refine ⟨AllocTable.ok_pmemInit mmap, fun p i _ => ?_, ?_⟩
  · simp only [Vmm.init]
    split
    case isTrue hi =>
      rw [entryPage_table (by rw [userLoPi] at hid; omega)]
      omega
    case isFalse => decide
  · rw [hnone]
    exact .empty

end

/-- In every reachable state the page tables are in order. -/
theorem tables_of_reachable {s : Vmm} (h : vmmMachine.Reachable s) : s.Tables := by
  refine h.invariant ?_ fun s a t hs ht => ?_
  · rintro s ⟨mmap, idPage, word, hid, rfl⟩
    exact Vmm.tables_init hid
  · cases a with
    | allocMemQuota id quota =>
      simp only [vmmMachine, Option.some.injEq] at ht
      subst ht
      exact hs.setMem hs.ok subset_rfl
    | allocPage p va perm =>
      obtain ⟨hu, rfl⟩ := of_guard ht
      exact hs.allocPage hu
    | mapPage p va page perm =>
      obtain ⟨hu, rfl⟩ := of_guard ht
      exact hs.mapPage hu
    | allocPtbl p va =>
      obtain ⟨⟨hu, -⟩, rfl⟩ := of_guard ht
      exact hs.allocPtbl hu
    | unmapPage p va =>
      obtain ⟨-, rfl⟩ := of_guard ht
      exact hs.unmapPage
    | freePtbl p va =>
      obtain ⟨hu, rfl⟩ := of_guard ht
      exact hs.freePtbl hu

/-- `get_ptbl_entry_by_va` is a map from virtual pages to entries: a successful `map_page` sets the
entry of its virtual page, `unmap_page` returns this entry and clears it, and neither of them, nor
a `map_page` that fails, changes the entry of another virtual page. -/
theorem page_table_is_a_map {s : Vmm} (h : vmmMachine.Reachable s) {p : Nat} {va : BitVec 32}
    (hu : UserAddr p va) :
    (∀ page perm q va', (s.mapPage p va page perm).1.getPtblEntryByVa q va' =
      if (s.mapPage p va page perm).2 ≠ magicNumber ∧ q = p ∧ va'.toNat / 4096 =
      va.toNat / 4096 then
        (BitVec.ofNat 32 page <<< 12) ||| perm
      else s.getPtblEntryByVa q va') ∧
    (s.unmapPage p va).2 = s.getPtblEntryByVa p va ∧
    ∀ q va', (s.unmapPage p va).1.getPtblEntryByVa q va' =
      if q = p ∧ va'.toNat / 4096 = va.toNat / 4096 then 0 else s.getPtblEntryByVa q va' := by
  have hs := tables_of_reachable h
  refine ⟨fun page perm q va' => ?_, rfl, fun q va' => ?_⟩
  · simp only [← addr_eq_iff]
    exact hs.entryAt_mapPage hu (pteAddr_lt va')
  · simp only [← addr_eq_iff]
    exact hs.entryAt_unmapPage hu

/-! ## Isolation -/

/-- Each page that a process refers to is allocated, and is referred to once. -/
structure Vmm.Isolated (s : Vmm) : Prop extends s.Tables where
  refs : OwnedOnce s.refs (s.mem.table.taken : Set Nat)

section
variable {s s' : Vmm} {p i j page : Nat} {va e perm : BitVec 32}

/-- The reference from an entry of a page table. -/
def dataRef (e : BitVec 32) : Option Nat := if Present e then some (entryPage e) else none

theorem Vmm.refs_data (hu : UserSlot p i) (hne : s.pdir p i ≠ 0) (hj : j < 1024) :
    s.refs (.data p i j) = dataRef (s.getPtblEntry p i j) := by
  simp only [Vmm.refs, dataRef, hu, hne, hj, ne_eq, not_false_eq_true, true_and]

/-- An assignment to an entry of a page table changes the reference from this entry only. -/
theorem Vmm.Tables.refs_putWord (h : s.Tables) (hu : UserSlot p i) (hne : s.pdir p i ≠ 0)
    (hj : j < 1024) :
    (s.putWord (entryPage (s.pdir p i)) j e).refs =
      update s.refs (.data p i j) (dataRef e) := by
  funext r
  cases r with
  | table q k =>
    rw [update_of_ne (by simp)]
    rfl
  | data q k l =>
    by_cases hx : q = p ∧ k = i ∧ l = j
    · obtain ⟨rfl, rfl, rfl⟩ := hx
      have hdata := Vmm.refs_data (s := s.putWord (entryPage (s.pdir q k)) l e) hu hne hj
      rw [update_self, hdata, h.getPtblEntry_putWord hu hne, if_pos ⟨rfl, rfl, rfl⟩]
    · rw [update_of_ne (by simpa using hx)]
      simp only [Vmm.refs, h.getPtblEntry_putWord hu hne, if_neg hx]
      rfl

/-- A new table is referred to from its directory entry, and refers to nothing. -/
theorem Vmm.NewTable.refs (h : s.NewTable s' p i page) (hs : s.Tables) (hu : UserSlot p i)
    (h0 : s.pdir p i = 0) : s'.refs = update s.refs (.table p i) (some page) := by
  funext r
  cases r with
  | table q k =>
    have heq : s'.refs (.table q k) = update s.tables (p, i) (some page) (q, k) := by
      rw [← h.tables_eq hu]
      rfl
    rw [heq]
    by_cases hx : q = p ∧ k = i
    · obtain ⟨rfl, rfl⟩ := hx
      rw [update_self, update_self]
    · rw [update_of_ne (by simpa using hx), update_of_ne (by simpa using hx)]
      rfl
  | data q k l =>
    rw [update_of_ne (by simp)]
    by_cases hx : q = p ∧ k = i
    · obtain ⟨rfl, rfl⟩ := hx
      have hnew : ¬ (UserSlot q k ∧ s'.pdir q k ≠ 0 ∧ l < 1024 ∧
          Present (s'.getPtblEntry q k l)) := by
        rintro ⟨-, -, hl, hp⟩
        rw [h.getPtblEntry_self hl] at hp
        exact hp rfl
      rw [Vmm.refs, Vmm.refs, if_neg hnew, if_neg fun hc => hc.2.1 h0]
    · simp only [Vmm.refs, h.pdir_of_ne hx, h.getPtblEntry_of_ne hs hx]

namespace Vmm.Isolated

section
variable (h : s.Isolated)
include h

theorem setMem {m : Mem} (hok : m.table.Ok) (hsub : s.mem.table.taken ⊆ m.table.taken) :
    Isolated { s with mem := m } :=
  ⟨h.toTables.setMem hok hsub, h.refs.mono (Finset.coe_subset.2 hsub)⟩

theorem newTable (hnew : s.NewTable s' p i page) (hu : UserSlot p i) (h0 : s.pdir p i = 0) :
    s'.Isolated := by
  refine ⟨hnew.tables h.toTables hu, ?_⟩
  rw [hnew.refs h.toTables hu h0, hnew.taken, Finset.coe_insert]
  exact h.refs.take fun hm => hnew.fresh (Finset.mem_coe.1 hm)

/-- An entry is set to refer to an allocated page that is not referred to, or to nothing. -/
theorem putWord (hu : UserSlot p i) (hne : s.pdir p i ≠ 0) (hj : j < 1024)
    (he : ∀ b, dataRef e = some b → b ∈ s.mem.table.taken ∧ ∀ r, s.refs r ≠ some b) :
    (s.putWord (entryPage (s.pdir p i)) j e).Isolated := by
  refine ⟨h.toTables.putWord, ?_⟩
  rw [h.toTables.refs_putWord hu hne hj]
  cases hd : dataRef e with
  | none => exact h.refs.clear
  | some b =>
    obtain ⟨hb, hnew⟩ := he b hd
    exact h.refs.assign (Finset.mem_coe.2 hb) fun r _ => hnew r

/-- `map_page` of an allocated page that is not referred to. -/
theorem mapPage (hu : UserAddr p va) (hpage : page ∈ s.mem.table.taken)
    (hnew : ∀ r, s.refs r ≠ some page) (hperm : perm.toNat < 4096) :
    (s.mapPage p va page perm).1.Isolated := by
  have hlt : page < 2 ^ 20 := lt_of_lt_userHiPi (h.ok.range_of_taken hpage).2
  rcases h.toTables.mapPage_cases hu page perm with ⟨-, m, hok, htaken, heq⟩ | ⟨-, s₁, hm, heq⟩
  · rw [heq]
    exact h.setMem hok htaken.ge
  · -- the page is still not referred to if there is a new table
    have hs₁ : s₁.Isolated ∧ page ∈ s₁.mem.table.taken ∧ ∀ r, s₁.refs r ≠ some page := by
      rcases hm.cases with rfl | ⟨table, h0, htable⟩
      · exact ⟨h, hpage, hnew⟩
      · refine ⟨h.newTable htable hu.slot h0, ?_, fun r => ?_⟩
        · rw [htable.taken]
          exact Finset.mem_insert_of_mem hpage
        · rw [htable.refs h.toTables hu.slot h0]
          rcases eq_or_ne r (.table p (pdeAddr va)) with rfl | hr
          · rw [update_self]
            rintro ⟨⟩
            exact htable.fresh hpage
          · rw [update_of_ne hr]
            exact hnew r
    obtain ⟨hi, hpage, hnew⟩ := hs₁
    rw [heq]
    refine hi.putWord hu.slot hm.pdir (pteAddr_lt va) fun b hb => ?_
    rw [dataRef, entryPage_pageEntry hlt hperm] at hb
    split at hb
    · cases hb
      exact ⟨hpage, hnew⟩
    · cases hb

theorem allocPage (hu : UserAddr p va) (hperm : perm.toNat < 4096) :
    (s.allocPage p va perm).1.Isolated := by
  obtain ⟨m, hg, heq⟩ := h.toTables.allocPage_cases p va perm
  have hm : Vmm.Isolated { s with mem := m } := h.setMem hg.ok hg.subset
  rw [heq]
  split
  case isTrue h0 =>
    obtain ⟨hfresh, htaken⟩ := hg.page h0
    refine hm.mapPage hu ?_ (fun r hr => hfresh ?_) hperm
    · rw [htaken]
      exact Finset.mem_insert_self _ _
    · exact Finset.mem_coe.1 (h.refs.used r _ hr)
  case isFalse => exact hm

theorem allocPtbl (hu : UserAddr p va) (h0 : s.getPdirEntryByVa p va = 0) :
    (s.allocPtbl p va).1.Isolated := by
  rcases h.toTables.allocPtbl_cases p va with ⟨-, m, hok, htaken, heq⟩ | ⟨-, hnew⟩
  · rw [heq]
    exact h.setMem hok htaken.ge
  · exact h.newTable hnew hu.slot h0

theorem unmapPage (hu : UserAddr p va) : (s.unmapPage p va).1.Isolated := by
  rw [Vmm.unmapPage]
  dsimp only
  split
  case isFalse => exact h
  case isTrue =>
    rw [Vmm.rmvPtblEntryByVa]
    split
    case isFalse => exact h
    case isTrue hne => exact h.putWord hu.slot hne (pteAddr_lt va) fun b hb => nomatch hb

/-- No other place refers to the table of a directory entry. -/
theorem ne_table (hu : UserSlot p i) {r : PageRef} (hr : r ≠ .table p i) {b : Nat}
    (hb : s.refs r = some b) :
    b ≠ entryPage (s.pdir p i) := by
  rintro rfl
  by_cases h0 : s.pdir p i = 0
  · -- page 0 is not allocated
    have hlo := (h.ok.range_of_taken (Finset.mem_coe.1 (h.refs.used r _ hb))).1
    rw [h0] at hlo
    exact absurd hlo (by decide)
  · exact hr (h.refs.once r _ _ hb (tables_eq_some hu h0))

theorem freePtbl (hu : UserAddr p va) : (s.freePtbl p va).Isolated := by
  obtain ⟨-, htaken⟩ := taken_freePtbl p va h.ok
  refine ⟨h.toTables.freePtbl hu, h.refs.weaken fun r b hb => ?_⟩
  have hr : s.refs r = some b ∧ r ≠ .table p (pdeAddr va) := by
    cases r with
    | table q k =>
      by_cases hx : q = p ∧ k = pdeAddr va
      · obtain ⟨rfl, rfl⟩ := hx
        simp [Vmm.refs, Vmm.tables, pdir_freePtbl_self] at hb
      · refine ⟨?_, by simpa using hx⟩
        simpa only [Vmm.refs, Vmm.tables, pdir_freePtbl_of_ne hx] using hb
    | data q k l =>
      by_cases hx : q = p ∧ k = pdeAddr va
      · obtain ⟨rfl, rfl⟩ := hx
        simp [Vmm.refs, pdir_freePtbl_self] at hb
      · have hsame : (s.freePtbl p va).getPtblEntry q k l = s.getPtblEntry q k l := by
          rw [getPtblEntry, pdir_freePtbl_of_ne hx, word_freePtbl, getPtblEntry]
        refine ⟨?_, by simp⟩
        simpa only [Vmm.refs, hsame, pdir_freePtbl_of_ne hx] using hb
  refine ⟨hr.1, ?_⟩
  rw [htaken, Finset.coe_erase]
  exact ⟨h.refs.used r b hr.1, h.ne_table hu.slot hr.2 hr.1⟩

end

end Vmm.Isolated

end

/-- Pages are mapped by `alloc_page` only. -/
def VmmAct.NoMap : VmmAct → Prop
  | .mapPage .. => False
  | _ => True

/-- Pages are mapped by `alloc_page` only, and with permissions of 12 bits. -/
def VmmAct.PermBits : VmmAct → Prop
  | .allocPage _ _ perm => perm.toNat < 4096
  | .mapPage .. => False
  | _ => True

/-- Runs without stray permission bits keep pages apart. -/
theorem isolated_of_runs {s₀ s : Vmm} (hinit : vmmMachine.Init s₀)
    (h : vmmMachine.Runs (fun _ a => a.PermBits) s₀ s) : s.Isolated := by
  obtain ⟨mmap, idPage, word, hid, rfl⟩ := hinit
  have hrefs : OwnedOnce (Vmm.init mmap idPage word).refs
      ((Vmm.init mmap idPage word).mem.table.taken : Set Nat) := by
    rw [Vmm.refs_init]
    exact .empty
  refine h.invariant (fun s a t hs hok ht => ?_) ⟨Vmm.tables_init hid, hrefs⟩
  · cases a with
    | allocMemQuota id quota =>
      simp only [vmmMachine, Option.some.injEq] at ht
      subst ht
      exact hs.setMem hs.ok subset_rfl
    | allocPage p va perm =>
      obtain ⟨hu, rfl⟩ := of_guard ht
      exact hs.allocPage hu hok
    | mapPage p va page perm => exact hok.elim
    | allocPtbl p va =>
      obtain ⟨⟨hu, h0⟩, rfl⟩ := of_guard ht
      exact hs.allocPtbl hu h0
    | unmapPage p va =>
      obtain ⟨hu, rfl⟩ := of_guard ht
      exact hs.unmapPage hu
    | freePtbl p va =>
      obtain ⟨hu, rfl⟩ := of_guard ht
      exact hs.freePtbl hu

/-- Each physical page that is referred to from the user part of a page structure, as a page table
or as a present page, is an allocated normal page, and is referred to from one place only. -/
theorem memory_isolation {s₀ s : Vmm} (hinit : vmmMachine.Init s₀)
    (h : vmmMachine.Runs (fun _ a => a.PermBits) s₀ s) :
    (∀ r page, s.refs r = some page →
      s.mem.table.atIsNorm page ∧ s.mem.table.atIsAllocated page) ∧
    ∀ r r' page, s.refs r = some page → s.refs r' = some page → r = r' := by
  have hs := isolated_of_runs hinit h
  refine ⟨fun r page hr => ?_, hs.refs.once⟩
  have ha := hs.ok.mem_taken.1 (Finset.mem_coe.1 (hs.refs.used r page hr))
  exact ⟨hs.ok.alloc page ha, ha⟩

/-- A machine with four pages on which process 1 may use two. -/
def fourVmm : Vmm :=
  let s := Vmm.init fourPages 0 fun _ _ => 0
  { s with mem := (s.mem.allocMemQuota 0 2).1 }

/-- Process 1 allocates a page at the start of its user addresses. -/
def fourVmmPage (perm : BitVec 32) : Vmm := (fourVmm.allocPage 1 0x40000000 perm).1

theorem fourVmm_init : vmmMachine.Init (Vmm.init fourPages 0 fun _ _ => 0) :=
  ⟨fourPages, 0, _, by decide, rfl⟩

theorem fourVmmPage_runs {ok : VmmAct → Prop} {perm : BitVec 32} (h₁ : ok (.allocMemQuota 0 2))
    (h₂ : ok (.allocPage 1 0x40000000 perm)) :
    vmmMachine.Runs (fun _ a => ok a) (Vmm.init fourPages 0 fun _ _ => 0) (fourVmmPage perm) := by
  have hu : UserAddr 1 0x40000000 := by decide
  have hsplit : vmmMachine.Runs (fun _ a => ok a) (Vmm.init fourPages 0 fun _ _ => 0) fourVmm :=
    .tail (a := .allocMemQuota 0 2) .refl h₁ rfl
  exact .tail (a := .allocPage 1 0x40000000 perm) hsplit h₂
    (by simp only [vmmMachine, if_pos hu, fourVmmPage])

/-- The page and the page table of process 1 are allocated, and are different pages. -/
theorem memory_isolation_page :
    vmmMachine.Runs (fun _ a => a.PermBits) (Vmm.init fourPages 0 fun _ _ => 0) (fourVmmPage 7) ∧
    (fourVmmPage 7).refs (.data 1 256 0) = some 0x40000 ∧
    (fourVmmPage 7).refs (.table 1 256) = some 0x40001 ∧
    (fourVmmPage 7).mem.table.atIsAllocated 0x40000 := by
  have hrun : vmmMachine.Runs (fun _ a => a.PermBits) (Vmm.init fourPages 0 fun _ _ => 0)
      (fourVmmPage 7) := fourVmmPage_runs trivial (by decide : (7 : BitVec 32).toNat < 4096)
  have hpage : (fourVmmPage 7).refs (.data 1 256 0) = some 0x40000 := by decide +kernel
  refine ⟨hrun, hpage, by decide +kernel, ?_⟩
  exact ((memory_isolation fourVmm_init hrun).1 _ _ hpage).2

/-- A permission with more than 12 bits changes the page of the entry: process 1 gets its own page
table as a page. -/
theorem table_mapped_as_data :
    vmmMachine.Runs (fun _ a => a.NoMap) (Vmm.init fourPages 0 fun _ _ => 0) (fourVmmPage 0x1007) ∧
    (fourVmmPage 0x1007).refs (.table 1 256) = some 0x40001 ∧
    (fourVmmPage 0x1007).refs (.data 1 256 0) = some 0x40001 :=
  ⟨fourVmmPage_runs trivial trivial, by decide +kernel, by decide +kernel⟩

/-- Process 1 maps the page 5, and other processes see no change. -/
theorem page_table_is_a_map_five :
    vmmMachine.Reachable fourVmm ∧
    (fourVmm.mapPage 1 0x40000000 5 7).1.getPtblEntryByVa 1 0x40000FFF = 0x5007 ∧
    (fourVmm.mapPage 1 0x40000000 5 7).1.getPtblEntryByVa 2 0x40000FFF =
      fourVmm.getPtblEntryByVa 2 0x40000FFF := by
  have hr : vmmMachine.Reachable fourVmm :=
    .step (a := .allocMemQuota 0 2) (.init fourVmm_init) rfl
  have hmap := (page_table_is_a_map hr (by decide : UserAddr 1 0x40000000)).1 5 7
  have hok : (fourVmm.mapPage 1 0x40000000 5 7).2 ≠ magicNumber := by decide +kernel
  refine ⟨hr, ?_, ?_⟩
  · rw [hmap, if_pos ⟨hok, rfl, by decide⟩]
    decide
  · rw [hmap, if_neg fun hc => absurd hc.2.1 (by decide)]

end MCertikos
