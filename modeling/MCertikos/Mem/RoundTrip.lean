import MCertikos.Mem.UserCopy
import MCertikos.Mem.UserMemory

/-!
# Copies to user memory and back

`pt_copyout` and `pt_copyin` on the memory that processes see. A copy is ready (`Vmm.Ready`) if its
range has user addresses and the process can have the pages and page tables that are missing there.
Then each turn finds or maps the page at its address, and the copy is still ready for what is left
(`Ready.turn`); so `pt_copyout` writes its bytes to user memory (`Ready.copyout`), and `pt_copyin`
reads the bytes that are there (`Ready.copyin`).

In `Copy` the bytes of the kernel are apart from physical memory. Here `pt_copyout_from` and
`pt_copyin_to` have their buffers in it, as the kernel does, which runs with physical addresses.
For buffers outside of the pool of user pages it is the same (`Ready.copyoutFrom_eq`,
`Ready.copyinTo`).
-/

namespace MCertikos

open Memory

/-- The virtual pages of a range of addresses. -/
def vpages (a len : Nat) : Finset Nat := (Finset.range len).image fun i => (a + i) / pageSize

/-- The first address of a virtual page. -/
def pageAddr (v : Nat) : BitVec 32 := BitVec.ofNat 32 (v * pageSize)

theorem mem_vpages {a len v : Nat} : v ∈ vpages a len ↔ ∃ i < len, (a + i) / pageSize = v := by
  simp only [vpages, Finset.mem_image, Finset.mem_range]

theorem page_div {v j : Nat} (hj : j < pageSize) : (v * pageSize + j) / pageSize = v := by
  rw [pageSize] at *
  omega

/-- What is left of a range has no new pages. -/
theorem vpages_drop (a len n : Nat) : vpages (a + n) (len - n) ⊆ vpages a len := by
  intro v hv
  obtain ⟨i, hi, rfl⟩ := mem_vpages.1 hv
  exact mem_vpages.2 ⟨n + i, by omega, by rw [Nat.add_assoc]⟩

/-- The pages of a range are the first one and those behind its end. -/
theorem vpages_eq_insert {a len : Nat} (hlen : 0 < len) :
    vpages a len = insert (a / pageSize)
      (vpages (a + min len (pageSize - a % pageSize))
        (len - min len (pageSize - a % pageSize))) := by
  have hsplit := Nat.div_add_mod a pageSize
  have hmod := Nat.mod_lt a (by decide : 0 < pageSize)
  refine Finset.Subset.antisymm (fun v hv => ?_) (Finset.insert_subset ?_ (vpages_drop _ _ _))
  · obtain ⟨i, hi, rfl⟩ := mem_vpages.1 hv
    rcases Nat.lt_or_ge i (min len (pageSize - a % pageSize)) with hlt | hge
    · refine Finset.mem_insert.2 (.inl ?_)
      rw [pageSize] at *
      omega
    · refine Finset.mem_insert_of_mem
        (mem_vpages.2 ⟨i - min len (pageSize - a % pageSize), by omega, ?_⟩)
      rw [Nat.add_assoc, Nat.add_sub_cancel' hge]
  · exact mem_vpages.2 ⟨0, hlen, rfl⟩

theorem mul_lt_of_mem_vpages {a len v : Nat} (h : v ∈ vpages a len) (hlt : a + len ≤ 2 ^ 32) :
    v * pageSize < 2 ^ 32 := by
  obtain ⟨i, hi, rfl⟩ := mem_vpages.1 h
  rw [pageSize]
  omega

namespace Vmm

variable {s s' : Vmm} {p q len n : Nat} {va uva kva perm : BitVec 32} {l data : List (BitVec 8)}
  {W W' : Finset Nat}

theorem toNat_pageAddr (va : BitVec 32) :
    (pageAddr (va.toNat / pageSize)).toNat / pageSize = va.toNat / pageSize := by
  have hlt := va.isLt
  rw [pageAddr, BitVec.toNat_ofNat, pageSize]
  omega

/-- The entry for an address is the entry for its virtual page. -/
theorem entry_pageAddr (s : Vmm) (p : Nat) (va : BitVec 32) :
    s.getPtblEntryByVa p (pageAddr (va.toNat / pageSize)) = s.getPtblEntryByVa p va ∧
      pdeAddr (pageAddr (va.toNat / pageSize)) = pdeAddr va := by
  have hsame := addr_eq_iff.2 (toNat_pageAddr va)
  rw [getPtblEntryByVa, hsame.1, hsame.2]
  exact ⟨rfl, rfl⟩

/-! ## The pages that a copy needs -/

/-- The pages to allocate so that the virtual pages are present: one for each that is not, and one
for each page table that is not there. -/
def pagesFor (s : Vmm) (p : Nat) (W : Finset Nat) : Nat :=
  (W.filter fun v => ¬ Present (s.getPtblEntryByVa p (pageAddr v))).card +
    ((W.image fun v => pdeAddr (pageAddr v)).filter fun k => s.pdir p k = 0).card

theorem pagesFor_mono (hW : W' ⊆ W)
    (hentry : ∀ v ∈ W', Present (s.getPtblEntryByVa p (pageAddr v)) →
      Present (s'.getPtblEntryByVa p (pageAddr v)))
    (hpdir : ∀ k, s.pdir p k ≠ 0 → s'.pdir p k ≠ 0) : s'.pagesFor p W' ≤ s.pagesFor p W := by
  refine Nat.add_le_add (Finset.card_le_card fun v hv => ?_) (Finset.card_le_card fun k hk => ?_)
  · obtain ⟨hv, hp⟩ := Finset.mem_filter.1 hv
    exact Finset.mem_filter.2 ⟨hW hv, fun hp' => hp (hentry v hv hp')⟩
  · obtain ⟨hk, h0⟩ := Finset.mem_filter.1 hk
    exact Finset.mem_filter.2 ⟨Finset.image_subset_image hW hk, by_contra fun hne =>
      hpdir k hne h0⟩

theorem pagesFor_congr
    (hentry : ∀ v ∈ W, s'.getPtblEntryByVa p (pageAddr v) = s.getPtblEntryByVa p (pageAddr v))
    (hpdir : s'.pdir = s.pdir) : s'.pagesFor p W = s.pagesFor p W :=
  le_antisymm (pagesFor_mono subset_rfl (fun v hv hp => hentry v hv ▸ hp) fun _ hne => hpdir ▸ hne)
    (pagesFor_mono subset_rfl (fun v hv hp => hentry v hv ▸ hp) fun _ hne => hpdir ▸ hne)

/-- What `alloc_page` takes is among the pages that are needed. -/
theorem pagesNeeded_le (hv : va.toNat / pageSize ∈ W)
    (habsent : ¬ Present (s.getPtblEntryByVa p va)) :
    s.pagesNeeded p va ≤ s.pagesFor p W := by
  obtain ⟨hentry, hpde⟩ := entry_pageAddr s p va
  have hpage : 0 < (W.filter fun v => ¬ Present (s.getPtblEntryByVa p (pageAddr v))).card :=
    Finset.card_pos.2 ⟨_, Finset.mem_filter.2 ⟨hv, hentry ▸ habsent⟩⟩
  rw [pagesNeeded, pagesFor]
  split
  case isFalse => omega
  case isTrue h0 =>
    have htable : 0 < ((W.image fun v => pdeAddr (pageAddr v)).filter fun k =>
        s.pdir p k = 0).card :=
      Finset.card_pos.2 ⟨_, Finset.mem_filter.2 ⟨Finset.mem_image.2 ⟨_, hv, hpde⟩, h0⟩⟩
    omega

section
variable (h : s.Isolated) (hu : UserAddr p va) (hv : va.toNat / pageSize ∈ W)
  (habsent : ¬ Present (s.getPtblEntryByVa p va)) (hperm : Present perm)
include h hu hv habsent hperm

/-- A successful `alloc_page` takes its pages from those that are needed. -/
theorem Isolated.pagesFor_allocPage (hr : (s.allocPage p va perm).2 ≠ magicNumber) :
    (s.allocPage p va perm).1.pagesFor p W + s.pagesNeeded p va ≤ s.pagesFor p W := by
  obtain ⟨hentry, hpde⟩ := entry_pageAddr s p va
  obtain ⟨hnew, hold⟩ := h.toTables.pdir_allocPage hu hr
  have hpages : ((W.filter fun v =>
    ¬ Present ((s.allocPage p va perm).1.getPtblEntryByVa p (pageAddr v)))).card + 1 ≤
      (W.filter fun v => ¬ Present (s.getPtblEntryByVa p (pageAddr v))).card := by
    have hmem : va.toNat / pageSize ∈ W.filter fun v =>
        ¬ Present (s.getPtblEntryByVa p (pageAddr v)) :=
      Finset.mem_filter.2 ⟨hv, by rwa [hentry]⟩
    rw [← Finset.card_erase_add_one hmem]
    refine Nat.add_le_add_right (Finset.card_le_card fun v hv' => ?_) 1
    obtain ⟨hvW, hp⟩ := Finset.mem_filter.1 hv'
    rw [h.toTables.entry_allocPage hu] at hp
    have hne : v ≠ va.toNat / pageSize := by
      rintro rfl
      rw [if_pos ⟨hr, rfl, toNat_pageAddr va⟩] at hp
      exact hp (present_of_perm hperm _)
    refine Finset.mem_erase.2 ⟨hne, Finset.mem_filter.2 ⟨hvW, fun hp' => hp ?_⟩⟩
    split
    · exact present_of_perm hperm _
    · exact hp'
  have hsub : ((W.image fun v => pdeAddr (pageAddr v)).filter fun k =>
    (s.allocPage p va perm).1.pdir p k = 0) ⊆
      ((W.image fun v => pdeAddr (pageAddr v)).filter fun k => s.pdir p k = 0).erase
      (pdeAddr va) := by
    intro k hk
    obtain ⟨hkW, h0⟩ := Finset.mem_filter.1 hk
    have hne : k ≠ pdeAddr va := by
      rintro rfl
      exact hnew h0
    rw [hold p k fun hc => hne hc.2] at h0
    exact Finset.mem_erase.2 ⟨hne, Finset.mem_filter.2 ⟨hkW, h0⟩⟩
  have hcard := Finset.card_le_card hsub
  by_cases h0 : s.getPdirEntryByVa p va = 0
  · have hmem : pdeAddr va ∈ (W.image fun v => pdeAddr (pageAddr v)).filter fun k =>
        s.pdir p k = 0 :=
      Finset.mem_filter.2 ⟨Finset.mem_image.2 ⟨_, hv, hpde⟩, h0⟩
    rw [Finset.card_erase_of_mem hmem] at hcard
    have hpos := Finset.card_pos.2 ⟨_, hmem⟩
    rw [pagesNeeded, if_pos h0, pagesFor, pagesFor]
    omega
  · have herase :=
      Finset.card_erase_le (s := (W.image fun v => pdeAddr (pageAddr v)).filter fun k =>
        s.pdir p k = 0) (a := pdeAddr va)
    rw [pagesNeeded, if_neg h0, pagesFor, pagesFor]
    omega

/-- A page of `W` is allocated, and the process can still have the others. -/
theorem Isolated.affords_allocPage (haffords : s.mem.Affords p (s.pagesFor p W)) :
    (s.allocPage p va perm).2 ≠ magicNumber ∧
      (s.allocPage p va perm).1.mem.Affords p ((s.allocPage p va perm).1.pagesFor p W) := by
  have hsupplied : s.Supplied p va := haffords.mono (pagesNeeded_le hv habsent)
  have hr : (s.allocPage p va perm).2 ≠ magicNumber := hsupplied.allocPage h.ok
  have hless := h.pagesFor_allocPage hu hv habsent hperm hr
  exact ⟨hr, ((affords_allocPage_iff h.ok).1 (haffords.mono (Nat.add_comm _ _ ▸ hless))).2⟩

end

/-- What is needed for the page of the call and for `W` is what the call takes and what is needed
for `W` after it. -/
theorem Isolated.pagesFor_insert_le (h : s.Isolated) (hu : UserAddr p va)
    (hW : ∀ v ∈ W, v * pageSize < 2 ^ 32)
    (hr : (s.allocPage p va perm).2 ≠ magicNumber) :
    s.pagesFor p (insert (va.toNat / pageSize) W) ≤
      s.pagesNeeded p va + (s.allocPage p va perm).1.pagesFor p W := by
  have hold := (h.toTables.pdir_allocPage hu hr).2
  -- another page, or another page table, is there after the call only if it was before
  have hpages : (insert (va.toNat / pageSize) W).filter
        (fun v => ¬ Present (s.getPtblEntryByVa p (pageAddr v))) ⊆
      insert (va.toNat / pageSize)
        (W.filter fun v =>
          ¬ Present ((s.allocPage p va perm).1.getPtblEntryByVa p (pageAddr v))) := by
    intro v hv
    obtain ⟨hv, hp⟩ := Finset.mem_filter.1 hv
    rcases Finset.mem_insert.1 hv with rfl | hv
    · exact Finset.mem_insert_self _ _
    refine Finset.mem_insert.2 (or_iff_not_imp_left.2 fun hne => Finset.mem_filter.2 ⟨hv, ?_⟩)
    rwa [h.toTables.entry_allocPage hu, if_neg]
    rintro ⟨-, -, heq⟩
    rw [pageAddr, BitVec.toNat_ofNat, Nat.mod_eq_of_lt (hW v hv), Nat.mul_div_cancel _ (by decide)]
      at heq
    exact hne heq
  have htables : ((insert (va.toNat / pageSize) W).image fun v => pdeAddr (pageAddr v)).filter
        (fun k => s.pdir p k = 0) ⊆
      (if s.getPdirEntryByVa p va = 0 then {pdeAddr va} else ∅) ∪
      ((W.image fun v => pdeAddr (pageAddr v)).filter
        fun k => (s.allocPage p va perm).1.pdir p k = 0) := by
    intro k hk
    obtain ⟨hk, h0⟩ := Finset.mem_filter.1 hk
    rw [Finset.image_insert, (entry_pageAddr s p va).2] at hk
    by_cases hpde : k = pdeAddr va
    · have hzero : s.getPdirEntryByVa p va = 0 := by
        rw [hpde] at h0
        exact h0
      rw [if_pos hzero]
      exact Finset.mem_union_left _ (Finset.mem_singleton.2 hpde)
    · refine Finset.mem_union_right _ (Finset.mem_filter.2
        ⟨Finset.mem_of_mem_insert_of_ne hk hpde, ?_⟩)
      rwa [hold p k fun hc => hpde hc.2]
  have hcard := Nat.add_le_add ((Finset.card_le_card hpages).trans (Finset.card_insert_le _ _))
    ((Finset.card_le_card htables).trans (Finset.card_union_le _ _))
  rw [pagesFor, pagesFor, pagesNeeded]
  split at hcard
  case isTrue h0 =>
    rw [if_pos h0]
    rw [Finset.card_singleton] at hcard
    omega
  case isFalse h0 =>
    rw [if_neg h0]
    rw [Finset.card_empty] at hcard
    omega

/-- A present page needs nothing. -/
theorem pagesFor_insert_of_present (hp : Present (s.getPtblEntryByVa p va)) :
    s.pagesFor p (insert (va.toNat / pageSize) W) ≤ s.pagesFor p W := by
  obtain ⟨hentry, hpde⟩ := entry_pageAddr s p va
  have hne : s.pdir p (pdeAddr va) ≠ 0 := by
    intro h0
    have hzero : s.getPtblEntryByVa p va = 0 := if_neg (not_not.2 h0)
    rw [hzero] at hp
    exact hp rfl
  refine Nat.add_le_add (Finset.card_le_card fun v hv => ?_) (Finset.card_le_card fun k hk => ?_)
  · obtain ⟨hv, habsent⟩ := Finset.mem_filter.1 hv
    refine Finset.mem_filter.2 ⟨Finset.mem_of_mem_insert_of_ne hv ?_, habsent⟩
    rintro rfl
    exact habsent (hentry.symm ▸ hp)
  · obtain ⟨hk, h0⟩ := Finset.mem_filter.1 hk
    rw [Finset.image_insert, hpde] at hk
    refine Finset.mem_filter.2 ⟨Finset.mem_of_mem_insert_of_ne hk ?_, h0⟩
    rintro rfl
    exact hne h0

section
variable (h : s.Isolated) (hu : UserAddr p uva)
include h hu

/-- What a turn does before it accesses memory. -/
theorem Isolated.widens_copyTurn (len : Nat) :
    s.Widens (s.copyTurn p uva len).vmm p {uva.toNat / pageSize} ∧
      Memory.Extends s.user (s.copyTurn p uva len).vmm.user := by
  by_cases hold : Present (s.getPtblEntryByVa p uva)
  · rw [(copyTurn_of_present hold).1]
    exact ⟨.refl h, .refl _⟩
  · rw [(copyTurn_of_absent hold).1]
    exact h.user_allocPage hu (by decide : (7 : BitVec 32).toNat < 4096) hold

omit h in
/-- The turn accesses the page that the process has at the address, if the entry that it uses is
present. -/
theorem userPa_copyTurn (hp : Present (s.turnEntry p uva)) (len : Nat) :
    (s.copyTurn p uva len).vmm.userPa (p, uva) = some (s.copyTurn p uva len).pa := by
  have hentry : (s.copyTurn p uva len).vmm.getPtblEntryByVa p uva = s.turnEntry p uva :=
    entry_copyTurn
  rw [userPa_eq hu (hentry ▸ hp), hentry]
  exact congrArg some (BitVec.eq_of_toNat_eq (by rw [toNat_copyAddr, pa_copyTurn]))

/-- If the process can have what is needed for `W`, then the page of a turn in `W` is present, and
the process can still have the rest. -/
theorem Isolated.affords_copyTurn (hv : uva.toNat / pageSize ∈ W)
    (haffords : s.mem.Affords p (s.pagesFor p W)) :
    Present (s.turnEntry p uva) ∧
      (s.copyTurn p uva len).vmm.mem.Affords p ((s.copyTurn p uva len).vmm.pagesFor p W) := by
  by_cases hp : Present (s.getPtblEntryByVa p uva)
  · rw [(copyTurn_of_present hp).1, turnEntry, if_pos hp]
    exact ⟨hp, haffords⟩
  · rw [(copyTurn_of_absent hp).1, turnEntry, if_neg hp]
    exact (h.affords_allocPage hu hv hp (by decide : Present 7) haffords).imp_left
      allocPage_present

/-- The page of a turn is present and the process can have what is needed for `W` after it exactly
if it can have what is needed for both. -/
theorem Isolated.affords_copyTurn_iff (hW : ∀ v ∈ W, v * pageSize < 2 ^ 32) :
    s.mem.Affords p (s.pagesFor p (insert (uva.toNat / pageSize) W)) ↔
      Present (s.turnEntry p uva) ∧
        (s.copyTurn p uva len).vmm.mem.Affords p ((s.copyTurn p uva len).vmm.pagesFor p W) := by
  constructor
  · intro haffords
    obtain ⟨hp, hrest⟩ :=
      @Isolated.affords_copyTurn _ _ len _ _ h hu (Finset.mem_insert_self _ _) haffords
    refine ⟨hp, ?_⟩
    exact hrest.mono (pagesFor_mono (Finset.subset_insert _ _) (fun _ _ hp => hp) fun _ hne => hne)
  · rintro ⟨hpresent, haffords⟩
    by_cases hp : Present (s.getPtblEntryByVa p uva)
    · rw [(copyTurn_of_present hp).1] at haffords
      exact haffords.mono (pagesFor_insert_of_present hp)
    · rw [(copyTurn_of_absent hp).1] at haffords
      have hr : (s.allocPage p uva 7).2 ≠ magicNumber := by
        have hsupplied := ((present_turnEntry_iff h.ok).1 hpresent).resolve_left hp
        exact hsupplied.allocPage h.ok
      exact ((affords_allocPage_iff h.ok).2 ⟨hr, haffords⟩).mono
        (h.pagesFor_insert_le hu hW hr)

end

/-- A copy of `len` bytes at user addresses, for which the process can have the pages that are
missing there and elsewhere in `W`. -/
structure Ready (s : Vmm) (p : Nat) (W : Finset Nat) (uva : BitVec 32) (len : Nat) : Prop where
  isolated : s.Isolated
  proc : p ≠ 0 ∧ p < numIds
  lo : vmUserLo ≤ uva.toNat
  hi : uva.toNat + len ≤ vmUserHi
  pages : vpages uva.toNat len ⊆ W
  user : ∀ v ∈ W, UserAddr p (pageAddr v)
  affords : s.mem.Affords p (s.pagesFor p W)

theorem userAddr_vpages (hproc : p ≠ 0 ∧ p < numIds) (hlo : vmUserLo ≤ uva.toNat)
    (hhi : uva.toNat + len ≤ vmUserHi) {v : Nat} (hv : v ∈ vpages uva.toNat len) :
    UserAddr p (pageAddr v) := by
  obtain ⟨i, hi, rfl⟩ := mem_vpages.1 hv
  refine ⟨hproc.1, hproc.2, ?_⟩
  rw [vmUserLo, vmUserHi] at *
  rw [pageAddr, BitVec.toNat_ofNat, pageSize]
  omega

/-- Nothing is needed for pages that are present. -/
theorem pagesFor_eq_zero (h : ∀ v ∈ W, Present (s.getPtblEntryByVa p (pageAddr v))) :
    s.pagesFor p W = 0 := by
  rw [pagesFor, Nat.add_eq_zero_iff, Finset.card_eq_zero, Finset.card_eq_zero,
    Finset.filter_eq_empty_iff, Finset.filter_eq_empty_iff]
  refine ⟨fun v hv => not_not.2 (h v hv), fun k hk h0 => ?_⟩
  obtain ⟨v, hv, rfl⟩ := Finset.mem_image.1 hk
  refine h v hv ?_
  have hzero : s.getPtblEntryByVa p (pageAddr v) = 0 := if_neg (not_not.2 h0)
  rw [hzero]
  rfl

/-- A copy at addresses that are mapped is ready. -/
theorem Isolated.ready (h : s.Isolated) (hproc : p ≠ 0 ∧ p < numIds) (hlo : vmUserLo ≤ uva.toNat)
    (hhi : uva.toNat + len ≤ vmUserHi)
    (hmapped : ∀ i < len, s.user (p, uva + BitVec.ofNat 32 i) ≠ none) :
    s.Ready p (vpages uva.toNat len) uva len := by
  refine ⟨h, hproc, hlo, hhi, subset_rfl, fun v hv => userAddr_vpages hproc hlo hhi hv, ?_⟩
  rw [pagesFor_eq_zero fun v hv => ?_]
  · exact Mem.affords_zero h.ok
  obtain ⟨i, hi, rfl⟩ := mem_vpages.1 hv
  have hnat : (uva + BitVec.ofNat 32 i).toNat = uva.toNat + i := toNat_add_ofNat_user hhi hi.le
  obtain ⟨b, hb⟩ := Option.ne_none_iff_exists'.1 (hmapped i hi)
  obtain ⟨pa, hpa, -⟩ := Option.map_eq_some_iff.1 hb
  rw [← hnat, (entry_pageAddr s p _).1]
  exact (userPa_eq_some.1 hpa).2.1

namespace Ready

section
variable (h : s.Ready p W uva len)
include h

theorem toNat_add {i : Nat} (hi : i ≤ len) : (uva + BitVec.ofNat 32 i).toNat = uva.toNat + i :=
  toNat_add_ofNat_user h.hi hi

theorem userAddr {i : Nat} (hi : i < len) : UserAddr p (uva + BitVec.ofNat 32 i) := by
  have hlo := h.lo
  have hhi := h.hi
  refine ⟨h.proc.1, h.proc.2, ?_⟩
  rw [h.toNat_add hi.le]
  omega

/-- A copy is still ready in a state with the same pages. -/
theorem congr (hisolated : s'.Isolated) (hmem : s'.mem = s.mem) (hpdir : s'.pdir = s.pdir)
    (hentry : ∀ q va, UserAddr q va → s'.getPtblEntryByVa q va = s.getPtblEntryByVa q va) :
    s'.Ready p W uva len := by
  refine ⟨hisolated, h.proc, h.lo, h.hi, h.pages, h.user,
    hmem ▸ h.affords.mono (pagesFor_mono subset_rfl (fun v hv hp => ?_) fun k hne => hpdir ▸ hne)⟩
  rwa [hentry p _ (h.user v hv)]

/-- A part of the copy is done, and the process can still have the missing pages. -/
theorem rest (hn : n ≤ len) (hisolated : s'.Isolated)
    (haffords : s'.mem.Affords p (s'.pagesFor p W)) :
    s'.Ready p W (uva + BitVec.ofNat 32 n) (len - n) := by
  have hlo := h.lo
  have hhi := h.hi
  refine ⟨hisolated, h.proc, ?_, ?_, ?_, h.user, haffords⟩ <;> rw [h.toNat_add hn]
  · omega
  · omega
  · exact (vpages_drop _ _ _).trans h.pages

/-- The page at the address is present when memory is accessed, and the rest of the copy is still
ready. -/
theorem turn (hlen : 0 < len) : s.Widens (s.copyTurn p uva len).vmm p (vpages uva.toNat len) ∧
      Memory.Extends s.user (s.copyTurn p uva len).vmm.user ∧
      (s.copyTurn p uva len).vmm.userPa (p, uva) = some (s.copyTurn p uva len).pa ∧
      (s.copyTurn p uva len).vmm.Ready p W (uva + BitVec.ofNat 32 (s.copyTurn p uva len).size)
        (len - (s.copyTurn p uva len).size) := by
  have hu : UserAddr p uva := by
    have := h.userAddr hlen
    rwa [BitVec.add_zero] at this
  have hv : uva.toNat / pageSize ∈ vpages uva.toNat len := mem_vpages.2 ⟨0, hlen, rfl⟩
  obtain ⟨hpresent, hafter⟩ := h.isolated.affords_copyTurn hu (h.pages hv) h.affords
  obtain ⟨hwidens, hextends⟩ := h.isolated.widens_copyTurn hu len
  refine ⟨hwidens.mono ?_, hextends, userPa_copyTurn hu hpresent len,
    h.rest size_le hwidens.isolated hafter⟩
  exact Set.singleton_subset_iff.2 (Finset.mem_coe.2 hv)

/-- The turn writes its bytes to user memory. -/
theorem putBytes (hlen : 0 < len) (hl : l.length = (s.copyTurn p uva len).size) :
    s.Widens ((s.copyTurn p uva len).vmm.putBytes (s.copyTurn p uva len).pa l)
    p (vpages uva.toNat len) ∧
      Memory.Extends (write nextAddr s.user (p, uva) (l.map some))
        ((s.copyTurn p uva len).vmm.putBytes (s.copyTurn p uva len).pa l).user ∧
      ((s.copyTurn p uva len).vmm.putBytes (s.copyTurn p uva len).pa l).Ready p W
        (uva + BitVec.ofNat 32 (s.copyTurn p uva len).size)
        (len - (s.copyTurn p uva len).size) := by
  obtain ⟨hwidens, hextends, hpa, hready⟩ := h.turn hlen
  have hmod := Nat.mod_lt uva.toNat (by decide : 0 < pageSize)
  have hsize : uva.toNat % pageSize + l.length ≤ pageSize := by
    rw [hl, size_copyTurn]
    omega
  obtain ⟨hwrite, huser⟩ := hwidens.isolated.user_putBytes hpa hsize
  obtain ⟨hmem, hpdir, -⟩ := @putBytes_frame (s.copyTurn p uva len).vmm (s.copyTurn p uva len).pa l
  refine ⟨hwidens.trans (hwrite.mono (Set.empty_subset _)), ?_, ?_⟩
  · rw [huser]
    exact hextends.write nextAddr (p, uva) _
  · exact hready.congr hwrite.isolated hmem hpdir fun q va hu =>
      hwrite.entry q va hu (.inr fun hc => hc.2)

end

end Ready

/-! ## The loops -/

/-- `pt_copyout` writes its bytes to user memory. -/
theorem Ready.copyoutLoop : ∀ (fuel : Nat) {s : Vmm} {uva : BitVec 32} {data : List (BitVec 8)},
    data.length ≤ fuel → s.Ready p W uva data.length →
    s.Widens (copyoutLoop p fuel s uva data).1 p (vpages uva.toNat data.length) ∧
      Memory.Extends (write nextAddr s.user (p, uva) (data.map some))
        (copyoutLoop p fuel s uva data).1.user ∧
      (copyoutLoop p fuel s uva data).1.mem.Affords p
        ((copyoutLoop p fuel s uva data).1.pagesFor p W)
  | 0, s, uva, data, hfuel, h => by
    rw [List.length_eq_zero_iff.1 (Nat.le_zero.1 hfuel)]
    exact ⟨.refl h.isolated, .refl _, h.affords⟩
  | fuel + 1, s, uva, data, hfuel, h => by
    rw [Vmm.copyoutLoop]
    by_cases h0 : data.length = 0
    · rw [if_pos h0, List.length_eq_zero_iff.1 h0]
      exact ⟨.refl h.isolated, .refl _, h.affords⟩
    rw [if_neg h0]
    dsimp only
    have hpos : 0 < data.length := Nat.pos_of_ne_zero h0
    have hsize : 0 < (s.copyTurn p uva data.length).size := size_pos hpos
    have hle : (s.copyTurn p uva data.length).size ≤ data.length := size_le
    have hlen : (data.take (s.copyTurn p uva data.length).size).length =
        (s.copyTurn p uva data.length).size := by
      rw [List.length_take, min_eq_left hle]
    obtain ⟨hwidens, hextends, hready⟩ := h.putBytes hpos hlen
    have hdrop : (data.drop (s.copyTurn p uva data.length).size).length =
        data.length - (s.copyTurn p uva data.length).size := List.length_drop
    obtain ⟨hrest, huser, haffords⟩ :=
      @Ready.copyoutLoop fuel _ _ (data.drop (s.copyTurn p uva data.length).size) (by omega)
        (hdrop.symm ▸ hready)
    refine ⟨hwidens.trans (hrest.mono ?_), ?_, haffords⟩
    · rw [hdrop, h.toNat_add hle]
      exact Finset.coe_subset.2 (vpages_drop _ _ _)
    · -- the range is written in two parts
      conv_lhs => rw [← List.take_append_drop (s.copyTurn p uva data.length).size data]
      rw [List.map_append, write_append, List.length_map, hlen, iterate_nextAddr]
      exact (hextends.write nextAddr _ _).trans huser

theorem getElem?_bytesAt (s : Vmm) (pa : BitVec 32) (n : Nat) {i : Nat} :
    (s.bytesAt pa n)[i]? = if i < n then some (s.byteAt (pa + BitVec.ofNat 32 i)) else none := by
  rw [bytesAt, List.getElem?_map]
  split
  case isTrue hi => rw [List.getElem?_range hi, Option.map_some]
  case isFalse hi =>
    rw [List.getElem?_eq_none (by rwa [List.length_range, ← Nat.not_lt]), Option.map_none]

/-- `pt_copyin` reads the bytes of user memory. -/
theorem Ready.copyinLoop : ∀ (fuel : Nat) {s : Vmm} {uva : BitVec 32} {len : Nat},
    len ≤ fuel → s.Ready p W uva len →
    s.Widens (copyinLoop p fuel s uva len).1 p (vpages uva.toNat len) ∧
      Memory.Extends s.user (copyinLoop p fuel s uva len).1.user ∧
      ∀ i b, (copyinLoop p fuel s uva len).2.1[i]? = some b →
        (copyinLoop p fuel s uva len).1.user (p, uva + BitVec.ofNat 32 i) = some b
  | 0, s, uva, len, hfuel, h => by
    rw [Nat.le_zero.1 hfuel]
    exact ⟨.refl h.isolated, .refl _, fun _ _ hb => by cases hb⟩
  | fuel + 1, s, uva, len, hfuel, h => by
    rw [Vmm.copyinLoop]
    by_cases h0 : len = 0
    · rw [if_pos h0]
      exact ⟨.refl h.isolated, .refl _, fun _ _ hb => by cases hb⟩
    rw [if_neg h0]
    dsimp only
    have hsize : 0 < (s.copyTurn p uva len).size := size_pos (Nat.pos_of_ne_zero h0)
    have hle : (s.copyTurn p uva len).size ≤ len := size_le
    obtain ⟨hwidens, hextends, hpa, hready⟩ := h.turn (Nat.pos_of_ne_zero h0)
    obtain ⟨hrest, huser, hbytes⟩ := Ready.copyinLoop fuel (by omega) hready
    refine ⟨hwidens.trans (hrest.mono ?_), hextends.trans huser, fun i b hb => ?_⟩
    · rw [h.toNat_add hle]
      exact Finset.coe_subset.2 (vpages_drop _ _ _)
    have hlen : ((s.copyTurn p uva len).vmm.bytesAt (s.copyTurn p uva len).pa
      (s.copyTurn p uva len).size).length =
        (s.copyTurn p uva len).size := by rw [bytesAt, List.length_map, List.length_range]
    rcases Nat.lt_or_ge i (s.copyTurn p uva len).size with hi | hi
    · -- a byte of the first turn, which the others do not change
      rw [List.getElem?_append_left (by omega), getElem?_bytesAt, if_pos hi] at hb
      cases hb
      obtain ⟨hu, hp, -⟩ := userPa_eq_some.1 hpa
      have hmod := Nat.mod_lt uva.toNat (by decide : 0 < pageSize)
      have hoff : uva.toNat % pageSize + i < pageSize := by
        rw [size_copyTurn] at hi
        omega
      exact huser _ _ (Option.map_eq_some_iff.2 ⟨_, userPa_add hu hp hpa hoff, rfl⟩)
    · rw [List.getElem?_append_right (by omega), hlen] at hb
      have hi' := hbytes _ b hb
      rwa [BitVec.add_assoc, ← BitVec.ofNat_add, Nat.add_sub_cancel' hi] at hi'

/-! ## Buffers in physical memory -/

/-- The loop of `pt_copyout`, which copies from physical memory. -/
def copyoutFromLoop (p : Nat) : (fuel : Nat) → Vmm → (kva uva : BitVec 32) →
    (len : Nat) → Vmm × Nat
  | 0, s, _, _, _ => (s, 0)
  | fuel + 1, s, kva, uva, len =>
    if len = 0 then (s, 0)
    else
      let t := s.copyTurn p uva len
      let r := copyoutFromLoop p fuel (t.vmm.putBytes t.pa (t.vmm.bytesAt kva t.size))
        (kva + BitVec.ofNat 32 t.size) (uva + BitVec.ofNat 32 t.size) (len - t.size)
      (r.1, t.size + r.2)

/-- `pt_copyout` with its buffer in physical memory, and the number of bytes that it has copied.
Reference: `pt_copyout` (`kern/lib/pmap.c:53`). -/
def ptCopyoutFrom (s : Vmm) (p : Nat) (kva uva len : BitVec 32) : Vmm × Nat :=
  if copyTest uva kva len then copyoutFromLoop p len.toNat s kva uva len.toNat else (s, 0)

/-- The loop of `pt_copyin`, which copies to physical memory. -/
def copyinToLoop (p : Nat) : (fuel : Nat) → Vmm → (uva kva : BitVec 32) → (len : Nat) → Vmm × Nat
  | 0, s, _, _, _ => (s, 0)
  | fuel + 1, s, uva, kva, len =>
    if len = 0 then (s, 0)
    else
      let t := s.copyTurn p uva len
      let r := copyinToLoop p fuel (t.vmm.putBytes kva (t.vmm.bytesAt t.pa t.size))
        (uva + BitVec.ofNat 32 t.size) (kva + BitVec.ofNat 32 t.size) (len - t.size)
      (r.1, t.size + r.2)

/-- `pt_copyin` with its buffer in physical memory, and the number of bytes that it has copied.
Reference: `pt_copyin` (`kern/lib/pmap.c:19`). -/
def ptCopyinTo (s : Vmm) (p : Nat) (uva kva len : BitVec 32) : Vmm × Nat :=
  if copyTest uva kva len then copyinToLoop p len.toNat s uva kva len.toNat else (s, 0)

/-- A buffer of the kernel: it ends below the user addresses' end, and is not in pages of the
pool. -/
structure KernelBuffer (s : Vmm) (kva : BitVec 32) (len : Nat) : Prop where
  hi : kva.toNat + len ≤ vmUserHi
  outside : ∀ i < len, (kva.toNat + i) / pageSize ∉ s.mem.table.normal

namespace KernelBuffer

section
variable (h : s.KernelBuffer kva len)
include h

theorem toNat_add {i : Nat} (hi : i ≤ len) : (kva + BitVec.ofNat 32 i).toNat = kva.toNat + i := by
  have hhi := h.hi
  rw [vmUserHi] at hhi
  rw [BitVec.toNat_add, BitVec.toNat_ofNat, Nat.mod_eq_of_lt (a := i) (by omega),
    Nat.mod_eq_of_lt (by omega)]

theorem notMem {i : Nat} (hi : i < len) :
    (kva + BitVec.ofNat 32 i).toNat / pageSize ∉ s.mem.table.normal := by
  rw [h.toNat_add hi.le]
  exact h.outside i hi

theorem congr (hnormal : s'.mem.table.normal = s.mem.table.normal) :
    s'.KernelBuffer kva len := ⟨h.hi, fun i hi => hnormal ▸ h.outside i hi⟩

theorem drop (hn : n ≤ len) : s.KernelBuffer (kva + BitVec.ofNat 32 n) (len - n) := by
  have hhi := h.hi
  refine ⟨?_, fun i hi => ?_⟩
  · rw [h.toNat_add hn]
    omega
  · rw [h.toNat_add hn, Nat.add_assoc]
    exact h.outside (n + i) (by omega)

theorem take (hn : n ≤ len) : s.KernelBuffer kva n :=
  ⟨(Nat.add_le_add_left hn _).trans h.hi, fun i hi => h.outside i (hi.trans_le hn)⟩

/-- Copies to user memory do not change a buffer. -/
theorem bytesAt {W : Set Nat} (hw : s.Widens s' p W) : s'.bytesAt kva len = s.bytesAt kva len :=
  List.map_congr_left fun _ hi => hw.byteAt (h.notMem (List.mem_range.1 hi))

end

end KernelBuffer

@[simp] theorem length_bytesAt (s : Vmm) (pa : BitVec 32) (n : Nat) :
    (s.bytesAt pa n).length = n := by
  rw [bytesAt, List.length_map, List.length_range]

theorem take_bytesAt (s : Vmm) (pa : BitVec 32) (hn : n ≤ len) :
    (s.bytesAt pa len).take n = s.bytesAt pa n := by
  rw [bytesAt, ← List.map_take, List.take_range, min_eq_left hn, bytesAt]

theorem drop_bytesAt (s : Vmm) (pa : BitVec 32) (n len : Nat) :
    (s.bytesAt pa len).drop n = s.bytesAt (pa + BitVec.ofNat 32 n) (len - n) := by
  refine List.ext_getElem? fun i => ?_
  rw [List.getElem?_drop, getElem?_bytesAt, getElem?_bytesAt, BitVec.add_assoc, ← BitVec.ofNat_add]
  simp only [show n + i < len ↔ i < len - n by omega]

/-- The bytes of the buffer are copied as if they were apart from physical memory. -/
theorem Ready.copyoutFrom_eq : ∀ (fuel : Nat) {s : Vmm} {kva uva : BitVec 32} {len : Nat},
    len ≤ fuel → s.Ready p W uva len → s.KernelBuffer kva len →
    copyoutFromLoop p fuel s kva uva len =
    ((Vmm.copyoutLoop p fuel s uva (s.bytesAt kva len)).1, len)
  | 0, s, kva, uva, len, hfuel, h, hk => by
    rw [Nat.le_zero.1 hfuel]
    rfl
  | fuel + 1, s, kva, uva, len, hfuel, h, hk => by
    rw [copyoutFromLoop, Vmm.copyoutLoop, length_bytesAt]
    by_cases h0 : len = 0
    · rw [if_pos h0, if_pos h0, h0]
    rw [if_neg h0, if_neg h0]
    dsimp only
    have hpos := Nat.pos_of_ne_zero h0
    have hsize : 0 < (s.copyTurn p uva len).size := size_pos hpos
    have hle : (s.copyTurn p uva len).size ≤ len := size_le
    obtain ⟨hturn, -⟩ := h.turn hpos
    have hbytes : (s.copyTurn p uva len).vmm.bytesAt kva (s.copyTurn p uva len).size =
        (s.bytesAt kva len).take (s.copyTurn p uva len).size := by
      rw [take_bytesAt s kva hle]
      exact (hk.take hle).bytesAt hturn
    have hlen : ((s.bytesAt kva len).take (s.copyTurn p uva len).size).length =
        (s.copyTurn p uva len).size := by
      rw [take_bytesAt s kva hle, length_bytesAt]
    obtain ⟨hwidens, -, hready⟩ := h.putBytes hpos hlen
    rw [hbytes, Ready.copyoutFrom_eq fuel (by omega) hready ((hk.drop hle).congr hwidens.normal),
      drop_bytesAt, (hk.drop hle).bytesAt hwidens, Nat.add_sub_cancel' hle]

/-- The states have the same page directories and allocations, and the same words in the pages
`P`. -/
structure SameOn (P : Finset Nat) (s s' : Vmm) : Prop where
  mem : s'.mem = s.mem
  pdir : s'.pdir = s.pdir
  word : ∀ page ∈ P, s'.word page = s.word page

namespace SameOn

variable {P : Finset Nat} {i j page : Nat} {e perm : BitVec 32}

section
variable (h : SameOn P s s')
include h

theorem putWord : SameOn P (s.putWord page j e) (s'.putWord page j e) := by
  refine ⟨h.mem, h.pdir, fun page' hpage => ?_⟩
  rcases eq_or_ne page' page with rfl | hne
  · simp only [Vmm.putWord, Function.update_self, h.word _ hpage]
  · simp only [Vmm.putWord, Function.update_of_ne hne, h.word _ hpage]

theorem setPtblEntry :
    SameOn P (s.setPtblEntry p i j page perm) (s'.setPtblEntry p i j page perm) := by
  rw [Vmm.setPtblEntry, Vmm.setPtblEntry, h.pdir]
  exact h.putWord

theorem clearPtbl (n : Nat) : SameOn P (s.clearPtbl p i n) (s'.clearPtbl p i n) := by
  induction n with
  | zero => exact h
  | succ n ih =>
    rw [Vmm.clearPtbl, Vmm.clearPtbl, rmvPtblEntry, rmvPtblEntry, ih.pdir]
    exact ih.putWord

theorem setMem (m : Mem) : SameOn P { s with mem := m } { s' with mem := m } :=
  ⟨rfl, h.pdir, h.word⟩

theorem setPdirEntry : SameOn P (s.setPdirEntry p i page) (s'.setPdirEntry p i page) :=
  ⟨h.mem, by rw [Vmm.setPdirEntry, Vmm.setPdirEntry, putPdir, putPdir, h.pdir], h.word⟩

theorem allocPtbl : SameOn P (s.allocPtbl p va).1 (s'.allocPtbl p va).1 ∧
    (s'.allocPtbl p va).2 = (s.allocPtbl p va).2 := by
  simp only [Vmm.allocPtbl, h.mem]
  split
  · exact ⟨h.setMem _, rfl⟩
  · exact ⟨((h.setMem _).setPdirEntry).clearPtbl 1024, rfl⟩

theorem mapPage : SameOn P (s.mapPage p va page perm).1 (s'.mapPage p va page perm).1 := by
  have hpde : s'.getPdirEntryByVa p va = s.getPdirEntryByVa p va := congrFun (congrFun h.pdir p) _
  simp only [Vmm.mapPage, hpde, h.allocPtbl.2]
  by_cases h0 : s.getPdirEntryByVa p va = 0
  · rw [if_pos h0, if_pos h0]
    by_cases hpage : (s.allocPtbl p va).2 = 0
    · rw [if_pos hpage, if_pos hpage]
      exact h.allocPtbl.1
    · rw [if_neg hpage, if_neg hpage]
      exact h.allocPtbl.1.setPtblEntry
  · rw [if_neg h0, if_neg h0]
    exact h.setPtblEntry

theorem allocPage : SameOn P (s.allocPage p va perm).1 (s'.allocPage p va perm).1 := by
  simp only [Vmm.allocPage, h.mem]
  split
  · exact (h.setMem _).mapPage
  · exact h.setMem _

/-- The words of the pool are enough for the user part of the page tables. -/
theorem isolated (hs : s.Isolated) (hP : s.mem.table.normal ⊆ P) :
    s'.Isolated ∧ ∀ q va, UserAddr q va → s'.getPtblEntryByVa q va = s.getPtblEntryByVa q va :=
  hs.of_word h.mem h.pdir fun _ _ hslot hne =>
    h.word _ (hP (hs.ok.taken_subset (hs.mem_taken hslot hne)))

/-- A turn accesses the same address in both states. -/
theorem copyTurn (hs : s.Isolated) (hP : s.mem.table.normal ⊆ P)
    (hu : UserAddr p uva) (len : Nat) :
    SameOn P (s.copyTurn p uva len).vmm (s'.copyTurn p uva len).vmm ∧
      (s'.copyTurn p uva len).pa = (s.copyTurn p uva len).pa ∧
      (s'.copyTurn p uva len).size = (s.copyTurn p uva len).size := by
  have hentry := (h.isolated hs hP).2 p uva hu
  have halloc : SameOn P (s.allocPage p uva 7).1 (s'.allocPage p uva 7).1 := h.allocPage
  have hnew := halloc.isolated (hs.allocPage hu (by decide))
    ((normal_allocPage hs.ok).trans_subset hP)
  have hturn : s'.turnEntry p uva = s.turnEntry p uva := by
    rw [turnEntry, turnEntry, hentry, hnew.2 p uva hu]
  refine ⟨?_, BitVec.eq_of_toNat_eq (by rw [pa_copyTurn, pa_copyTurn, hturn]), by
    rw [size_copyTurn, size_copyTurn]⟩
  by_cases hp : Present (s.getPtblEntryByVa p uva)
  · rw [(copyTurn_of_present hp).1, (copyTurn_of_present (hentry.symm ▸ hp)).1]
    exact h
  · rw [(copyTurn_of_absent hp).1, (copyTurn_of_absent (hentry.symm ▸ hp)).1]
    exact halloc

end

end SameOn

theorem SameOn.putKernel {P : Finset Nat} (h : SameOn P s s') (hout : ∀ i < l.length,
    (kva + BitVec.ofNat 32 i).toNat / pageSize ∉ P) : SameOn P s (s'.putBytes kva l) := by
  obtain ⟨hmem, hpdir, hword⟩ := @putBytes_frame s' kva l
  refine ⟨hmem.trans h.mem, hpdir.trans h.pdir, fun page hpage => ?_⟩
  rw [hword page fun i hi heq => hout i hi (heq ▸ hpage), h.word page hpage]

/-- The bytes that are read are written to the buffer, and all else is as if it were apart from
physical memory. -/
theorem Ready.copyinTo : ∀ (fuel : Nat) {s s' : Vmm} {uva kva : BitVec 32} {len : Nat},
    len ≤ fuel → s.Ready p W uva len → s.KernelBuffer kva len → SameOn s.mem.table.normal s s' →
    (copyinToLoop p fuel s' uva kva len).2 = len ∧
      SameOn s.mem.table.normal (Vmm.copyinLoop p fuel s uva len).1
      (copyinToLoop p fuel s' uva kva len).1 ∧
      (∀ i b, (Vmm.copyinLoop p fuel s uva len).2.1[i]? = some b →
        (copyinToLoop p fuel s' uva kva len).1.byteAt (kva + BitVec.ofNat 32 i) = b) ∧
      ∀ a : BitVec 32, a.toNat / pageSize ∉ s.mem.table.normal →
      (∀ i < len, a ≠ kva + BitVec.ofNat 32 i) →
        (copyinToLoop p fuel s' uva kva len).1.byteAt a = s'.byteAt a
  | 0, s, s', uva, kva, len, hfuel, h, hk, hsame => by
    rw [Nat.le_zero.1 hfuel]
    exact ⟨rfl, hsame, fun _ _ hb => (by cases hb), fun _ _ _ => rfl⟩
  | fuel + 1, s, s', uva, kva, len, hfuel, h, hk, hsame => by
    rw [copyinToLoop, Vmm.copyinLoop]
    by_cases h0 : len = 0
    · rw [if_pos h0, if_pos h0]
      exact ⟨h0.symm, hsame, fun _ _ hb => (by cases hb), fun _ _ _ => rfl⟩
    rw [if_neg h0, if_neg h0]
    dsimp only
    have hpos := Nat.pos_of_ne_zero h0
    have hsize : 0 < (s.copyTurn p uva len).size := size_pos hpos
    have hle : (s.copyTurn p uva len).size ≤ len := size_le
    have hu : UserAddr p uva := by
      have := h.userAddr hpos
      rwa [BitVec.add_zero] at this
    obtain ⟨hwidens, -, hpa, hready⟩ := h.turn hpos
    obtain ⟨hturn, hpaeq, hsizeeq⟩ := hsame.copyTurn h.isolated subset_rfl hu len
    -- the page that is read is in the pool, and the buffer is not
    have hbytes : (s'.copyTurn p uva len).vmm.bytesAt (s.copyTurn p uva len).pa
      (s.copyTurn p uva len).size =
        (s.copyTurn p uva len).vmm.bytesAt (s.copyTurn p uva len).pa
        (s.copyTurn p uva len).size := by
      refine List.map_congr_left fun i hi => byteAt_congr (hturn.word _ ?_)
      obtain ⟨hu, hp, -⟩ := userPa_eq_some.1 hpa
      have hmod := Nat.mod_lt uva.toNat (by decide : 0 < pageSize)
      have hoff : uva.toNat % pageSize + i < pageSize := by
        rw [List.mem_range, size_copyTurn] at hi
        omega
      rw [← hwidens.normal]
      exact hwidens.isolated.page_mem_normal (userPa_add hu hp hpa hoff)
    rw [hpaeq, hsizeeq, hbytes]
    generalize hdata :
      (s.copyTurn p uva len).vmm.bytesAt (s.copyTurn p uva len).pa (s.copyTurn p uva len).size =
      data
    have hlen : data.length = (s.copyTurn p uva len).size := hdata ▸ length_bytesAt _ _ _
    have hkernel : SameOn _ (s.copyTurn p uva len).vmm
        ((s'.copyTurn p uva len).vmm.putBytes kva data) :=
      hturn.putKernel fun i hi => hk.notMem (by omega)
    have hshift : ∀ j, kva + BitVec.ofNat 32 (s.copyTurn p uva len).size + BitVec.ofNat 32 j =
        kva + BitVec.ofNat 32 ((s.copyTurn p uva len).size + j) := fun j => by
      rw [BitVec.add_assoc, ← BitVec.ofNat_add]
    obtain ⟨hcount, hsame', hrest, hframe⟩ := Ready.copyinTo fuel (by omega) hready
      ((hk.drop hle).congr hwidens.normal) (hwidens.normal.symm ▸ hkernel)
    rw [hwidens.normal] at hsame' hframe
    have hwrite : ((s'.copyTurn p uva len).vmm.putBytes kva data).byteAt = _ := byteAt_putBytes
    refine ⟨by omega, hsame', fun i b hb => ?_, fun a ha hne => ?_⟩
    · rcases Nat.lt_or_ge i data.length with hi | hi
      · -- the byte was written in the first turn
        rw [List.getElem?_append_left hi] at hb
        rw [hframe _ (hk.notMem (by omega)) fun j hj heq => ?_, hwrite, ← iterate_add_one]
        · refine write_at (fun j k hjk hk' heq => ?_) hb
          rw [iterate_add_one, iterate_add_one] at heq
          have := congrArg BitVec.toNat heq
          rw [hk.toNat_add (by omega), hk.toNat_add (by omega)] at this
          omega
        · have := congrArg BitVec.toNat heq
          rw [hshift, hk.toNat_add (by omega), hk.toNat_add (by omega)] at this
          omega
      · rw [List.getElem?_append_right hi] at hb
        have := hrest _ b hb
        rwa [hshift, hlen, Nat.add_sub_cancel' (hlen ▸ hi)] at this
    · have hready' := h.congr (hsame.isolated h.isolated subset_rfl).1 hsame.mem hsame.pdir
        (hsame.isolated h.isolated subset_rfl).2
      rw [hframe a ha fun j hj => hshift j ▸ hne _ (by omega), hwrite, write_of_ne fun i hi => ?_]
      · exact (hready'.turn hpos).1.byteAt (hsame.mem.symm ▸ ha)
      · rw [iterate_add_one]
        exact hne i (by omega)

theorem copyTest_of_le (hlo : vmUserLo ≤ uva.toNat) {len : BitVec 32}
    (hhi : uva.toNat + len.toNat ≤ vmUserHi) (hk : kva.toNat + len.toNat ≤ vmUserHi) :
    copyTest uva kva len := by
  have hlt : vmUserHi < 2 ^ 32 := by decide
  rw [copyTest, decide_eq_true_eq, toNat_add_of_lt (by omega), toNat_add_of_lt (by omega)]
  omega

/-- What `pt_copyout` does, with its buffer in physical memory. -/
theorem Ready.ptCopyoutFrom {len : BitVec 32} (h : s.Ready p W uva len.toNat)
    (hk : s.KernelBuffer kva len.toNat) :
    (s.ptCopyoutFrom p kva uva len).2 = len.toNat ∧
      s.Widens (s.ptCopyoutFrom p kva uva len).1 p (vpages uva.toNat len.toNat) ∧
      Memory.Extends (write nextAddr s.user (p, uva) ((s.bytesAt kva len.toNat).map some))
        (s.ptCopyoutFrom p kva uva len).1.user ∧
      (s.ptCopyoutFrom p kva uva len).1.mem.Affords p
        ((s.ptCopyoutFrom p kva uva len).1.pagesFor p W) := by
  have hlen : (s.bytesAt kva len.toNat).length = len.toNat := length_bytesAt _ _ _
  rw [Vmm.ptCopyoutFrom, if_pos (copyTest_of_le h.lo h.hi hk.hi), h.copyoutFrom_eq _ le_rfl hk]
  obtain ⟨hwidens, hextends, haffords⟩ := Ready.copyoutLoop len.toNat hlen.le (hlen.symm ▸ h)
  rw [hlen] at hwidens
  exact ⟨rfl, hwidens, hextends, haffords⟩

/-- What `pt_copyin` does, with its buffer in physical memory. -/
theorem Ready.ptCopyinTo {len : BitVec 32} (h : s.Ready p W uva len.toNat)
    (hk : s.KernelBuffer kva len.toNat) :
    (s.ptCopyinTo p uva kva len).2 = len.toNat ∧
      ∀ i < len.toNat, ∀ b, s.user (p, uva + BitVec.ofNat 32 i) = some b →
        (s.ptCopyinTo p uva kva len).1.byteAt (kva + BitVec.ofNat 32 i) = b := by
  rw [Vmm.ptCopyinTo, if_pos (copyTest_of_le h.lo h.hi hk.hi)]
  obtain ⟨hcount, -, hbuffer, -⟩ := h.copyinTo len.toNat le_rfl hk ⟨rfl, rfl, fun _ _ => rfl⟩
  obtain ⟨-, hextends, hbytes⟩ := h.copyinLoop len.toNat le_rfl
  refine ⟨hcount, fun i hi b hb => hbuffer i b ?_⟩
  have hlen : i < (Vmm.copyinLoop p len.toNat s uva len.toNat).2.1.length := by
    rwa [(copyinLoop_turns p len.toNat s uva len.toNat le_rfl).2]
  have hread := hbytes i _ (List.getElem?_eq_getElem hlen)
  rw [hextends _ _ hb] at hread
  rw [List.getElem?_eq_getElem hlen, hread]

/-! ## The pages that a copy touches -/

section
variable (hproc : p ≠ 0 ∧ p < numIds)
include hproc

/-- The first turn of a copy, with the set of pages for the rest. -/
theorem Isolated.firstTurn_iff (h : s.Isolated) (hlen : 0 < len) (hlo : vmUserLo ≤ uva.toNat)
    (hhi : uva.toNat + len ≤ vmUserHi) : s.mem.Affords p (s.pagesFor p (vpages uva.toNat len)) ↔
      (s.copyTurn p uva len).Mapped p ∧ (s.copyTurn p uva len).vmm.mem.Affords p
        ((s.copyTurn p uva len).vmm.pagesFor p
          (vpages (uva + BitVec.ofNat 32 (s.copyTurn p uva len).size).toNat
          (len - (s.copyTurn p uva len).size))) := by
  have hu : UserAddr p uva := ⟨hproc.1, hproc.2, by omega⟩
  rw [copyTurn_mapped_iff hlen, toNat_add_ofNat_user hhi size_le, vpages_eq_insert hlen,
    size_copyTurn]
  refine h.affords_copyTurn_iff hu fun v hv => mul_lt_of_mem_vpages hv ?_
  rw [vmUserHi] at hhi
  omega

/-- `pt_copyin` reads from pages of the process exactly if the process can have those that are
missing. -/
theorem Isolated.copyinLoop_mapped_iff : ∀ (fuel : Nat) {s : Vmm} {uva : BitVec 32} {len : Nat},
    len ≤ fuel → s.Isolated → vmUserLo ≤ uva.toNat → uva.toNat + len ≤ vmUserHi →
    ((∀ t ∈ (Vmm.copyinLoop p fuel s uva len).2.2, t.Mapped p) ↔
      s.mem.Affords p (s.pagesFor p (vpages uva.toNat len)))
  | 0, s, uva, len, hfuel, h, hlo, hhi => by
    obtain rfl : len = 0 := Nat.le_zero.1 hfuel
    exact iff_of_true (List.forall_mem_nil _) (Mem.affords_zero h.ok)
  | fuel + 1, s, uva, len, hfuel, h, hlo, hhi => by
    rw [Vmm.copyinLoop]
    by_cases h0 : len = 0
    · subst h0
      exact iff_of_true (List.forall_mem_nil _) (Mem.affords_zero h.ok)
    have hlen : 0 < len := Nat.pos_of_ne_zero h0
    have hsize : 0 < (s.copyTurn p uva len).size := size_pos hlen
    rw [if_neg h0, List.forall_mem_cons, h.firstTurn_iff hproc hlen hlo hhi]
    refine and_congr_right fun _ => ?_
    have hu : UserAddr p uva := ⟨hproc.1, hproc.2, by omega⟩
    have hle : (s.copyTurn p uva len).size ≤ len := size_le
    have hnat := toNat_add_ofNat_user hhi hle
    exact copyinLoop_mapped_iff fuel (by omega) (h.widens_copyTurn hu len).1.isolated
      (by omega) (by omega)

/-- `pt_copyout` writes to pages of the process exactly if the process can have those that are
missing. -/
theorem Isolated.copyoutLoop_mapped_iff :
    ∀ (fuel : Nat) {s : Vmm} {uva : BitVec 32} {data : List (BitVec 8)}, data.length ≤ fuel →
    s.Isolated → vmUserLo ≤ uva.toNat → uva.toNat + data.length ≤ vmUserHi →
    ((∀ t ∈ (Vmm.copyoutLoop p fuel s uva data).2, t.Mapped p) ↔
      s.mem.Affords p (s.pagesFor p (vpages uva.toNat data.length)))
  | 0, s, uva, data, hfuel, h, hlo, hhi => by
    rw [Nat.le_zero.1 hfuel]
    exact iff_of_true (List.forall_mem_nil _) (Mem.affords_zero h.ok)
  | fuel + 1, s, uva, data, hfuel, h, hlo, hhi => by
    rw [Vmm.copyoutLoop]
    by_cases h0 : data.length = 0
    · rw [if_pos h0, h0]
      exact iff_of_true (List.forall_mem_nil _) (Mem.affords_zero h.ok)
    have hlen : 0 < data.length := Nat.pos_of_ne_zero h0
    have hsize : 0 < (s.copyTurn p uva data.length).size := size_pos hlen
    have hle : (s.copyTurn p uva data.length).size ≤ data.length := size_le
    rw [if_neg h0, List.forall_mem_cons, h.firstTurn_iff hproc hlen hlo hhi]
    refine and_congr_right fun hm => ?_
    have hu : UserAddr p uva := ⟨hproc.1, hproc.2, by omega⟩
    have hnat := toNat_add_ofNat_user hhi hle
    have hwidens := (h.widens_copyTurn hu data.length).1
    have hpa := userPa_copyTurn hu ((copyTurn_mapped_iff hlen).1 hm) data.length
    -- the bytes that are written change neither the entries nor what the process can have
    have htake : uva.toNat % pageSize + (data.take (s.copyTurn p uva data.length).size).length ≤
        pageSize := by
      have hmod := Nat.mod_lt uva.toNat (by decide : 0 < pageSize)
      rw [List.length_take, size_copyTurn]
      omega
    have hwrite := (hwidens.isolated.user_putBytes hpa htake).1
    obtain ⟨hmem, hpdir, -⟩ := @putBytes_frame (s.copyTurn p uva data.length).vmm
      (s.copyTurn p uva data.length).pa (data.take (s.copyTurn p uva data.length).size)
    have hdrop : (data.drop (s.copyTurn p uva data.length).size).length =
        data.length - (s.copyTurn p uva data.length).size := List.length_drop
    rw [copyoutLoop_mapped_iff fuel (by omega) hwrite.isolated (by omega) (by omega), hdrop, hmem,
      pagesFor_congr (fun v hv => hwrite.entry p _ ?_ (.inr fun hc => hc.2)) hpdir]
    exact userAddr_vpages hproc (by omega) (by omega) hv

end

end Vmm

/-- **Copies touch only pages of the process**, exactly if it can have the pages and page tables
that are missing in the range, or the copy is refused: in a state in which the page tables of the
processes are isolated, and for any range of user addresses. -/
theorem copy_touches_own_pages {s : Vmm} (h : s.Isolated) {p : Nat} (hproc : p ≠ 0 ∧ p < numIds)
    (uva kva len : BitVec 32) (hlo : vmUserLo ≤ uva.toNat) (hhi : uva.toNat + len.toNat ≤ vmUserHi)
    (kbyte : Nat → BitVec 8) :
    ((∀ t ∈ (s.ptCopyin p uva kva len).2.2, t.Mapped p) ↔
      (Vmm.copyTest uva kva len → s.mem.Affords p (s.pagesFor p (vpages uva.toNat len.toNat)))) ∧
    ((∀ t ∈ (s.ptCopyout p kbyte kva uva len).2, t.Mapped p) ↔
      (Vmm.copyTest uva kva len →
        s.mem.Affords p (s.pagesFor p (vpages uva.toNat len.toNat)))) := by
  have hlen : ((List.range len.toNat).map kbyte).length = len.toNat := by
    rw [List.length_map, List.length_range]
  rw [Vmm.ptCopyin, Vmm.ptCopyout]
  by_cases htest : Vmm.copyTest uva kva len
  · have hout := Vmm.Isolated.copyoutLoop_mapped_iff hproc len.toNat hlen.le h
      hlo (hlen.symm ▸ hhi)
    rw [hlen] at hout
    rw [if_pos htest, if_pos htest, hout, Vmm.Isolated.copyinLoop_mapped_iff hproc len.toNat
      le_rfl h hlo hhi]
    exact ⟨⟨fun ha _ => ha, fun ha => ha htest⟩, ⟨fun ha _ => ha, fun ha => ha htest⟩⟩
  · rw [if_neg htest, if_neg htest]
    exact ⟨iff_of_true (List.forall_mem_nil _) fun hc => absurd hc htest,
      iff_of_true (List.forall_mem_nil _) fun hc => absurd hc htest⟩

/-- A machine with four pages on which process 1 may use `quota` pages. -/
def childPages (quota : BitVec 32) (word : Nat → Nat → BitVec 32) : Vmm :=
  let s := Vmm.init fourPages 0 word
  { s with mem := (s.mem.allocMemQuota 0 quota).1 }

section ChildPages

variable (quota : BitVec 32) (word : Nat → Nat → BitVec 32)

theorem isolated_childPages : (childPages quota word).Isolated :=
  isolated_of_runs ⟨fourPages, 0, _, by decide, rfl⟩
    (.tail (a := .allocMemQuota 0 quota) .refl trivial rfl)

theorem normal_childPages :
    (childPages quota word).mem.table.normal = Finset.Ico 0x40000 0x40004 := normal_fourPages

theorem affords_childPages (h : quota.toNat ≤ 4) :
    (childPages quota word).mem.Affords 1 quota.toNat := by
  have hcovered : ((Mem.init fourPages).allocMemQuota 0 quota).1.Covered := by
    refine (Mem.covered_init fourPages).split (by decide) ?_
    rw [(Mem.covered_init fourPages).root, Mem.init, normal_fourPages]
    exact (Nat.zero_add quota.toNat).trans_le h
  have hslack : (((Mem.init fourPages).allocMemQuota 0 quota).1.container 1).slack = quota.toNat :=
    rfl
  have haffords := hcovered.affords (by decide : 1 < numIds)
  rw [hslack] at haffords
  exact haffords

end ChildPages

def threeVmm : Vmm := childPages 3 fun _ j => BitVec.ofNat 32 (j + 0xab)

/-- Process 1 gets two pages and a page table, and the bytes that are copied across the page
boundary go to its pages. -/
theorem copy_touches_own_pages_four :
    (threeVmm.ptCopyout 1 (fun _ => 0xab) 0x1000000 0x40000ffe 4).2.map (·.size) = [2, 2] ∧
      ∀ t ∈ (threeVmm.ptCopyout 1 (fun _ => 0xab) 0x1000000 0x40000ffe 4).2, t.Mapped 1 := by
  refine ⟨by decide +kernel, ?_⟩
  exact (copy_touches_own_pages (isolated_childPages _ _) (by decide) 0x40000ffe
    0x1000000 4 (by decide) (by decide) _).2.2 fun _ =>
    (affords_childPages 3 _ (by decide)).mono (by decide +kernel)

/-- Process 1 has used up its quota and has no page at `0x40001000`. The bytes that are copied
there go to the physical page 0, where the page table has no page. -/
theorem copy_writes_page_zero :
    let r := (fourVmmPage 7).ptCopyout 1 (fun _ => 0xab) 0x100000 0x40001004 2
    vmmMachine.Reachable (fourVmmPage 7) ∧
    r.2.map (fun t => (t.uva, t.pa, t.size, t.allocated)) =
      [(0x40001004, 0x4, 2, some magicNumber)] ∧
    r.1.getPtblEntryByVa 1 0x40001004 = 0 ∧
    (fourVmmPage 7).byteAt 0x4 = 0x03 ∧ r.1.byteAt 0x4 = 0xab := by
  have hrun : vmmMachine.Runs (fun _ _ => True) (Vmm.init fourPages 0 fun _ _ => 0)
      (fourVmmPage 7) :=
    fourVmmPage_runs trivial trivial
  refine ⟨hrun.reachable (.init fourVmm_init), ?_⟩
  decide +kernel

/-- **A copy to user memory and back is the identity.** For any range of user addresses for which
the process can have the missing pages, and buffers of the kernel outside of the pool: `pt_copyout`
copies the buffer to the range, changes no other byte that a process sees, and a `pt_copyin` of the
range gives the bytes back. -/
theorem copyout_copyin {s : Vmm} (h : s.Isolated) {p : Nat} (hproc : p ≠ 0 ∧ p < numIds)
    (uva kva kva' len : BitVec 32) (hlo : vmUserLo ≤ uva.toNat)
    (hhi : uva.toNat + len.toNat ≤ vmUserHi) (hk : s.KernelBuffer kva len.toNat)
    (hk' : s.KernelBuffer kva' len.toNat)
    (hquota : s.mem.Affords p (s.pagesFor p (vpages uva.toNat len.toNat))) :
    let out := s.ptCopyoutFrom p kva uva len
    let back := out.1.ptCopyinTo p uva kva' len
    out.2 = len.toNat ∧
    (∀ i < len.toNat, out.1.user (p, uva + BitVec.ofNat 32 i) =
      some (s.byteAt (kva + BitVec.ofNat 32 i))) ∧
    (∀ q va b, s.user (q, va) = some b →
      ¬ (q = p ∧ uva.toNat ≤ va.toNat ∧ va.toNat < uva.toNat + len.toNat) →
      out.1.user (q, va) = some b) ∧
    back.2 = len.toNat ∧
    ∀ i < len.toNat, back.1.byteAt (kva' + BitVec.ofNat 32 i) =
    s.byteAt (kva + BitVec.ofNat 32 i) := by
  have hready : s.Ready p (vpages uva.toNat len.toNat) uva len.toNat :=
    ⟨h, hproc, hlo, hhi, subset_rfl, fun v hv => Vmm.userAddr_vpages hproc hlo hhi hv, hquota⟩
  obtain ⟨hcount, hwidens, hextends, -⟩ := hready.ptCopyoutFrom hk
  obtain ⟨hwritten, hothers⟩ :=
    Vmm.written_user (by rw [Vmm.length_bytesAt]; exact hhi.trans (by decide)) hextends
  rw [Vmm.length_bytesAt] at hothers
  have hbytes : ∀ i < len.toNat,
    (s.ptCopyoutFrom p kva uva len).1.user (p, uva + BitVec.ofNat 32 i) =
      some (s.byteAt (kva + BitVec.ofNat 32 i)) := fun i hi =>
    hwritten i _ (by rw [Vmm.getElem?_bytesAt, if_pos hi])
  have hback : (s.ptCopyoutFrom p kva uva len).1.Ready p (vpages uva.toNat len.toNat)
      uva len.toNat :=
    hwidens.isolated.ready hproc hlo hhi fun i hi => by rw [hbytes i hi]; nofun
  obtain ⟨hcount', hbuffer⟩ := hback.ptCopyinTo (hk'.congr hwidens.normal)
  exact ⟨hcount, hbytes, hothers, hcount', fun i hi => hbuffer i hi _ (hbytes i hi)⟩

/-- Process 1 has no pages. Four bytes are copied across a page boundary and back, for which it
gets two pages and a page table. -/
theorem copyout_copyin_four :
    let out := threeVmm.ptCopyoutFrom 1 0x1000000 0x40000ffe 4
    let back := out.1.ptCopyinTo 1 0x40000ffe 0x2000000 4
    threeVmm.user (1, 0x40000fff) = none ∧ out.2 = 4 ∧
    out.1.user (1, 0x40000ffe) = some 0xab ∧ back.1.byteAt 0x2000000 = 0xab := by
  have hbuffer : ∀ page : Nat, page * pageSize + 4 ≤ vmUserLo →
      threeVmm.KernelBuffer (BitVec.ofNat 32 (page * pageSize)) 4 := by
    intro page hpage
    have hnat : (BitVec.ofNat 32 (page * pageSize)).toNat = page * pageSize := by
      rw [vmUserLo] at hpage
      rw [BitVec.toNat_ofNat, Nat.mod_eq_of_lt (by omega)]
    refine ⟨?_, fun i hi => ?_⟩ <;> rw [hnat]
    · exact hpage.trans (by decide)
    · rw [threeVmm, normal_childPages, Finset.mem_Ico]
      rw [vmUserLo, pageSize] at *
      omega
  have hcopy := copyout_copyin (isolated_childPages _ _) (by decide) 0x40000ffe 0x1000000
    0x2000000 4 (by decide) (by decide) (hbuffer 4096 (by decide)) (hbuffer 8192 (by decide))
    ((affords_childPages 3 _ (by decide)).mono (by decide +kernel))
  obtain ⟨hcount, hbytes, -, -, hback⟩ := hcopy
  have hab : threeVmm.byteAt (0x1000000 + BitVec.ofNat 32 0) = 0xab := by decide +kernel
  refine ⟨by decide +kernel, hcount, ?_, ?_⟩
  · rw [← hab]
    exact hbytes 0 (by decide)
  · rw [← hab]
    exact hback 0 (by decide)

end MCertikos
