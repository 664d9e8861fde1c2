import MCertikos.Lib.BitField
import MCertikos.Lib.Memory
import MCertikos.Mem.Copy

/-!
# The memory that processes see

A process sees physical memory through its page table: `Vmm.user` gives the byte at a user address
of a process, if the page is present. Under isolation no physical byte is seen at two user
addresses, so a write at a user address changes what is seen there, and nothing else
(`Vmm.Isolated.user_putBytes`). `alloc_page` only adds to what is seen
(`Vmm.Isolated.user_allocPage`).

`Widens` is what copies, and the allocations in them, do to a state apart from the bytes.
-/

namespace MCertikos

open Ownership Memory Function

/-! ## Bytes -/

theorem add_ofNat_succ (a : BitVec 32) (i : Nat) :
    a + BitVec.ofNat 32 i + 1 = a + BitVec.ofNat 32 (i + 1) := by
  rw [BitVec.ofNat_add, ← BitVec.add_assoc]
  rfl

theorem iterate_add_one (a : BitVec 32) (i : Nat) : (· + 1)^[i] a = a + BitVec.ofNat 32 i := by
  induction i with
  | zero => exact (BitVec.add_zero a).symm
  | succ i ih => rw [Function.iterate_succ_apply', ih, add_ofNat_succ]

namespace Vmm

variable {s s' : Vmm} {p q i j page : Nat} {va va' pa uva perm e : BitVec 32} {l : List (BitVec 8)}
  {b : BitVec 8} {u : Nat × BitVec 32 → Option (BitVec 8)} {x : Nat × BitVec 32}

theorem byteAt_eq (s : Vmm) (pa : BitVec 32) : s.byteAt pa =
    BitField.get (s.word (pa.toNat / pageSize) (pa.toNat % pageSize / 4))
    (8 * (pa.toNat % 4)) 8 := by
  refine BitVec.eq_of_getLsbD_eq fun i hi => ?_
  rw [byteAt, BitField.getLsbD_get, BitVec.getLsbD_setWidth, BitVec.getLsbD_ushiftRight]

theorem putByte_eq (s : Vmm) (pa : BitVec 32) (b : BitVec 8) : s.putByte pa b =
    s.putWord (pa.toNat / pageSize) (pa.toNat % pageSize / 4)
      (BitField.put (s.word (pa.toNat / pageSize) (pa.toNat % pageSize / 4))
        (8 * (pa.toNat % 4)) b) := rfl

/-- A byte that is stored is read back, and the other bytes are as before. -/
theorem byteAt_putByte : (s.putByte pa b).byteAt = update s.byteAt pa b := by
  funext a
  rw [byteAt_eq, putByte_eq, putWord]
  dsimp only
  rcases eq_or_ne a pa with rfl | hne
  · rw [update_self, update_self, update_self, BitField.get_put_self _ _ (by omega)]
  rw [update_of_ne hne, byteAt_eq]
  by_cases hpage : a.toNat / pageSize = pa.toNat / pageSize
  · rw [hpage, update_self]
    by_cases hword : a.toNat % pageSize / 4 = pa.toNat % pageSize / 4
    · -- another byte of the same word
      have hbyte : a.toNat % 4 ≠ pa.toNat % 4 := fun hbyte => by
        refine hne (BitVec.eq_of_toNat_eq ?_)
        rw [pageSize] at hpage hword
        omega
      rw [hword, update_self, BitField.get_put_of_disjoint _ _ (by omega)]
    · rw [update_of_ne hword]
  · rw [update_of_ne hpage]

/-- `memcpy` to physical memory writes its bytes. -/
theorem byteAt_putBytes : (s.putBytes pa l).byteAt = write (· + 1) s.byteAt pa l := by
  induction l generalizing s pa with
  | nil => rfl
  | cons b bs ih => rw [putBytes, ih, byteAt_putByte, write]

/-- `memcpy` changes the words of the pages of its range only. -/
theorem putBytes_frame : (s.putBytes pa l).mem = s.mem ∧ (s.putBytes pa l).pdir = s.pdir ∧
    ∀ page, (∀ i < l.length, (pa + BitVec.ofNat 32 i).toNat / pageSize ≠ page) →
      (s.putBytes pa l).word page = s.word page := by
  induction l generalizing s pa with
  | nil => exact ⟨rfl, rfl, fun _ _ => rfl⟩
  | cons b bs ih =>
    obtain ⟨hmem, hpdir, hword⟩ := @ih (s.putByte pa b) (pa + 1)
    refine ⟨hmem, hpdir, fun page hne => ?_⟩
    have hfirst : pa.toNat / pageSize ≠ page := by
      have := hne 0 (Nat.succ_pos _)
      rwa [BitVec.add_zero] at this
    rw [putBytes, hword page fun i hi => ?_]
    · exact update_of_ne hfirst.symm _ _
    · rw [BitVec.add_assoc, BitVec.add_comm 1, ← BitVec.add_assoc, add_ofNat_succ]
      exact hne (i + 1) (Nat.succ_lt_succ hi)

theorem byteAt_congr (h : s'.word (pa.toNat / pageSize) = s.word (pa.toNat / pageSize)) :
    s'.byteAt pa = s.byteAt pa := by
  rw [byteAt, h, byteAt]

/-! ## User addresses -/

/-- The physical address of a user address. -/
def userPa (s : Vmm) (x : Nat × BitVec 32) : Option (BitVec 32) :=
  if UserAddr x.1 x.2 ∧ Present (s.getPtblEntryByVa x.1 x.2) then
    some ((s.getPtblEntryByVa x.1 x.2 &&& 0xfffff000#32) + x.2 % 4096#32)
  else none

/-- The bytes that processes see at their user addresses. -/
def user (s : Vmm) : Nat × BitVec 32 → Option (BitVec 8) := view s.userPa s.byteAt

/-- The user address after another one. -/
def nextAddr (x : Nat × BitVec 32) : Nat × BitVec 32 := (x.1, x.2 + 1)

theorem iterate_nextAddr (p : Nat) (va : BitVec 32) (i : Nat) :
    nextAddr^[i] (p, va) = (p, va + BitVec.ofNat 32 i) := by
  induction i with
  | zero => rw [Function.iterate_zero_apply, BitVec.add_zero]
  | succ i ih => rw [Function.iterate_succ_apply', ih, nextAddr, add_ofNat_succ]

/-- What is written from a user address on, without a wrap around. -/
theorem write_user_at (hwrap : va.toNat + l.length ≤ 2 ^ 32) (hb : l[i]? = some b) :
    write nextAddr u (p, va) (l.map some) (p, va + BitVec.ofNat 32 i) = some b := by
  have hnat : ∀ k < l.length, (va + BitVec.ofNat 32 k).toNat = va.toNat + k := fun k hk => by
    rw [BitVec.toNat_add, BitVec.toNat_ofNat, Nat.mod_eq_of_lt (a := k) (by omega),
      Nat.mod_eq_of_lt (by omega)]
  rw [← iterate_nextAddr]
  refine write_at (fun j k hjk hk heq => ?_) (by rw [List.getElem?_map, hb, Option.map_some])
  rw [List.length_map] at hk
  rw [iterate_nextAddr, iterate_nextAddr, Prod.mk.injEq] at heq
  have := congrArg BitVec.toNat heq.2
  rw [hnat j (by omega), hnat k hk] at this
  omega

/-- What a process sees in a range that is written, and what all see outside of it. -/
theorem written_user {v : Nat × BitVec 32 → Option (BitVec 8)}
    (hwrap : va.toNat + l.length ≤ 2 ^ 32)
    (h : Memory.Extends (write nextAddr u (p, va) (l.map some)) v) :
    (∀ i b, l[i]? = some b → v (p, va + BitVec.ofNat 32 i) = some b) ∧
      ∀ q va' b, u (q, va') = some b →
      ¬ (q = p ∧ va.toNat ≤ va'.toNat ∧ va'.toNat < va.toNat + l.length) →
        v (q, va') = some b := by
  refine ⟨fun i b hb => h _ _ (write_user_at hwrap hb), fun q va' b hb hne => h _ _ ?_⟩
  rw [Memory.write_of_ne fun i hi heq => hne ?_, hb]
  rw [List.length_map] at hi
  rw [iterate_nextAddr, Prod.mk.injEq] at heq
  have hnat : (va + BitVec.ofNat 32 i).toNat = va.toNat + i := by
    rw [BitVec.toNat_add, BitVec.toNat_ofNat, Nat.mod_eq_of_lt (a := i) (by omega),
      Nat.mod_eq_of_lt (by omega)]
  rw [heq.2, hnat]
  exact ⟨heq.1, by omega, by omega⟩

theorem userPa_eq (hu : UserAddr q va) (hp : Present (s.getPtblEntryByVa q va)) :
    s.userPa (q, va) = some ((s.getPtblEntryByVa q va &&& 0xfffff000#32) + va % 4096#32) :=
  if_pos ⟨hu, hp⟩

theorem userPa_eq_some : s.userPa x = some pa ↔ UserAddr x.1 x.2 ∧
    Present (s.getPtblEntryByVa x.1 x.2) ∧
      (s.getPtblEntryByVa x.1 x.2 &&& 0xfffff000#32) + x.2 % 4096#32 = pa := by
  rw [userPa, Option.ite_none_right_eq_some, Option.some.injEq, and_assoc]

/-- The page of a present entry is referred to from there. -/
theorem refs_of_present (hu : UserAddr q va) (hp : Present (s.getPtblEntryByVa q va)) :
    s.refs (.data q (pdeAddr va) (pteAddr va)) = some (entryPage (s.getPtblEntryByVa q va)) := by
  have hpdir : s.getPdirEntry q (pdeAddr va) ≠ 0 := fun h0 => hp (by
    rw [getPtblEntryByVa, if_neg (not_not.2 h0)]
    rfl)
  have hentry : s.getPtblEntryByVa q va = s.getPtblEntry q (pdeAddr va) (pteAddr va) :=
    if_pos hpdir
  rw [refs_data hu.slot hpdir (pteAddr_lt va), ← hentry, dataRef, if_pos hp]

/-- The physical address is in the page of the entry, at the offset of the user address. -/
theorem toNat_userPa (h : s.userPa x = some pa) :
    pa.toNat / pageSize = entryPage (s.getPtblEntryByVa x.1 x.2) ∧ pa.toNat % pageSize =
    x.2.toNat % pageSize := by
  obtain ⟨-, -, rfl⟩ := userPa_eq_some.1 h
  have hlt := Nat.mod_lt x.2.toNat (by decide : 0 < pageSize)
  rw [toNat_copyAddr, Nat.mul_add_mod_self_right, Nat.mod_mod, Nat.mul_comm,
    Nat.mul_add_div (by decide), Nat.div_eq_of_lt hlt, Nat.add_zero]
  exact ⟨rfl, rfl⟩

theorem refs_of_userPa (h : s.userPa x = some pa) :
    s.refs (.data x.1 (pdeAddr x.2) (pteAddr x.2)) = some (pa.toNat / pageSize) := by
  obtain ⟨hu, hp, -⟩ := userPa_eq_some.1 h
  rw [refs_of_present hu hp, (toNat_userPa h).1]

/-- A byte that is seen is in the pool. -/
theorem Isolated.page_mem_normal (h : s.Isolated) (hx : s.userPa x = some pa) :
    pa.toNat / pageSize ∈ s.mem.table.normal :=
  h.ok.taken_subset (Finset.mem_coe.1 (h.refs.used _ _ (refs_of_userPa hx)))

/-- Under isolation, no physical byte is seen at two user addresses. -/
theorem Isolated.userPa_once (h : s.Isolated) (x y : Nat × BitVec 32) (pa : BitVec 32)
    (hx : s.userPa x = some pa) (hy : s.userPa y = some pa) : x = y := by
  obtain ⟨hproc, hpde, hpte⟩ :=
    PageRef.data.inj (h.refs.once _ _ _ (refs_of_userPa hx) (refs_of_userPa hy))
  have hpage := addr_eq_iff.1 ⟨hpde, hpte⟩
  have hoff : x.2.toNat % pageSize = y.2.toNat % pageSize :=
    (toNat_userPa hx).2.symm.trans (toNat_userPa hy).2
  rw [pageSize] at hoff
  exact Prod.ext hproc (BitVec.eq_of_toNat_eq (by omega))

/-- The rest of the page follows a byte that is seen. -/
theorem userPa_add (hu : UserAddr p uva) (hp : Present (s.getPtblEntryByVa p uva))
    (hpa : s.userPa (p, uva) = some pa) (hi : uva.toNat % pageSize + i < pageSize) :
    s.userPa (p, uva + BitVec.ofNat 32 i) = some (pa + BitVec.ofNat 32 i) := by
  have hua : (uva + BitVec.ofNat 32 i).toNat = uva.toNat + i := toNat_add_of_page hi
  have hsame := addr_eq_iff.2 (show (uva + BitVec.ofNat 32 i).toNat / 4096 = uva.toNat / 4096 by
    rw [hua]
    rw [pageSize] at hi
    omega)
  have hentry : s.getPtblEntryByVa p (uva + BitVec.ofNat 32 i) = s.getPtblEntryByVa p uva := by
    rw [getPtblEntryByVa, hsame.1, hsame.2, getPtblEntryByVa]
  have hu' : UserAddr p (uva + BitVec.ofNat 32 i) := by
    obtain ⟨h0, hlt, hlo, hhi⟩ := hu
    refine ⟨h0, hlt, ?_⟩
    rw [hua]
    rw [pageSize] at hi
    rw [vmUserHi] at hhi ⊢
    omega
  obtain ⟨-, -, rfl⟩ := userPa_eq_some.1 hpa
  rw [userPa_eq hu' (hentry ▸ hp), hentry]
  refine congrArg some (BitVec.eq_of_toNat_eq ?_)
  have hoff : ((s.getPtblEntryByVa p uva &&& 0xfffff000#32) + uva % 4096#32).toNat % pageSize + i <
      pageSize := by
    rw [toNat_copyAddr, Nat.mul_add_mod_self_right, Nat.mod_mod]
    exact hi
  dsimp only
  rw [toNat_add_of_page hoff, toNat_copyAddr, toNat_copyAddr, hua, pageSize]
  rw [pageSize] at hi
  omega

/-! ## Writes -/

/-- What copies do to a state apart from the bytes: pages may be mapped where the process had none
among the virtual pages `W`, and memory outside of the pool for user pages is as before. -/
structure Widens (s s' : Vmm) (p : Nat) (W : Set Nat) : Prop where
  isolated : s'.Isolated
  normal : s'.mem.table.normal = s.mem.table.normal
  entry : ∀ q va, UserAddr q va → Present (s.getPtblEntryByVa q va) ∨
    ¬ (q = p ∧ va.toNat / pageSize ∈ W) → s'.getPtblEntryByVa q va = s.getPtblEntryByVa q va
  kernel : ∀ page ∉ s.mem.table.normal, s'.word page = s.word page

namespace Widens

variable {s₁ : Vmm} {W W' : Set Nat}

theorem refl (h : s.Isolated) : s.Widens s p W := ⟨h, rfl, fun _ _ _ _ => rfl, fun _ _ => rfl⟩

theorem mono (h : s.Widens s' p W) (hW : W ⊆ W') : s.Widens s' p W' :=
  ⟨h.isolated, h.normal, fun q va hu hva =>
    h.entry q va hu (hva.imp_right fun hn hc => hn ⟨hc.1, hW hc.2⟩), h.kernel⟩

theorem trans (h : s.Widens s₁ p W) (h' : s₁.Widens s' p W) : s.Widens s' p W := by
  refine ⟨h'.isolated, h'.normal.trans h.normal, fun q va hu hva => ?_, fun page hpage => ?_⟩
  · have hfirst := h.entry q va hu hva
    rw [h'.entry q va hu (hva.imp_left fun hp => hfirst ▸ hp), hfirst]
  · rw [h'.kernel page (h.normal ▸ hpage), h.kernel page hpage]

/-- The bytes outside of the pool are as before. -/
theorem byteAt (h : s.Widens s' p W) (hpa : pa.toNat / pageSize ∉ s.mem.table.normal) :
    s'.byteAt pa = s.byteAt pa := byteAt_congr (h.kernel _ hpa)

end Widens

/-- A change of pages that are not page tables. -/
theorem Isolated.of_word (h : s.Isolated) (hmem : s'.mem = s.mem) (hpdir : s'.pdir = s.pdir)
    (hword : ∀ q k, UserSlot q k → s.pdir q k ≠ 0 →
      s'.word (entryPage (s.pdir q k)) = s.word (entryPage (s.pdir q k))) :
    s'.Isolated ∧ ∀ q va, UserAddr q va → s'.getPtblEntryByVa q va = s.getPtblEntryByVa q va := by
  have hentry : ∀ q k l, UserSlot q k → s.pdir q k ≠ 0 → s'.getPtblEntry q k l =
      s.getPtblEntry q k l := by
    intro q k l hu hne
    rw [getPtblEntry, hpdir, hword q k hu hne, getPtblEntry]
  have htables : s'.tables = s.tables := funext fun x => by rw [tables, hpdir, tables]
  have hrefs : s'.refs = s.refs := by
    funext r
    cases r with
    | table q k => exact congrFun htables (q, k)
    | data q k l =>
      by_cases hx : UserSlot q k ∧ s.pdir q k ≠ 0
      · simp only [Vmm.refs, hpdir, hentry q k l hx.1 hx.2]
      · rw [Vmm.refs, Vmm.refs, if_neg fun hc => hx ⟨hc.1, hpdir ▸ hc.2.1⟩, if_neg fun hc =>
          hx ⟨hc.1, hc.2.1⟩]
  refine ⟨⟨⟨hmem ▸ h.ok, hpdir ▸ h.kernel, ?_⟩, ?_⟩, fun q va hu => ?_⟩
  · rw [htables, hmem]
    exact h.once
  · rw [hrefs, hmem]
    exact h.refs
  · have hsame : s'.getPdirEntry q (pdeAddr va) = s.getPdirEntry q (pdeAddr va) := by
      rw [getPdirEntry, hpdir, getPdirEntry]
    rw [getPtblEntryByVa, hsame, getPtblEntryByVa]
    split
    · exact hentry q _ _ hu.slot ‹_›
    · rfl

/-- A write to the page of a user address is seen from this address on, and nowhere else. -/
theorem Isolated.user_putBytes (h : s.Isolated) (hpa : s.userPa (p, uva) = some pa)
    (hl : uva.toNat % pageSize + l.length ≤ pageSize) :
    s.Widens (s.putBytes pa l) p ∅ ∧ (s.putBytes pa l).user =
    write nextAddr s.user (p, uva) (l.map some) := by
  obtain ⟨hu, hp, -⟩ := userPa_eq_some.1 hpa
  dsimp only at hu hp
  obtain ⟨hmem, hpdir, hword⟩ := @putBytes_frame s pa l
  have hoff : pa.toNat % pageSize = uva.toNat % pageSize := (toNat_userPa hpa).2
  -- all of the range is in one page
  have hframe : ∀ page, page ≠ pa.toNat / pageSize → (s.putBytes pa l).word page =
      s.word page := by
    refine fun page hne => hword page fun i hi heq => hne ?_
    rw [← heq, toNat_add_of_page (by omega)]
    rw [pageSize] at hoff hl ⊢
    omega
  have href := refs_of_userPa hpa
  obtain ⟨hisolated, hentry⟩ := h.of_word hmem hpdir fun q k hslot _ =>
    hframe _ (h.ne_table hslot (by simp) href).symm
  refine ⟨⟨hisolated, by
    rw [hmem], fun q va hu _ => hentry q va hu, fun page hn => hframe page ?_⟩, ?_⟩
  · rintro rfl
    exact hn (h.page_mem_normal hpa)
  · have hsame : (s.putBytes pa l).userPa = s.userPa := by
      funext x
      by_cases hx : UserAddr x.1 x.2
      · rw [userPa, hentry _ _ hx, userPa]
      · rw [userPa, userPa, if_neg fun hc => hx hc.1, if_neg fun hc => hx hc.1]
    rw [user, hsame, byteAt_putBytes]
    refine view_write h.userPa_once fun i hi => ?_
    rw [iterate_nextAddr, iterate_add_one]
    exact userPa_add hu hp hpa (by omega)

end Vmm

/-! ## Allocations -/

/-- The quota of a process and the free pages suffice for `n` more pages. -/
def Mem.Affords (m : Mem) (p n : Nat) : Prop :=
  (∀ k, 1 ≤ k → k ≤ n → ((m.container p).usage + BitVec.ofNat 32 k).sle (m.container p).quota) ∧
    m.table.taken.card + n ≤ m.table.normal.card

section
variable {m : Mem} {p n n' : Nat}

theorem Mem.Affords.mono (h : m.Affords p n) (hle : n' ≤ n) : m.Affords p n' :=
  ⟨fun k h1 hk => h.1 k h1 (hk.trans hle), (Nat.add_le_add_left hle _).trans h.2⟩

theorem Mem.affords_zero (hok : m.table.Ok) : m.Affords p 0 :=
  ⟨fun _ h1 hk => absurd (h1.trans hk) (by decide), Finset.card_le_card hok.taken_subset⟩

theorem Mem.normal_containerAlloc (hok : m.table.Ok) (p : Nat) :
    (m.containerAlloc p).1.table.normal = m.table.normal := by
  rw [Mem.containerAlloc]
  split
  · exact hok.palloc.normal
  · rfl

/-- A process can have `n + 1` pages if it gets one, and can have `n` more then. -/
theorem Mem.affords_succ_iff (hok : m.table.Ok) :
    m.Affords p (n + 1) ↔ (m.containerAlloc p).2 ≠ 0 ∧ (m.containerAlloc p).1.Affords p n := by
  by_cases hquota : ((m.container p).usage + 1).sle (m.container p).quota
  case neg =>
    rw [containerAlloc_of_refused hquota]
    exact ⟨fun h => absurd (h.1 1 le_rfl (Nat.le_add_left 1 n)) hquota, fun h => absurd rfl h.1⟩
  -- the `k`-th page after the first one is the `k + 1`-st
  have hshift : ∀ k, (m.container p).usage + 1 + BitVec.ofNat 32 k =
      (m.container p).usage + BitVec.ofNat 32 (k + 1) := fun k => by
    rw [BitVec.add_assoc, BitVec.add_comm 1, BitVec.ofNat_add]
    rfl
  rw [containerAlloc_of_quota hquota]
  constructor
  · intro ⟨hq, hcard⟩
    have hpage : m.table.palloc.2 ≠ 0 := by
      rw [Ne, hok.palloc_eq_zero_iff]
      omega
    refine ⟨hpage, fun k h1 hk => ?_, ?_⟩
    · simp only [update_self, hshift]
      exact hq (k + 1) (by omega) (by omega)
    · dsimp only
      rw [hok.palloc.normal, hok.card_palloc hpage]
      omega
  · rintro ⟨hpage, hq, hcard⟩
    simp only [update_self, hshift] at hq
    dsimp only at hpage hcard
    rw [hok.palloc.normal, hok.card_palloc hpage] at hcard
    refine ⟨fun k h1 hk => ?_, by omega⟩
    rcases h1.eq_or_lt with rfl | h2
    · exact hquota
    · obtain ⟨k, rfl⟩ := Nat.exists_eq_add_of_lt h2
      exact hq (1 + k) (by omega) (by omega)

/-- Where the quotas are covered by free pages, a process can have what its quota leaves. -/
theorem Mem.Covered.affords (h : m.Covered) (hp : p < numIds) :
    m.Affords p (m.container p).slack := by
  have husage := SContainer.slack_eq (h.usage p)
  have hquota := h.quota p
  have hsmall := h.small
  refine ⟨fun k h1 hk => ?_, ?_⟩
  · have hsum : ((m.container p).usage + BitVec.ofNat 32 k).toNat =
        (m.container p).usage.toNat + k := by
      rw [BitVec.toNat_add, BitVec.toNat_ofNat, Nat.mod_eq_of_lt (a := k) (by omega),
        Nat.mod_eq_of_lt (by omega)]
    rw [BitVec.sle_iff_toInt_le, toInt_of_lt (by omega), toInt_of_lt (by omega), hsum]
    exact_mod_cast (by omega : (m.container p).usage.toNat + k ≤ (m.container p).quota.toNat)
  · have hle := h.le
    have hslack : (m.container p).slack ≤ ∑ id ∈ Finset.range numIds, (m.container id).slack :=
      Finset.single_le_sum (f := fun id => (m.container id).slack) (fun _ _ => Nat.zero_le _)
        (Finset.mem_range.2 hp)
    omega

end

namespace Vmm

variable {s s' : Vmm} {p q i j page n : Nat} {va va' pa uva perm e : BitVec 32}
  {l : List (BitVec 8)} {b : BitVec 8}

theorem mem_mapPage : (s.mapPage p va page perm).1.mem =
    if s.getPdirEntryByVa p va = 0 then (s.mem.containerAlloc p).1 else s.mem := by
  rw [mapPage]
  dsimp only
  split
  · by_cases h0 : (s.mem.containerAlloc p).2 = 0
    · simp only [allocPtbl, if_pos h0, if_true]
    · simp only [allocPtbl, if_neg h0, setPtblEntry, putWord]
      rw [(clearPtbl_spec _ _ _ _).1]
      rfl
  · rfl

theorem mem_allocPage : (s.allocPage p va perm).1.mem =
    if (s.mem.containerAlloc p).2 ≠ 0 ∧ s.getPdirEntryByVa p va = 0 then
      ((s.mem.containerAlloc p).1.containerAlloc p).1
    else (s.mem.containerAlloc p).1 := by
  rw [allocPage]
  dsimp only
  by_cases h0 : (s.mem.containerAlloc p).2 = 0
  · rw [if_neg (not_not.2 h0), if_neg fun hc => hc.1 h0]
  · rw [if_pos h0, mem_mapPage]
    simp only [h0, ne_eq, not_false_eq_true, true_and]
    rfl

theorem normal_allocPage (hok : s.mem.table.Ok) :
    (s.allocPage p va perm).1.mem.table.normal = s.mem.table.normal := by
  have hfirst := Mem.normal_containerAlloc hok p
  rw [mem_allocPage]
  split
  · rw [Mem.normal_containerAlloc (Mem.grants_containerAlloc hok p).ok, hfirst]
  · exact hfirst

/-- A process can have `n` pages beyond those that `alloc_page` needs if the call succeeds, and the
process can have `n` more then. -/
theorem affords_allocPage_iff (hok : s.mem.table.Ok) :
    s.mem.Affords p (s.pagesNeeded p va + n) ↔
      (s.allocPage p va perm).2 ≠ magicNumber ∧ (s.allocPage p va perm).1.mem.Affords p n := by
  rcases allocPage_cases_of_ok hok va perm with ⟨hs, hr⟩ | ⟨hs, hr, -⟩
  case inr => exact ⟨fun h => absurd (h.mono (Nat.le_add_right _ _)) hs, fun h => absurd hr h.1⟩
  have hok' := (Mem.grants_containerAlloc hok p).ok
  rw [mem_allocPage, and_iff_right hr]
  by_cases hpde : s.getPdirEntryByVa p va = 0
  · have htwo : s.mem.Affords p (0 + 1 + 1) := by
      rw [Supplied, pagesNeeded, if_pos hpde] at hs
      exact hs
    have hfirst := (Mem.affords_succ_iff hok).1 htwo
    rw [if_pos ⟨hfirst.1, hpde⟩, pagesNeeded, if_pos hpde, show 2 + n = n + 1 + 1 by omega,
      Mem.affords_succ_iff hok, Mem.affords_succ_iff hok', and_iff_right hfirst.1,
      and_iff_right ((Mem.affords_succ_iff hok').1 hfirst.2).1]
  · have hone : s.mem.Affords p (0 + 1) := by
      rw [Supplied, pagesNeeded, if_neg hpde] at hs
      exact hs
    rw [if_neg fun hc => hpde hc.2, pagesNeeded, if_neg hpde, Nat.add_comm,
      Mem.affords_succ_iff hok, and_iff_right ((Mem.affords_succ_iff hok).1 hone).1]

/-- What `alloc_page` does to the entries. -/
theorem Tables.entry_allocPage (h : s.Tables) (hu : UserAddr p va) (q : Nat) (va' : BitVec 32) :
    (s.allocPage p va perm).1.getPtblEntryByVa q va' =
      if (s.allocPage p va perm).2 ≠ magicNumber ∧ q = p ∧ va'.toNat / pageSize =
      va.toNat / pageSize then
        pageEntry (s.mem.containerAlloc p).2 perm
      else s.getPtblEntryByVa q va' := by
  obtain ⟨m, hg, heq⟩ := h.allocPage_cases p va perm
  have hm : Tables { s with mem := m } := h.setMem hg.ok hg.subset
  rw [heq]
  simp only [pageSize, ← addr_eq_iff]
  split
  · exact hm.entryAt_mapPage hu (pteAddr_lt va')
  · exact (if_neg fun hc => hc.1 rfl).symm

/-- The low bits of an entry are its permission. -/
theorem pageEntry_and (page : Nat) (perm : BitVec 32) {mask : BitVec 32}
    (hmask : mask.toNat < 4096) :
    pageEntry page perm &&& mask = perm &&& mask := by
  refine BitVec.eq_of_getLsbD_eq fun i _ => ?_
  rw [pageEntry, BitVec.getLsbD_and, BitVec.getLsbD_and, BitVec.getLsbD_or,
    BitVec.getLsbD_shiftLeft]
  rcases Nat.lt_or_ge i 12 with hi | hi
  · simp [hi]
  · have hpow : 2 ^ 12 ≤ 2 ^ i := Nat.pow_le_pow_right (by decide) hi
    have hbit : mask.getLsbD i = false := Nat.testBit_lt_two_pow (hmask.trans_le hpow)
    rw [hbit, Bool.and_false, Bool.and_false]

theorem present_of_perm (h : Present perm) (page : Nat) : Present (pageEntry page perm) := by
  rw [Present, pageEntry_and page perm (by decide : (1 : BitVec 32).toNat < 4096)]
  exact h

/-- What `alloc_page` does to the directory, if it succeeds. -/
theorem Tables.pdir_allocPage (h : s.Tables) (hu : UserAddr p va)
    (hr : (s.allocPage p va perm).2 ≠ magicNumber) :
    (s.allocPage p va perm).1.pdir p (pdeAddr va) ≠ 0 ∧
      ∀ q k, ¬ (q = p ∧ k = pdeAddr va) → (s.allocPage p va perm).1.pdir q k = s.pdir q k := by
  obtain ⟨m, hg, heq⟩ := h.allocPage_cases p va perm
  have hm : Tables { s with mem := m } := h.setMem hg.ok hg.subset
  rw [heq] at hr ⊢
  split at hr
  · rw [if_pos ‹_›]
    rcases hm.mapPage_cases hu (s.mem.containerAlloc p).2 perm with ⟨hmagic, -⟩ |
      ⟨-, s₁, hmapped, heq⟩
    · exact absurd hmagic hr
    · rw [heq]
      refine ⟨hmapped.pdir, fun q k hne => ?_⟩
      rcases hmapped.cases with rfl | ⟨page, -, hnew⟩
      · rfl
      · exact hnew.pdir_of_ne hne
  · exact absurd rfl hr

/-- `alloc_page` changes no page that is referred to as data, and no page outside of the pool. -/
theorem Isolated.word_allocPage (h : s.Isolated) (hu : UserAddr p va)
    (hpage : page ∉ s.mem.table.normal ∨ ∃ q k l, s.refs (.data q k l) = some page) :
    (s.allocPage p va perm).1.word page = s.word page := by
  obtain ⟨m, hg, heq⟩ := h.toTables.allocPage_cases p va perm
  have hm : Isolated { s with mem := m } := h.setMem hg.ok hg.subset
  have hnormal : (s.allocPage p va perm).1.mem.table.normal = _ := normal_allocPage h.ok
  rw [heq] at hnormal ⊢
  split
  case isFalse => rfl
  case isTrue h0 =>
    rw [if_pos h0] at hnormal
    rcases hm.toTables.mapPage_cases hu (s.mem.containerAlloc p).2 perm with ⟨-, m', -, -, heq⟩ |
      ⟨-, s₁, hmapped, heq⟩
    · rw [heq]
    · rw [heq] at hnormal ⊢
      replace hnormal : s₁.mem.table.normal = s.mem.table.normal := hnormal
      -- the page is not the page table in which the entry is set
      have htable : page ≠ entryPage (s₁.pdir p (pdeAddr va)) ∧ s₁.word page = s.word page := by
        rcases hmapped.cases with rfl | ⟨table, -, hnew⟩
        · refine ⟨?_, rfl⟩
          rcases hpage with hout | ⟨q, k, l, href⟩
          · rintro rfl
            rw [← hnormal] at hout
            exact hout (hm.ok.taken_subset (hm.mem_taken hu.slot hmapped.pdir))
          · exact h.ne_table hu.slot (by simp) href
        · have hne : page ≠ table := by
            rintro rfl
            have htaken : page ∈ s₁.mem.table.taken := hnew.taken ▸ Finset.mem_insert_self _ _
            rcases hpage with hout | ⟨q, k, l, href⟩
            · rw [← hnormal] at hout
              exact hout (hnew.ok.taken_subset htaken)
            · exact hnew.fresh (hg.subset (Finset.mem_coe.1 (h.refs.used _ _ href)))
          rw [hnew.entryPage_self]
          exact ⟨hne, hnew.word page hne⟩
      rw [← htable.2]
      exact update_of_ne htable.1 _ _

/-- `alloc_page` widens the pages of the process by one, and changes nothing that processes see. -/
theorem Isolated.user_allocPage (h : s.Isolated) (hu : UserAddr p va) (hperm : perm.toNat < 4096)
    (habsent : ¬ Present (s.getPtblEntryByVa p va)) :
    s.Widens (s.allocPage p va perm).1 p {va.toNat / pageSize} ∧
      Memory.Extends s.user (s.allocPage p va perm).1.user := by
  have hentry : ∀ q va', Present (s.getPtblEntryByVa q va') ∨
    ¬ (q = p ∧ va'.toNat / pageSize = va.toNat / pageSize) →
      (s.allocPage p va perm).1.getPtblEntryByVa q va' = s.getPtblEntryByVa q va' := by
    intro q va' hcase
    rw [h.toTables.entry_allocPage hu, if_neg]
    rintro ⟨-, rfl, hpage⟩
    rcases hcase with hp | hne
    · have hsame := addr_eq_iff.2 hpage
      rw [getPtblEntryByVa, hsame.1, hsame.2] at hp
      exact habsent hp
    · exact hne ⟨rfl, hpage⟩
  refine ⟨⟨h.allocPage hu hperm, normal_allocPage h.ok, fun q va' _ hcase => hentry q va' hcase,
    fun page hout =>
    h.word_allocPage hu (.inl hout)⟩, ?_⟩
  rintro ⟨q, va'⟩ b hb
  obtain ⟨pa, hpa, rfl⟩ := Option.map_eq_some_iff.1 hb
  obtain ⟨hu', hp', hpaeq⟩ := userPa_eq_some.1 hpa
  dsimp only at hu' hp' hpaeq
  have hsame := hentry q va' (.inl hp')
  refine Option.map_eq_some_iff.2 ⟨pa, userPa_eq_some.2 ⟨hu', hsame ▸ hp', hsame ▸ hpaeq⟩, ?_⟩
  exact byteAt_congr (h.word_allocPage hu (.inr ⟨_, _, _, refs_of_userPa hpa⟩))

end Vmm

end MCertikos
