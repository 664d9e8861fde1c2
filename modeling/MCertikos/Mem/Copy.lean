import MCertikos.Mem.AllocPage

/-!
# Copying between the kernel and user memory

`pt_copyin` and `pt_copyout` go through a range of user addresses page by page. For each page they
read the entry of the page table, call `alloc_page` if the page is not present, read the entry
again, and access physical memory at the page of the entry. Neither looks at the result of
`alloc_page`.

The kernel runs on the page directory of process 0, where addresses are physical addresses. A
`Turn` records one turn of a loop: the state in which memory is accessed, the user address, the
physical address, the number of bytes, and what `alloc_page` returned if it was called. What memory
a copy touches is a property of the turns; both loops make turns in the sense of `Turns`, whatever
the writes do to the page tables.
-/

namespace MCertikos

/-- Reference: `PAGESIZE` (`kern/lib/pmap.c:9`). -/
def pageSize : Nat := 4096

namespace Vmm

variable (s : Vmm) (p : Nat)

/-! ## Bytes of physical memory -/

/-- Words are stored with the low byte first. -/
def byteAt (pa : BitVec 32) : BitVec 8 :=
  (s.word (pa.toNat / pageSize) (pa.toNat % pageSize / 4) >>> (8 * (pa.toNat % 4))).setWidth 8

def putByte (pa : BitVec 32) (b : BitVec 8) : Vmm :=
  let shift := 8 * (pa.toNat % 4)
  let old := s.word (pa.toNat / pageSize) (pa.toNat % pageSize / 4)
  s.putWord (pa.toNat / pageSize) (pa.toNat % pageSize / 4)
    ((old &&& ~~~(0xff#32 <<< shift)) ||| (b.setWidth 32 <<< shift))

/-- `memcpy` from physical memory. -/
def bytesAt (pa : BitVec 32) (n : Nat) : List (BitVec 8) :=
  (List.range n).map fun k => s.byteAt (pa + BitVec.ofNat 32 k)

/-- `memcpy` to physical memory. -/
def putBytes (s : Vmm) (pa : BitVec 32) : List (BitVec 8) → Vmm
  | [] => s
  | b :: bs => (s.putByte pa b).putBytes (pa + 1) bs

end Vmm

/-! ## The loops -/

/-- One turn of the loop of a copy, when memory is accessed. -/
structure Turn where
  vmm : Vmm
  uva : BitVec 32
  pa : BitVec 32
  size : Nat
  /-- The result of `alloc_page`, if it was called. -/
  allocated : Option Nat

namespace Vmm

variable (s : Vmm) (p : Nat)

/-- The turn at the user address `uva`, with `len` bytes left. Reference: the loops of `pt_copyin`
and `pt_copyout` (`kern/lib/pmap.c:29`, `:63`). -/
def copyTurn (uva : BitVec 32) (len : Nat) : Turn :=
  let entry := s.getPtblEntryByVa p uva
  let (s', entry, allocated) :=
    if entry &&& 1 = 0 then
      let r := s.allocPage p uva 7
      (r.1, r.1.getPtblEntryByVa p uva, some r.2)
    else (s, entry, none)
  let pa := (entry &&& 0xfffff000#32) + uva % 4096#32
  { vmm := s'
    uva
    pa
    size := if len < pageSize - pa.toNat % pageSize then len else pageSize - pa.toNat % pageSize
    allocated }

/-- The loop of `pt_copyin`; a turn copies at least one byte, so `len` turns suffice. -/
def copyinLoop : (fuel : Nat) → Vmm → BitVec 32 → (len : Nat) → Vmm × List (BitVec 8) × List Turn
  | 0, s, _, _ => (s, [], [])
  | fuel + 1, s, uva, len =>
    if len = 0 then (s, [], [])
    else
      let t := s.copyTurn p uva len
      let r := copyinLoop fuel t.vmm (uva + BitVec.ofNat 32 t.size) (len - t.size)
      (r.1, t.vmm.bytesAt t.pa t.size ++ r.2.1, t :: r.2.2)

/-- The loop of `pt_copyout` with the bytes of the kernel that are left. -/
def copyoutLoop : (fuel : Nat) → Vmm → BitVec 32 → List (BitVec 8) → Vmm × List Turn
  | 0, s, _, _ => (s, [])
  | fuel + 1, s, uva, data =>
    if data.length = 0 then (s, [])
    else
      let t := s.copyTurn p uva data.length
      let r := copyoutLoop fuel (t.vmm.putBytes t.pa (data.take t.size))
        (uva + BitVec.ofNat 32 t.size) (data.drop t.size)
      (r.1, t :: r.2)

/-- The tests before the loops; the sums are unsigned 32-bit words. -/
def copyTest (uva kva len : BitVec 32) : Bool :=
  (vmUserLo ≤ uva.toNat ∧ (uva + len).toNat ≤ vmUserHi) ∧ ¬ vmUserHi < (kva + len).toNat

/-- The bytes that were read; their number is the result of the function. Reference: `pt_copyin`
(`kern/lib/pmap.c:19`). -/
def ptCopyin (uva kva len : BitVec 32) : Vmm × List (BitVec 8) × List Turn :=
  if copyTest uva kva len then copyinLoop p len.toNat s uva len.toNat else (s, [], [])

/-- Copies `len` bytes that start at `kva`, where `kbyte` are the bytes of the kernel. Reference:
`pt_copyout` (`kern/lib/pmap.c:53`). -/
def ptCopyout (kbyte : Nat → BitVec 8) (kva uva len : BitVec 32) : Vmm × List Turn :=
  if copyTest uva kva len then
    copyoutLoop p len.toNat s uva ((List.range len.toNat).map kbyte)
  else (s, [])

end Vmm

/-! ## Turns -/

/-- The turns of a copy of `len` bytes from `uva` on. The states at the starts of the turns are
arbitrary. -/
inductive Turns (p : Nat) : BitVec 32 → Nat → List Turn → Prop
  | done {uva : BitVec 32} : Turns p uva 0 []
  | turn {s : Vmm} {uva : BitVec 32} {len : Nat} {ts : List Turn} : 0 < len →
      Turns p (uva + BitVec.ofNat 32 (s.copyTurn p uva len).size)
      (len - (s.copyTurn p uva len).size)
        ts →
      Turns p uva len (s.copyTurn p uva len :: ts)

namespace Vmm

variable {s : Vmm} {p : Nat} {uva : BitVec 32} {len : Nat}

/-- `ADDR_MASK` clears the low 12 bits. -/
theorem toNat_addrMask (e : BitVec 32) : (e &&& 0xfffff000#32).toNat = entryPage e * pageSize := by
  have hshift : e &&& 0xfffff000#32 = (e >>> 12) <<< 12 := by
    ext i hi
    simp only [BitVec.getElem_and, BitVec.getElem_shiftLeft]
    interval_cases i <;> simp [BitVec.getLsbD_eq_getElem]
  have hlt := e.isLt
  rw [hshift, BitVec.toNat_shiftLeft, BitVec.toNat_ushiftRight, Nat.shiftLeft_eq,
    Nat.shiftRight_eq_div_pow, entryPage_eq, pageSize]
  omega

/-- The physical address has the offset of the user address in the page of the entry. -/
theorem toNat_copyAddr (e uva : BitVec 32) :
    ((e &&& 0xfffff000#32) + uva % 4096#32).toNat =
      entryPage e * pageSize + uva.toNat % pageSize := by
  have hlt := entryPage_lt e
  have hoff : (uva % 4096#32).toNat = uva.toNat % pageSize := BitVec.toNat_umod
  have hmod := Nat.mod_lt uva.toNat (by decide : 0 < pageSize)
  rw [BitVec.toNat_add, toNat_addrMask, hoff, Nat.mod_eq_of_lt]
  rw [pageSize] at *
  omega

/-- The entry that a turn uses. -/
def turnEntry (s : Vmm) (p : Nat) (uva : BitVec 32) : BitVec 32 :=
  if Present (s.getPtblEntryByVa p uva) then s.getPtblEntryByVa p uva
  else (s.allocPage p uva 7).1.getPtblEntryByVa p uva

theorem copyTurn_of_present (h : Present (s.getPtblEntryByVa p uva)) :
    (s.copyTurn p uva len).vmm = s ∧ (s.copyTurn p uva len).allocated = none := by
  have hne : ¬ s.getPtblEntryByVa p uva &&& 1 = 0 := h
  simp only [copyTurn, if_neg hne, and_self]

theorem copyTurn_of_absent (h : ¬ Present (s.getPtblEntryByVa p uva)) :
    (s.copyTurn p uva len).vmm = (s.allocPage p uva 7).1 ∧
      (s.copyTurn p uva len).allocated = some (s.allocPage p uva 7).2 := by
  have heq : s.getPtblEntryByVa p uva &&& 1 = 0 := not_not.1 h
  simp only [copyTurn, if_pos heq, and_self]

@[simp] theorem copyTurn_uva : (s.copyTurn p uva len).uva = uva := rfl

/-- A turn uses the entry that the page table has when memory is accessed. -/
theorem entry_copyTurn :
    (s.copyTurn p uva len).vmm.getPtblEntryByVa p uva = s.turnEntry p uva := by
  by_cases h : Present (s.getPtblEntryByVa p uva)
  · rw [(copyTurn_of_present h).1, turnEntry, if_pos h]
  · rw [(copyTurn_of_absent h).1, turnEntry, if_neg h]

theorem pa_copyTurn : (s.copyTurn p uva len).pa.toNat =
    entryPage (s.turnEntry p uva) * pageSize + uva.toNat % pageSize := by
  rw [← toNat_copyAddr]
  by_cases h : Present (s.getPtblEntryByVa p uva)
  · have hne : ¬ s.getPtblEntryByVa p uva &&& 1 = 0 := h
    simp only [copyTurn, if_neg hne, turnEntry, if_pos h]
  · have heq : s.getPtblEntryByVa p uva &&& 1 = 0 := not_not.1 h
    simp only [copyTurn, if_pos heq, turnEntry, if_neg h]

/-- A turn goes to the end of the page at most. -/
theorem size_copyTurn :
    (s.copyTurn p uva len).size = min len (pageSize - uva.toNat % pageSize) := by
  have hoff : (s.copyTurn p uva len).pa.toNat % pageSize = uva.toNat % pageSize := by
    rw [pa_copyTurn, Nat.mul_add_mod_self_right, Nat.mod_mod]
  have hsize : (s.copyTurn p uva len).size =
      if len < pageSize - (s.copyTurn p uva len).pa.toNat % pageSize then len
      else pageSize - (s.copyTurn p uva len).pa.toNat % pageSize := rfl
  rw [hsize, hoff]
  split <;> omega

theorem size_pos (h : 0 < len) : 0 < (s.copyTurn p uva len).size := by
  have hmod := Nat.mod_lt uva.toNat (by decide : 0 < pageSize)
  rw [size_copyTurn]
  omega

theorem size_le : (s.copyTurn p uva len).size ≤ len := by
  rw [size_copyTurn]
  exact Nat.min_le_left _ _

/-- The loop of `pt_copyin` makes turns, and reads `len` bytes. -/
theorem copyinLoop_turns (p : Nat) : ∀ (fuel : Nat) (s : Vmm) (uva : BitVec 32) (len : Nat),
    len ≤ fuel → Turns p uva len (copyinLoop p fuel s uva len).2.2 ∧
      (copyinLoop p fuel s uva len).2.1.length = len
  | 0, s, uva, len, h => by
    obtain rfl : len = 0 := Nat.le_zero.1 h
    exact ⟨.done, rfl⟩
  | fuel + 1, s, uva, len, h => by
    rw [copyinLoop]
    by_cases h0 : len = 0
    · rw [if_pos h0, h0]
      exact ⟨.done, rfl⟩
    · rw [if_neg h0]
      have hpos : 0 < (s.copyTurn p uva len).size := size_pos (Nat.pos_of_ne_zero h0)
      have hle : (s.copyTurn p uva len).size ≤ len := size_le
      obtain ⟨hturns, hlen⟩ := copyinLoop_turns p fuel (s.copyTurn p uva len).vmm
        (uva + BitVec.ofNat 32 (s.copyTurn p uva len).size)
        (len - (s.copyTurn p uva len).size) (by omega)
      refine ⟨.turn (Nat.pos_of_ne_zero h0) hturns, ?_⟩
      simp only [List.length_append, bytesAt, List.length_map, List.length_range, hlen]
      omega

/-- The loop of `pt_copyout` makes turns. -/
theorem copyoutLoop_turns (p : Nat) : ∀ (fuel : Nat) (s : Vmm) (uva : BitVec 32)
    (data : List (BitVec 8)), data.length ≤ fuel →
      Turns p uva data.length (copyoutLoop p fuel s uva data).2
  | 0, s, uva, data, h => by
    rw [Nat.le_zero.1 h]
    exact .done
  | fuel + 1, s, uva, data, h => by
    rw [copyoutLoop]
    by_cases h0 : data.length = 0
    · rw [if_pos h0, h0]
      exact .done
    · rw [if_neg h0]
      have hpos : 0 < (s.copyTurn p uva data.length).size := size_pos (Nat.pos_of_ne_zero h0)
      have hturns := copyoutLoop_turns p fuel
        ((s.copyTurn p uva data.length).vmm.putBytes (s.copyTurn p uva data.length).pa
          (data.take (s.copyTurn p uva data.length).size))
        (uva + BitVec.ofNat 32 (s.copyTurn p uva data.length).size)
        (data.drop (s.copyTurn p uva data.length).size)
        (by rw [List.length_drop]; omega)
      rw [List.length_drop] at hturns
      exact .turn (Nat.pos_of_ne_zero h0) hturns

end Vmm

/-- A copy accesses the addresses of its range, one after the other. -/
theorem Turns.addresses {p : Nat} {uva : BitVec 32} {len : Nat} {ts : List Turn}
    (h : Turns p uva len ts) {t : Turn} (ht : t ∈ ts) {k : Nat} (hk : k < t.size) :
    ∃ i < len, t.uva + BitVec.ofNat 32 k = uva + BitVec.ofNat 32 i := by
  induction h with
  | done => cases ht
  | @turn s uva len ts _ _ ih =>
    have hle : (s.copyTurn p uva len).size ≤ len := Vmm.size_le
    rcases List.mem_cons.1 ht with rfl | ht
    · exact ⟨k, by omega, rfl⟩
    · obtain ⟨i, hi, heq⟩ := ih ht
      refine ⟨(s.copyTurn p uva len).size + i, by omega, ?_⟩
      rw [heq, BitVec.add_assoc, BitVec.ofNat_add]

/-- A copy accesses all addresses of its range. -/
theorem Turns.covers {p : Nat} {uva : BitVec 32} {len : Nat} {ts : List Turn}
    (h : Turns p uva len ts) {i : Nat} (hi : i < len) :
    ∃ t ∈ ts, ∃ k < t.size, t.uva + BitVec.ofNat 32 k = uva + BitVec.ofNat 32 i := by
  induction h generalizing i with
  | done => omega
  | @turn s uva len ts _ _ ih =>
    rcases Nat.lt_or_ge i (s.copyTurn p uva len).size with hlt | hge
    · exact ⟨_, List.mem_cons_self, i, hlt, rfl⟩
    · obtain ⟨t, ht, k, hk, heq⟩ := @ih (i - (s.copyTurn p uva len).size) (by omega)
      refine ⟨t, List.mem_cons_of_mem _ ht, k, hk, heq.trans ?_⟩
      rw [BitVec.add_assoc, ← BitVec.ofNat_add, Nat.add_sub_cancel' hge]

/-! ## The pages of a process -/

/-- Each byte that the turn accesses is the byte of a present page that the page table has at the
user address. -/
def Turn.Mapped (t : Turn) (p : Nat) : Prop :=
  ∀ k < t.size,
    Present (t.vmm.getPtblEntryByVa p (t.uva + BitVec.ofNat 32 k)) ∧
    (t.pa + BitVec.ofNat 32 k).toNat / pageSize =
      entryPage (t.vmm.getPtblEntryByVa p (t.uva + BitVec.ofNat 32 k)) ∧
    (t.pa + BitVec.ofNat 32 k).toNat % pageSize =
      (t.uva + BitVec.ofNat 32 k).toNat % pageSize

namespace Vmm

variable {s : Vmm} {p : Nat} {va uva perm : BitVec 32} {len : Nat}

theorem present_pageEntry (page : Nat) : Present (pageEntry page 7) := by
  intro h
  have hbit := congrArg (·.getLsbD 0) h
  simp [pageEntry] at hbit

/-- A new page table is entered in the directory. -/
theorem pdir_allocPtbl (h : (s.allocPtbl p va).2 ≠ 0) :
    (s.allocPtbl p va).1.pdir p (pdeAddr va) ≠ 0 := by
  by_cases h0 : (s.mem.containerAlloc p).2 = 0
  · simp only [allocPtbl, if_pos h0] at h
    exact absurd rfl h
  · simp only [allocPtbl, if_neg h0]
    rw [(clearPtbl_spec _ _ _ _).2.1]
    simp only [setPdirEntry, putPdir, Function.update_self]
    intro he
    have hp : Present (pageEntry (s.mem.containerAlloc p).2 7) := present_pageEntry _
    exact hp (by rw [show pageEntry (s.mem.containerAlloc p).2 7 = 0 from he]; rfl)

/-- After a successful `map_page` the page table has the entry. -/
theorem mapPage_entry {page : Nat} (h : (s.mapPage p va page perm).2 ≠ magicNumber) :
    (s.mapPage p va page perm).1.getPtblEntryByVa p va = pageEntry page perm := by
  -- the entry is read from the place where it was written, whatever page the table is
  have hread : ∀ s' : Vmm, s'.pdir p (pdeAddr va) ≠ 0 →
      (s'.setPtblEntry p (pdeAddr va) (pteAddr va) page perm).getPtblEntryByVa p va =
        pageEntry page perm := by
    intro s' hne
    have hpdir : (s'.setPtblEntry p (pdeAddr va) (pteAddr va) page perm).getPdirEntry p
        (pdeAddr va) ≠ 0 := hne
    rw [getPtblEntryByVa, if_pos hpdir]
    simp [getPtblEntry, setPtblEntry, putWord]
  rw [mapPage] at h ⊢
  dsimp only at h ⊢
  by_cases hpde : s.getPdirEntryByVa p va = 0
  · rw [if_pos hpde] at h ⊢
    by_cases h0 : (s.allocPtbl p va).2 = 0
    · rw [if_pos h0] at h
      exact absurd rfl h
    · rw [if_neg h0]
      exact hread _ (pdir_allocPtbl h0)
  · rw [if_neg hpde]
    exact hread s hpde

/-- After a successful `alloc_page` the page is present. -/
theorem allocPage_present (h : (s.allocPage p va 7).2 ≠ magicNumber) :
    Present ((s.allocPage p va 7).1.getPtblEntryByVa p va) := by
  rw [allocPage] at h ⊢
  dsimp only at h ⊢
  by_cases h0 : (s.mem.containerAlloc p).2 = 0
  · rw [if_neg (not_not.2 h0)] at h
    exact absurd rfl h
  · rw [if_pos h0] at h ⊢
    rw [mapPage_entry h]
    exact present_pageEntry _

/-- The entry that a turn uses is present if it was before, or if the process can have the pages
that `alloc_page` needs. -/
theorem present_turnEntry_iff (hok : s.mem.table.Ok) :
    Present (s.turnEntry p uva) ↔ Present (s.getPtblEntryByVa p uva) ∨ s.Supplied p uva := by
  by_cases hp : Present (s.getPtblEntryByVa p uva)
  · rw [turnEntry, if_pos hp]
    exact ⟨.inl, fun _ => hp⟩
  rw [turnEntry, if_neg hp]
  rcases allocPage_cases_of_ok hok uva 7 with ⟨hs, hr⟩ | ⟨hs, -, hentry⟩
  · exact ⟨fun _ => .inr hs, fun _ => allocPage_present hr⟩
  · rw [hentry]
    exact ⟨fun h => absurd h hp, fun h => h.resolve_right hs⟩

/-- The offsets of the bytes of a turn stay in the page. -/
theorem toNat_add_of_page {a : BitVec 32} {k : Nat} (hk : a.toNat % pageSize + k < pageSize) :
    (a + BitVec.ofNat 32 k).toNat = a.toNat + k := by
  have hlt := a.isLt
  rw [pageSize] at hk
  have hsum : a.toNat + k < 2 ^ 32 := by omega
  rw [BitVec.toNat_add, BitVec.toNat_ofNat, Nat.mod_eq_of_lt (a := k) (by omega),
    Nat.mod_eq_of_lt hsum]

/-- A turn accesses bytes of a page that the process has at the user address exactly if the entry
that it uses is present. -/
theorem copyTurn_mapped_iff (hlen : 0 < len) :
    (s.copyTurn p uva len).Mapped p ↔ Present (s.turnEntry p uva) := by
  refine ⟨fun hm => ?_, fun h k hk => ?_⟩
  · have hfirst := (hm 0 (size_pos hlen)).1
    rwa [copyTurn_uva, BitVec.add_zero, entry_copyTurn] at hfirst
  rw [size_copyTurn] at hk
  have hoff : uva.toNat % pageSize + k < pageSize := by omega
  have hpa : (s.copyTurn p uva len).pa.toNat =
      entryPage (s.turnEntry p uva) * pageSize + uva.toNat % pageSize := pa_copyTurn
  have hpaoff : (s.copyTurn p uva len).pa.toNat % pageSize = uva.toNat % pageSize := by
    rw [hpa, Nat.mul_add_mod_self_right, Nat.mod_mod]
  have hua : (uva + BitVec.ofNat 32 k).toNat = uva.toNat + k := toNat_add_of_page hoff
  have hpk : ((s.copyTurn p uva len).pa + BitVec.ofNat 32 k).toNat =
      (s.copyTurn p uva len).pa.toNat + k := toNat_add_of_page (by omega)
  -- the byte is in the same virtual page as the start of the turn
  have hsame := addr_eq_iff.2 (show (uva + BitVec.ofNat 32 k).toNat / 4096 = uva.toNat / 4096 by
    rw [hua]
    rw [pageSize] at hoff
    omega)
  have hentry : (s.copyTurn p uva len).vmm.getPtblEntryByVa p (uva + BitVec.ofNat 32 k) =
      s.turnEntry p uva := by
    rw [getPtblEntryByVa, hsame.1, hsame.2]
    exact entry_copyTurn
  rw [copyTurn_uva, hentry, hpk, hua]
  refine ⟨h, ?_, ?_⟩
  · rw [hpa, Nat.add_assoc, Nat.mul_comm, Nat.mul_add_div (by decide), Nat.div_eq_of_lt hoff,
      Nat.add_zero]
  · rw [Nat.add_mod, hpaoff, ← Nat.add_mod]

end Vmm

end MCertikos
