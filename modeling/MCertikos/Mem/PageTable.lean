import MCertikos.Lib.Ownership
import MCertikos.Mem.Container

/-!
# Page tables

The virtual memory layers `kern/vmm`. Each process has a page directory in `PDirPool`; its entries
point to page tables, which are physical pages that are allocated like the pages they map. Physical
memory is modelled by the words of each page. The entries of a directory for kernel addresses point
to the identity tables `IDPTbl`, which are kernel memory below the pages that are given out; the
page number at which they start is set by the linker.
-/

namespace MCertikos

/-- Reference: `VM_USERLO` (`kern/vmm/MPTKern/MPTKern.c:8`). -/
def vmUserLo : Nat := 0x40000000

/-- Reference: `VM_USERHI` (`kern/vmm/MPTKern/MPTKern.c:9`). -/
def vmUserHi : Nat := 0xF0000000

/-- Reference: `VM_USERLO_PDE` (`kern/vmm/MPTKern/MPTKern.c:10`). -/
def userLoPde : Nat := 256

/-- Reference: `VM_USERHI_PDE` (`kern/vmm/MPTKern/MPTKern.c:11`). -/
def userHiPde : Nat := 960

/-- Reference: `MagicNumber` (`kern/lib/x86.h:110`). -/
def magicNumber : Nat := 1048577

/-- Reference: `PDE_ADDR` (`kern/vmm/MPTOp/MPTOp.c:5`). -/
def pdeAddr (va : BitVec 32) : Nat := (va >>> 22).toNat

/-- Reference: `PTE_ADDR` (`kern/vmm/MPTOp/MPTOp.c:6`). -/
def pteAddr (va : BitVec 32) : Nat := ((va >>> 12) &&& 0x3ff).toNat

/-- An entry for a page with some permission bits: `(page_index << 12) | perm`. -/
def pageEntry (page : Nat) (perm : BitVec 32) : BitVec 32 := (BitVec.ofNat 32 page <<< 12) ||| perm

/-- The page that an entry points to: `entry >> 12`, which is the page of `ADDR_MASK(entry)`. -/
def entryPage (e : BitVec 32) : Nat := (e >>> 12).toNat

/-- The entry has `PTE_P`. -/
def Present (e : BitVec 32) : Prop := e &&& 1 ≠ 0

instance (e : BitVec 32) : Decidable (Present e) := inferInstanceAs (Decidable (¬ _))

/-- `PTE_P | PTE_W | PTE_U`. Reference: `PT_PERM_PTU` (`kern/vmm/MPTIntro/MPTIntro.c:9`). -/
def ptPermPTU : BitVec 32 := 7

/-- The memory, the page directories, and the words of the physical pages. -/
structure Vmm where
  mem : Mem
  pdir : Nat → Nat → BitVec 32
  word : Nat → Nat → BitVec 32

namespace Vmm

variable (s : Vmm) (p : Nat) (va : BitVec 32)

/-! ## Entries -/

/-- Reference: `get_pdir_entry` (`kern/vmm/MPTIntro/MPTIntro.c:45`). -/
def getPdirEntry (i : Nat) : BitVec 32 := s.pdir p i

/-- An assignment to an entry of a page directory. -/
def putPdir (i : Nat) (e : BitVec 32) : Vmm :=
  { s with pdir := Function.update s.pdir p (Function.update (s.pdir p) i e) }

/-- An assignment to a word of a physical page. -/
def putWord (page j : Nat) (e : BitVec 32) : Vmm :=
  { s with word := Function.update s.word page (Function.update (s.word page) j e) }

/-- Reference: `set_pdir_entry` (`kern/vmm/MPTIntro/MPTIntro.c:53`). -/
def setPdirEntry (i page : Nat) : Vmm := s.putPdir p i (pageEntry page ptPermPTU)

/-- Reference: `rmv_pdir_entry` (`kern/vmm/MPTIntro/MPTIntro.c:72`). -/
def rmvPdirEntry (i : Nat) : Vmm := s.putPdir p i 0

/-- Reference: `get_ptbl_entry` (`kern/vmm/MPTIntro/MPTIntro.c:79`). -/
def getPtblEntry (i j : Nat) : BitVec 32 := s.word (entryPage (s.pdir p i)) j

/-- Reference: `set_ptbl_entry` (`kern/vmm/MPTIntro/MPTIntro.c:88`). -/
def setPtblEntry (i j page : Nat) (perm : BitVec 32) : Vmm :=
  s.putWord (entryPage (s.pdir p i)) j (pageEntry page perm)

/-- Reference: `rmv_ptbl_entry` (`kern/vmm/MPTIntro/MPTIntro.c:106`). -/
def rmvPtblEntry (i j : Nat) : Vmm := s.putWord (entryPage (s.pdir p i)) j 0

/-- Reference: `get_ptbl_entry_by_va` (`kern/vmm/MPTOp/MPTOp.c:20`). -/
def getPtblEntryByVa : BitVec 32 :=
  if s.getPdirEntry p (pdeAddr va) ≠ 0 then s.getPtblEntry p (pdeAddr va) (pteAddr va) else 0

/-- Reference: `get_pdir_entry_by_va` (`kern/vmm/MPTOp/MPTOp.c:31`). -/
def getPdirEntryByVa : BitVec 32 := s.getPdirEntry p (pdeAddr va)

/-- Reference: `rmv_ptbl_entry_by_va` (`kern/vmm/MPTOp/MPTOp.c:37`). -/
def rmvPtblEntryByVa : Vmm :=
  if s.getPdirEntry p (pdeAddr va) ≠ 0 then s.rmvPtblEntry p (pdeAddr va) (pteAddr va) else s

/-! ## Tables and pages -/

/-- The loop of `alloc_ptbl`, which clears the entries below `n` of a page table. -/
def clearPtbl (i : Nat) : Nat → Vmm
  | 0 => s
  | n + 1 => (clearPtbl i n).rmvPtblEntry p i n

/-- Reference: `alloc_ptbl` (`kern/vmm/MPTComm/MPTComm.c:43`). -/
def allocPtbl : Vmm × Nat :=
  let (mem, page) := s.mem.containerAlloc p
  let s := { s with mem }
  if page = 0 then (s, 0)
  else
    ((s.setPdirEntry p (pdeAddr va) page).clearPtbl p (pdeAddr va) 1024, page)

/-- Reference: `free_ptbl` (`kern/vmm/MPTComm/MPTComm.c:64`). -/
def freePtbl : Vmm :=
  let page := entryPage (s.getPdirEntryByVa p va)
  let s := s.rmvPdirEntry p (pdeAddr va)
  { s with mem := s.mem.containerFree p page }

/-- Reference: `map_page` (`kern/vmm/MPTKern/MPTKern.c:37`). -/
def mapPage (page : Nat) (perm : BitVec 32) : Vmm × Nat :=
  let pde := s.getPdirEntryByVa p va
  if pde = 0 then
    let (s, pdePage) := s.allocPtbl p va
    if pdePage = 0 then (s, magicNumber)
    else (s.setPtblEntry p (pdeAddr va) (pteAddr va) page perm, pdePage)
  else (s.setPtblEntry p (pdeAddr va) (pteAddr va) page perm, entryPage pde)

/-- Reference: `unmap_page` (`kern/vmm/MPTKern/MPTKern.c:62`). -/
def unmapPage : Vmm × BitVec 32 :=
  let pte := s.getPtblEntryByVa p va
  (if pte ≠ 0 then s.rmvPtblEntryByVa p va else s, pte)

/-- Reference: `alloc_page` (`kern/vmm/MPTNew/MPTNew.c:16`). -/
def allocPage (perm : BitVec 32) : Vmm × Nat :=
  let (mem, page) := s.mem.containerAlloc p
  let s := { s with mem }
  if page ≠ 0 then s.mapPage p va page perm else (s, magicNumber)

end Vmm

/-! ## Initialisation -/

/-- An entry of the identity tables. Reference: `idptbl_init` (`kern/vmm/MPTOp/MPTOp.c:69`) with
`set_ptbl_entry_identity`. -/
def identityEntry (i j : Nat) : BitVec 32 :=
  ((BitVec.ofNat 32 i <<< 22) ||| (BitVec.ofNat 32 j <<< 12)) |||
    if i < userLoPde ∨ userHiPde ≤ i then 0x103 else 0x3

/-- The state after paging is initialised: the identity tables start at the page `idPage`, and the
other pages have any contents. Process 0 has the identity map, and the other processes have it for
kernel addresses. Reference: `pdir_init_kern` (`kern/vmm/MPTKern/MPTKern.c:17`). -/
def Vmm.init (mmap : List MmapEntry) (idPage : Nat) (word : Nat → Nat → BitVec 32) : Vmm where
  mem := .init mmap
  pdir p i :=
    if i < 1024 ∧ (p = 0 ∨ i < userLoPde ∨ userHiPde ≤ i) then
      pageEntry (idPage + i) ptPermPTU else 0
  word page j :=
    if idPage ≤ page ∧ page < idPage + 1024 then identityEntry (page - idPage) j else word page j

/-! ## Words and addresses -/

section
variable {page : Nat} {perm va va' : BitVec 32}

theorem toNat_pageEntry (hpage : page < 2 ^ 20) (hperm : perm.toNat < 4096) :
    (pageEntry page perm).toNat = page * 4096 + perm.toNat := by
  have hshift : (BitVec.ofNat 32 page <<< 12).toNat = page <<< 12 := by
    rw [BitVec.toNat_shiftLeft, BitVec.toNat_ofNat, Nat.mod_eq_of_lt (by omega), Nat.shiftLeft_eq,
      Nat.shiftLeft_eq, Nat.mod_eq_of_lt (by omega)]
  rw [pageEntry, BitVec.toNat_or, hshift, ← Nat.shiftLeft_add_eq_or_of_lt hperm, Nat.shiftLeft_eq]

theorem entryPage_eq (e : BitVec 32) : entryPage e = e.toNat / 4096 := by
  rw [entryPage, BitVec.toNat_ushiftRight, Nat.shiftRight_eq_div_pow]

/-- An entry points to the page that it was made for. -/
theorem entryPage_pageEntry (hpage : page < 2 ^ 20) (hperm : perm.toNat < 4096) :
    entryPage (pageEntry page perm) = page := by
  rw [entryPage_eq, toNat_pageEntry hpage hperm]
  omega

theorem pageEntry_ne_zero (hpage : page < 2 ^ 20) (h0 : page ≠ 0) (hperm : perm.toNat < 4096) :
    pageEntry page perm ≠ 0 := by
  intro he
  have hsum := toNat_pageEntry hpage hperm
  have hzero : (0 : BitVec 32).toNat = 0 := rfl
  rw [he, hzero] at hsum
  omega

theorem pdeAddr_eq (va : BitVec 32) : pdeAddr va = va.toNat / 4194304 := by
  rw [pdeAddr, BitVec.toNat_ushiftRight, Nat.shiftRight_eq_div_pow]

theorem pteAddr_eq (va : BitVec 32) : pteAddr va = va.toNat / 4096 % 1024 := by
  have hmask : (0x3ff#32).toNat = 2 ^ 10 - 1 := rfl
  rw [pteAddr, BitVec.toNat_and, BitVec.toNat_ushiftRight, Nat.shiftRight_eq_div_pow]
  exact (congrArg _ hmask).trans (Nat.and_two_pow_sub_one_eq_mod _ 10)

theorem pteAddr_lt (va : BitVec 32) : pteAddr va < 1024 := by
  rw [pteAddr_eq]
  omega

/-- Two addresses have the same entries exactly if they are in the same virtual page. -/
theorem addr_eq_iff : pdeAddr va = pdeAddr va' ∧ pteAddr va = pteAddr va' ↔
    va.toNat / 4096 = va'.toNat / 4096 := by
  simp only [pdeAddr_eq, pteAddr_eq]
  omega

end

end MCertikos
