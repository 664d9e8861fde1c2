import MCertikos.Fs.Inode
import MCertikos.Fs.Store
import MCertikos.Lib.Ownership

/-!
# The layout of a file system

A file system is laid out on the disk as follows: the boot block, the super block, the blocks with
the inodes, the free bitmap, the data blocks, and the log. An inode holds data blocks through 141
pointers: 12 direct ones, that of its indirect block, and the 128 entries of the indirect block.

`Owned` is the ownership of data blocks: each nonzero pointer of an allocated inode is to a data
block that is marked as used in the bitmap, and no two pointers are to the same block. The lemmas
say what allocating a block, storing it in a pointer, clearing a pointer and freeing its block do
to it.
-/

namespace MCertikos

open BitField Ownership Function

/-! ## Regions -/

namespace Superblock

variable (sb : Superblock)

/-- The first bitmap block, behind the inodes. -/
def bitmapStart : Nat := sb.ninodes.toNat / ipb + 3

/-- The first data block, behind the bitmap. -/
def dataStart : Nat := sb.bitmapStart + (sb.size.toNat / bpb + 1)

/-- The first block of the log, behind the data blocks. -/
def logStart : Nat := (sb.size - sb.nlog).toNat

/-- A data block. -/
def InData (b : Nat) : Prop := sb.dataStart ≤ b ∧ b < sb.logStart

instance (b : Nat) : Decidable (sb.InData b) := inferInstanceAs (Decidable (_ ∧ _))

end Superblock

/-- The super block of a disk. -/
def superOf (d : Disk) : Superblock := .ofBlock (d 1)

/-- The inode with the number `inum`, as it is on the disk. -/
def dinodeAt (d : Disk) (inum : Nat) : Dinode := getDinode (d (iblock inum)) (inum % ipb)

/-- The block is free. -/
def Free (d : Disk) (b : Nat) : Prop :=
  get (d (bblock b (superOf d).ninodes.toNat)) (b % bpb) 1 = 0

instance (d : Disk) (b : Nat) : Decidable (Free d b) := inferInstanceAs (Decidable (_ = _))

/-- The disk is laid out in the order of the regions, and `log_init` has found the log. -/
structure Geometry (d : Disk) (l : Log) : Prop where
  start : l.start = (superOf d).logStart
  size : l.start + l.size = (superOf d).size.toNat
  fits : (superOf d).dataStart ≤ l.start

section
variable {sb : Superblock} {inum b : Nat}

theorem iblock_lt (h : inum < sb.ninodes.toNat) : iblock inum < sb.bitmapStart := by
  have hle : inum / ipb ≤ sb.ninodes.toNat / ipb := Nat.div_le_div_right h.le
  rw [iblock, Superblock.bitmapStart]
  omega

theorem one_lt_iblock : 1 < iblock inum := by
  rw [iblock, ipb]
  omega

theorem bitmapStart_le_bblock : sb.bitmapStart ≤ bblock b sb.ninodes.toNat := by
  rw [bblock, Superblock.bitmapStart, ipb, bpb]
  omega

theorem bblock_lt (h : b < sb.size.toNat) : bblock b sb.ninodes.toNat < sb.dataStart := by
  have hle : b / bpb ≤ sb.size.toNat / bpb := Nat.div_le_div_right h.le
  rw [bblock, Superblock.dataStart, Superblock.bitmapStart, ipb]
  omega

theorem one_lt_bitmapStart : 1 < sb.bitmapStart := by
  rw [Superblock.bitmapStart, ipb]
  omega

theorem bitmapStart_lt_dataStart : sb.bitmapStart < sb.dataStart := by
  rw [Superblock.dataStart, bpb]
  omega

end

/-! ## The bitmap -/

/-- The free blocks, in order. -/
def frees (d : Disk) : List Nat := (List.range (superOf d).size.toNat).filter (Free d ·)

/-- The data blocks in use. -/
def used (d : Disk) : Set Nat := {b | (superOf d).InData b ∧ ¬ Free d b}

/-- A bit of the bitmap with a new value. -/
def Disk.mark (d : Disk) (b : Nat) (v : BitVec 1) : Disk :=
  let bm := bblock b (superOf d).ninodes.toNat
  update d bm (put (d bm) (b % bpb) v)

/-- The disk after a block is allocated. -/
def Disk.alloc (d : Disk) (f : Nat) : Disk := update (d.mark f 1) f 0

section
variable {d d' : Disk} {b c f i x : Nat} {v : BitVec 1}

theorem mem_frees : b ∈ frees d ↔ b < (superOf d).size.toNat ∧ Free d b := by
  simp [frees]

theorem nodup_frees : (frees d).Nodup := List.nodup_range.filter _

theorem sorted_frees : (frees d).Pairwise (· < ·) := List.pairwise_lt_range.filter _

/-! ### Writes outside of the bitmap -/

theorem superOf_congr (h : ∀ x < (superOf d).bitmapStart, d' x = d x) :
    superOf d' = superOf d := by
  rw [superOf, h 1 one_lt_bitmapStart, superOf]

theorem dinodeAt_congr (h : ∀ x < (superOf d).bitmapStart, d' x = d x)
    (hi : i < (superOf d).ninodes.toNat) : dinodeAt d' i = dinodeAt d i := by
  rw [dinodeAt, h _ (iblock_lt hi), dinodeAt]

theorem free_congr (hs : superOf d' = superOf d)
    (h : ∀ x, (superOf d).bitmapStart ≤ x → x < (superOf d).dataStart → d' x = d x)
    (hc : c < (superOf d).size.toNat) : Free d' c ↔ Free d c := by
  rw [Free, hs, h _ bitmapStart_le_bblock (bblock_lt hc), Free]

theorem frees_congr (hs : superOf d' = superOf d)
    (h : ∀ c < (superOf d).size.toNat, (Free d' c ↔ Free d c)) : frees d' = frees d := by
  rw [frees, hs, frees]
  refine List.filter_congr fun c hc => decide_eq_decide.2 (h c (List.mem_range.1 hc))

/-! ### Writes to the bitmap -/

/-- Sectors other than the bitmap block are as before. -/
theorem Disk.mark_of_ne (h : x ≠ bblock b (superOf d).ninodes.toNat) : d.mark b v x = d x :=
  update_of_ne h _ _

/-- So are the super block and the inodes. -/
theorem Disk.mark_of_lt (h : x < (superOf d).bitmapStart) : d.mark b v x = d x :=
  mark_of_ne (h.trans_le bitmapStart_le_bblock).ne

/-- So are the data blocks. -/
theorem Disk.mark_of_ge (hb : b < (superOf d).size.toNat) (h : (superOf d).dataStart ≤ x) :
    d.mark b v x = d x :=
  mark_of_ne ((bblock_lt hb).trans_le h).ne'

@[simp] theorem superOf_mark : superOf (d.mark b v) = superOf d :=
  superOf_congr fun _ hx => Disk.mark_of_lt hx

/-- Two blocks with the same bit. -/
theorem eq_of_bblock {n : Nat} (h : bblock b n = bblock c n)
    (hmod : b % bpb = c % bpb) : b = c := by
  rw [bblock, bblock, bpb] at h
  rw [bpb] at hmod
  omega

theorem free_mark : Free (d.mark b v) c ↔ if c = b then v = 0 else Free d c := by
  have hb : b % bpb < 4096 := Nat.mod_lt _ (by decide)
  rw [Free, Free, superOf_mark]
  by_cases hbb : bblock c (superOf d).ninodes.toNat = bblock b (superOf d).ninodes.toNat
  · rw [hbb, Disk.mark, update_self]
    by_cases hcb : c = b
    · rw [if_pos hcb, hcb, get_put_self _ _ (by omega)]
    · have hne : c % bpb ≠ b % bpb := fun hmod => hcb (eq_of_bblock hbb hmod)
      rw [if_neg hcb, get_put_of_disjoint _ _ (by omega)]
  · rw [Disk.mark_of_ne hbb, if_neg fun hcb => hbb (by rw [hcb])]

/-! ### Allocation -/

@[simp] theorem Disk.alloc_self : d.alloc f f = 0 := update_self _ _ _

theorem Disk.alloc_of_lt (hf : (superOf d).dataStart ≤ f) (hx : x < (superOf d).bitmapStart) :
    d.alloc f x = d x := by
  have hlt : (superOf d).bitmapStart < (superOf d).dataStart := bitmapStart_lt_dataStart
  rw [alloc, update_of_ne (by omega), mark_of_lt hx]

theorem Disk.alloc_of_ge (hf : f < (superOf d).size.toNat) (hx : (superOf d).dataStart ≤ x)
    (hne : x ≠ f) : d.alloc f x = d x := by
  rw [alloc, update_of_ne hne, mark_of_ge hf hx]

theorem superOf_alloc (hf : (superOf d).dataStart ≤ f) : superOf (d.alloc f) = superOf d :=
  superOf_congr fun _ hx => Disk.alloc_of_lt hf hx

theorem free_alloc (hf : (superOf d).dataStart ≤ f) (hc : c < (superOf d).size.toNat) :
    Free (d.alloc f) c ↔ c ≠ f ∧ Free d c := by
  have hdata : ∀ x, (superOf d).bitmapStart ≤ x → x < (superOf d).dataStart →
      d.alloc f x = d.mark f 1 x := fun x _ hx => update_of_ne (by omega) _ _
  rw [free_congr ((superOf_alloc hf).trans superOf_mark.symm) (by rwa [superOf_mark])
    (by rwa [superOf_mark]), free_mark]
  split <;> simp_all

/-- The next free block is allocated next. -/
theorem frees_alloc {rest : List Nat} (hf : (superOf d).dataStart ≤ f) (h : frees d = f :: rest) :
    frees (d.alloc f) = rest := by
  have hnodup : (f :: rest).Nodup := h ▸ nodup_frees
  have hrest : ∀ c ∈ rest, decide (c ≠ f) = true := fun c hc =>
    decide_eq_true fun he => (List.nodup_cons.1 hnodup).1 (he ▸ hc)
  calc frees (d.alloc f)
      = (List.range (superOf d).size.toNat).filter fun c =>
        decide (c ≠ f) && decide (Free d c) := by
        rw [frees, superOf_alloc hf]
        refine List.filter_congr fun c hc => ?_
        rw [← Bool.decide_and, decide_eq_decide]
        exact free_alloc hf (List.mem_range.1 hc)
    _ = (frees d).filter fun c => decide (c ≠ f) := by rw [frees, List.filter_filter]
    _ = rest := by
        rw [h, List.filter_cons_of_neg (by simp), List.filter_eq_self.2 hrest]

/-- The free block that `block_alloc` finds. -/
theorem notFree_of_lt {rest : List Nat} (h : frees d = f :: rest) (hb : b < f) : ¬ Free d b := by
  have hf : f < (superOf d).size.toNat := (mem_frees.1 (h ▸ List.mem_cons_self)).1
  intro hfree
  have hmem : b ∈ f :: rest := h ▸ mem_frees.2 ⟨hb.trans hf, hfree⟩
  have hsorted : (f :: rest).Pairwise (· < ·) := h ▸ sorted_frees
  rcases List.mem_cons.1 hmem with rfl | hmem
  · exact hb.false
  · exact (hb.trans (List.rel_of_pairwise_cons hsorted hmem)).false

/-- A block that is allocated is in use. -/
theorem used_alloc (hf : (superOf d).InData f)
    (hfits : (superOf d).logStart ≤ (superOf d).size.toNat) :
    used (d.alloc f) = insert f (used d) := by
  ext c
  simp only [used, superOf_alloc hf.1, Set.mem_ofPred_eq, Set.mem_insert_iff]
  constructor
  · rintro ⟨hin, hfree⟩
    rw [free_alloc hf.1 (hin.2.trans_le hfits)] at hfree
    by_cases hcf : c = f
    · exact .inl hcf
    · exact .inr ⟨hin, fun h => hfree ⟨hcf, h⟩⟩
  · rintro (rfl | ⟨hin, hfree⟩)
    · exact ⟨hf, fun h => ((free_alloc hf.1 (hf.2.trans_le hfits)).1 h).1 rfl⟩
    · exact ⟨hin, fun h => hfree ((free_alloc hf.1 (hin.2.trans_le hfits)).1 h).2⟩

end

/-! ## Fields of blocks -/

section
variable {b : Block} {k j : Nat} {din : Dinode}

theorem getDinode_putDinode_self (hk : k < ipb) : getDinode (putDinode b k din) k = din := by
  rw [ipb] at hk
  simp (disch := omega) only [getDinode, putDinode, get_put_self, get_put_of_disjoint]

theorem getDinode_putDinode_of_ne (hne : j ≠ k) :
    getDinode (putDinode b k din) j = getDinode b j := by
  simp (disch := omega) only [getDinode, putDinode, get_put_of_disjoint]

theorem Dinode.addr_setAddr_self {i : Nat} {v : BitVec 32} (hi : i ≤ nDirect) :
    (din.setAddr i v).addr i = v := by
  rw [nDirect] at hi
  exact get_put_self _ _ (by omega)

theorem Dinode.addr_setAddr_of_ne {i j : Nat} {v : BitVec 32} (hne : j ≠ i) :
    (din.setAddr i v).addr j = din.addr j :=
  get_put_of_disjoint _ _ (by omega)

end

/-! ## Pointers -/

/-- The number of pointers of an inode. -/
def nSlots : Nat := nDirect + 1 + nIndirect

/-- The pointer number `k` of an inode: the direct ones come first, then that of the indirect
block, then its entries. -/
def ptr (d : Disk) (din : Dinode) (k : Nat) : Nat :=
  if k ≤ nDirect then (din.addr k).toNat
  else if din.addr nDirect = 0 then 0
  else (get (d (din.addr nDirect).toNat) (32 * (k - nDirect - 1)) 32).toNat

/-- The pointer to the block number `bn` of the contents. -/
def slotOf (bn : Nat) : Nat := if bn < nDirect then bn else bn + 1

/-- The block number `bn` of the contents of an inode, or 0 if there is none. -/
def blockAt (d : Disk) (din : Dinode) (bn : Nat) : Nat := ptr d din (slotOf bn)

/-- The inode is allocated. -/
def Allocated (sb : Superblock) (D : Nat → Dinode) (inum : Nat) : Prop :=
  0 < inum ∧ inum < sb.ninodes.toNat ∧ (D inum).type ≠ 0

instance (sb : Superblock) (D : Nat → Dinode) (inum : Nat) : Decidable (Allocated sb D inum) :=
  inferInstanceAs (Decidable (_ ∧ _))

/-- The block that a pointer of one of the inodes `D` is to, if the inode is allocated. -/
def owner (d : Disk) (D : Nat → Dinode) (s : Nat × Nat) : Option Nat :=
  if Allocated (superOf d) D s.1 ∧ s.2 < nSlots ∧ ptr d (D s.1) s.2 ≠ 0 then
    some (ptr d (D s.1) s.2)
  else none

/-- The pointers of the allocated inodes `D` are to data blocks in use, and no two are to the same
block; the blocks in front of the data blocks are in use too. -/
structure Owned (d : Disk) (D : Nat → Dinode) : Prop where
  once : OwnedOnce (owner d D) (used d)
  reserved : ∀ b < (superOf d).dataStart, ¬ Free d b

end MCertikos
