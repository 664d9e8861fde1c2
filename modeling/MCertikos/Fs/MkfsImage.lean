import MCertikos.Fs.Directory
import MCertikos.Fs.Mkfs
import Mathlib.Algebra.GroupWithZero.Nat

/-!
# The image that `mkfs` writes

`mkfs` takes blocks and inodes in order, and `balloc` writes the bitmap at the end. The proofs run
along with the disk on which the bitmap is already written (`Mkfs.image`): there a block that
`mkfs` takes is a free block that is linked into an inode, as one that `bmap` takes, so what is
known of the blocks of inodes (`Linked`, `Stored`) applies to `iappend`. `Built` holds between the
calls of `ialloc` and `iappend`, `Holding` says which of the files are installed, and `HostImage`
is what the kernel finds on the disk.
-/

namespace MCertikos

open BitField Ownership Function

variable {n off k i : Nat} {d : Disk} {D : Nat → Dinode}

/-! ## The bitmap -/

/-- The bits below `u` are set, and one more is. -/
theorem put_two_pow_sub_one {u : Nat} (hu : u < 4096) :
    put (BitVec.ofNat 4096 (2 ^ u - 1)) u (1 : BitVec 1) =
    BitVec.ofNat 4096 (2 ^ (u + 1) - 1) := by
  refine BitVec.eq_of_getLsbD_eq fun i hi => ?_
  rw [getLsbD_put, BitVec.getLsbD_ofNat, BitVec.getLsbD_ofNat, Nat.testBit_two_pow_sub_one,
    Nat.testBit_two_pow_sub_one]
  split
  · next h =>
    obtain rfl : i = u := by omega
    simp [hu]
  · next h =>
    rw [decide_eq_decide.2 (show i < u ↔ i < u + 1 by omega)]

/-! ## The number of blocks -/

/-- The number of blocks of an inode with `n` bytes, with its indirect block. -/
def nBlocks (n : Nat) : Nat :=
  if (n + 511) / 512 ≤ nDirect then (n + 511) / 512 else (n + 511) / 512 + 1

theorem nBlocks_cases (n : Nat) : (n + 511) / 512 ≤ 12 ∧ nBlocks n = (n + 511) / 512 ∨
    12 < (n + 511) / 512 ∧ nBlocks n = (n + 511) / 512 + 1 := by
  rw [nBlocks, nDirect]
  split <;> omega

theorem nBlocks_mono {n' : Nat} (h : n ≤ n') : nBlocks n ≤ nBlocks n' := by
  have := nBlocks_cases n
  have := nBlocks_cases n'
  omega

theorem mem_slotsIn : k ∈ slotsIn off n ↔ ∃ o, off ≤ o ∧ o < off + n ∧
    k ∈ slotsOf (o / bSize) := by
  simp only [slotsIn, Finset.mem_biUnion, Finset.mem_image, Finset.mem_Ico]
  constructor
  · rintro ⟨_, ⟨o, ho, rfl⟩, hk⟩
    exact ⟨o, ho.1, ho.2, hk⟩
  · rintro ⟨o, h1, h2, hk⟩
    exact ⟨_, ⟨o, ⟨h1, h2⟩, rfl⟩, hk⟩

theorem mem_slotsOf {bn : Nat} :
    k ∈ slotsOf bn ↔ bn < nDirect ∧ k = bn ∨ nDirect ≤ bn ∧ (k = nDirect ∨ k = bn + 1) := by
  rw [slotsOf]
  split
  · next h => simp [h, Nat.not_le.2 h]
  · next h => simp [h, Nat.not_lt.1 h]

/-- The pointers for the bytes from `off` on that are not needed for the bytes before it. -/
theorem mem_slotsIn_iff (hk : nBlocks off ≤ k) : k ∈ slotsIn off n ↔ k < nBlocks (off + n) := by
  have hoff := nBlocks_cases off
  have hend := nBlocks_cases (off + n)
  rw [mem_slotsIn]
  simp only [mem_slotsOf, nDirect, show bSize = 512 from rfl]
  constructor
  · rintro ⟨o, h1, h2, hk'⟩
    omega
  · intro hlt
    rcases Nat.lt_or_ge k 13 with h13 | h13
    · exact ⟨512 * k, by omega⟩
    · exact ⟨512 * (k - 1), by omega⟩

/-- The new blocks of an inode whose first `off` bytes have their blocks. -/
theorem missing_eq (h : ∀ k < nSlots, (owner d D (i, k) = none ↔ nBlocks off ≤ k))
    (hmax : off + n ≤ maxFile * bSize) :
    missing d D i (slotsIn off n) = nBlocks (off + n) - nBlocks off := by
  have hlt : ∀ k ∈ slotsIn off n, k < nSlots := by
    intro k hk
    obtain ⟨o, -, h2, hk⟩ := mem_slotsIn.1 hk
    have hbn : o / bSize < maxFile := div_bSize_lt (by omega)
    rw [mem_slotsOf] at hk
    rw [show maxFile = 140 from rfl] at hbn
    rw [show nSlots = 141 from rfl]
    rw [nDirect] at hk
    omega
  have hfilter : (slotsIn off n).filter (fun k => owner d D (i, k) = none) =
      Finset.Ico (nBlocks off) (nBlocks (off + n)) := by
    ext k
    rw [Finset.mem_filter, Finset.mem_Ico]
    constructor
    · rintro ⟨hk, hn⟩
      have hge := (h k (hlt k hk)).1 hn
      exact ⟨hge, (mem_slotsIn_iff hge).1 hk⟩
    · rintro ⟨hge, hk⟩
      have hmem := (mem_slotsIn_iff hge).2 hk
      exact ⟨hmem, (h k (hlt k hmem)).2 hge⟩
  rw [missing, hfilter, Nat.card_Ico]

/-- The other inodes keep their blocks. -/
theorem Extends.owner_other {d' : Disk} {D' : Nat → Dinode} {j c : Nat} {K : Finset Nat}
    (h : Extends i K c d D d' D') (hne : j ≠ i) : owner d' D' (j, k) = owner d D (j, k) := by
  cases hb : owner d D (j, k) with
  | some b => exact h.kept _ b hb
  | none =>
    cases hb' : owner d' D' (j, k) with
    | none => rfl
    | some b => exact absurd (h.new _ b hb hb').1 hne

/-- A new inode has no blocks. -/
theorem owner_newInode {din : Dinode} (hn : ¬ Allocated (superOf d) D i) (haddrs : din.addrs = 0) :
    owner d (update D i din) = owner d D := by
  have haddr : ∀ k, din.addr k = 0 := fun k => by simp [Dinode.addr, haddrs, BitField.get]
  have hptr : ∀ k, ptr d din k = 0 := fun k => by
    rw [ptr, haddr, haddr, if_pos rfl]
    exact ite_self _
  funext s
  obtain ⟨j, k⟩ := s
  rcases eq_or_ne j i with rfl | hne
  · rw [owner, owner, if_neg fun hc => hc.2.2 (by rw [update_self, hptr]),
      if_neg fun hc => hn hc.1]
  · exact if_congr (by rw [Allocated, Allocated, update_of_ne hne])
      (by rw [update_of_ne hne]) rfl

/-- The inode then has the blocks for all bytes up to the last new one. -/
theorem Stored.blocks {d' : Disk} {D' : Nat → Dinode} {c : Nat} {p : List Byte}
    (h : Stored i off p c d D d' D') (hi : Allocated (superOf d) D i)
    (hmax : off + p.length ≤ maxFile * bSize)
    (hblocks : ∀ k < nSlots, (owner d D (i, k) = none ↔ nBlocks off ≤ k)) :
    c = nBlocks (off + p.length) - nBlocks off ∧
      ∀ k < nSlots, (owner d' D' (i, k) = none ↔ nBlocks (off + p.length) ≤ k) := by
  have hzero := missing_slotsIn (h.shape.allocated.2 hi) hmax h.full
  have hsum := h.shape.missing _ subset_rfl
  rw [hzero, missing_eq hblocks hmax, Nat.zero_add] at hsum
  refine ⟨hsum, fun k hk => ?_⟩
  constructor
  · intro hnone
    by_contra hlt
    rw [Nat.not_le] at hlt
    rcases Nat.lt_or_ge k (nBlocks off) with hold | hnew
    · obtain ⟨b, hb⟩ :=
        Option.ne_none_iff_exists'.1 fun hn => Nat.not_le.2 hold ((hblocks k hk).1 hn)
      rw [h.shape.kept _ b hb] at hnone
      cases hnone
    · have hmem := (mem_slotsIn_iff hnew).2 hlt
      rw [missing, Finset.card_eq_zero, Finset.filter_eq_empty_iff] at hzero
      exact hzero hmem hnone
  · intro hge
    have hle : nBlocks off ≤ k := (nBlocks_mono (Nat.le_add_right _ _)).trans hge
    cases hb : owner d' D' (i, k) with
    | none => rfl
    | some b =>
      have hmem := (h.shape.new _ b ((hblocks k hk).2 hle) hb).2
      exact absurd ((mem_slotsIn_iff hle).1 hmem) (Nat.not_lt.2 hge)

namespace Mkfs

/-- The image as it would be if `balloc` was called now. -/
def image (m : Mkfs) : Disk :=
  update m.disk (ninodes / ipb + 3) (BitVec.ofNat 4096 (2 ^ m.usedblocks - 1))

section
variable {m : Mkfs} {D : Nat → Dinode} {i k b x : Nat} {v : Block} {din : Dinode}

theorem image_of_ne (h : x ≠ 28) : m.image x = m.disk x := update_of_ne h _ _

theorem image_bitmap : m.image 28 = BitVec.ofNat 4096 (2 ^ m.usedblocks - 1) := update_self _ _ _

theorem wsect_image (h : x ≠ 28) : (m.wsect x v).image = update m.image x v :=
  update_comm (β := fun _ => Block) h v _ _

theorem iblock_ne (hi : i < ninodes) : iblock i ≠ 28 := by
  rw [iblock, ipb]
  rw [ninodes] at hi
  omega

theorem rinode_eq (hi : i < ninodes) : m.rinode i = dinodeAt m.image i := by
  rw [rinode, dinodeAt, image_of_ne (iblock_ne hi)]

theorem winode_image (hi : i < ninodes) : (m.winode i din).image = m.image.putInode i din := by
  rw [winode, wsect_image (iblock_ne hi), Disk.putInode, image_of_ne (iblock_ne hi)]

theorem free_image (hs : superOf m.image = ⟨1024, 985, 200, 10⟩) (hb : b < 1024) :
    Free m.image b ↔ m.usedblocks ≤ b := by
  have hbb : bblock b (superOf m.image).ninodes.toNat = 28 := by
    rw [hs, bblock, bpb]
    show b / 4096 + 200 / 8 + 3 = 28
    omega
  have hmod : b % bpb = b := Nat.mod_eq_of_lt (by rw [bpb]; omega)
  have hbit : get (BitVec.ofNat 4096 (2 ^ m.usedblocks - 1)) b 1 = 0 ↔
      (get (BitVec.ofNat 4096 (2 ^ m.usedblocks - 1)) b 1).getLsbD 0 = false := by
    generalize get (BitVec.ofNat 4096 (2 ^ m.usedblocks - 1)) b 1 = w
    revert w
    decide
  rw [Free, hbb, hmod, image_bitmap, hbit, getLsbD_get, Nat.add_zero, BitVec.getLsbD_ofNat,
    Nat.testBit_two_pow_sub_one]
  simp
  omega

end

/-! ## Taking blocks -/

/-- The state of `mkfs`, with the inodes `D` of which one may not be written back yet: the first
`freeblock` blocks are in use, the others are zero, and the blocks are owned by the inodes. -/
structure Ready (m : Mkfs) (D : Nat → Dinode) : Prop where
  super : superOf m.image = ⟨1024, 985, 200, 10⟩
  used : m.usedblocks = m.freeblock
  low : 29 ≤ m.freeblock
  high : m.freeblock ≤ 1014
  clean : ∀ x, m.freeblock ≤ x → m.disk x = 0
  owned : Owned m.image D

namespace Ready

variable {m : Mkfs} {D : Nat → Dinode} {i k b x : Nat} {v : Block} {din : Dinode}

section
variable (h : Ready m D)
include h

theorem fits : (superOf m.image).logStart ≤ (superOf m.image).size.toNat := by
  rw [h.super]
  decide

theorem dataStart_le : (superOf m.image).dataStart ≤ (superOf m.image).size.toNat := by
  rw [h.super]
  decide

theorem inData_iff : (superOf m.image).InData b ↔ 29 ≤ b ∧ b < 1014 := by
  rw [h.super]
  exact Iff.rfl

theorem free_iff (hb : b < 1024) : Free m.image b ↔ m.freeblock ≤ b := by
  rw [free_image h.super hb, h.used]

/-- The blocks of inodes are in use. -/
theorem block {s : Nat × Nat} (hs : owner m.image D s = some b) : 29 ≤ b ∧ b < m.freeblock := by
  obtain ⟨hin, hfree⟩ := h.owned.inData hs
  obtain ⟨h1, h2⟩ := h.inData_iff.1 hin
  rw [h.free_iff (by omega)] at hfree
  omega

theorem frees_eq (hroom : m.freeblock < 1014) : ∃ rest, frees m.image = m.freeblock :: rest := by
  have hmem : m.freeblock ∈ frees m.image := by
    rw [mem_frees, h.super]
    exact ⟨show m.freeblock < 1024 by omega, (h.free_iff (by omega)).2 le_rfl⟩
  cases hf : frees m.image with
  | nil =>
    rw [hf] at hmem
    cases hmem
  | cons f rest =>
    obtain ⟨hlt, hfree⟩ := mem_frees.1 (hf ▸ List.mem_cons_self : f ∈ frees m.image)
    rw [h.super] at hlt
    rw [h.free_iff hlt] at hfree
    have hge : ¬ m.freeblock < f := fun hc => notFree_of_lt hf hc (mem_frees.1 hmem).2
    exact ⟨rest, by rw [show f = m.freeblock by omega]⟩

/-- The next block is taken as `block_alloc` would take it. -/
theorem takeBlock_image : m.takeBlock.image = m.image.alloc m.freeblock := by
  have hlow := h.low
  have hhigh := h.high
  have hbb : bblock m.freeblock (superOf m.image).ninodes.toNat = 28 := by
    rw [h.super, bblock, bpb]
    show m.freeblock / 4096 + 200 / 8 + 3 = 28
    omega
  have hmod : m.freeblock % bpb = m.freeblock := Nat.mod_eq_of_lt (by rw [bpb]; omega)
  funext x
  rw [Disk.alloc, Disk.mark, hbb, hmod]
  rcases eq_or_ne x m.freeblock with rfl | hne
  · rw [update_self, image_of_ne (by omega)]
    exact h.clean _ le_rfl
  rw [update_of_ne hne]
  rcases eq_or_ne x 28 with rfl | hbm
  · rw [update_self, image_bitmap, image_bitmap, takeBlock, ← h.used,
      put_two_pow_sub_one (by rw [h.used]; omega)]
  · rw [update_of_ne hbm, image_of_ne hbm, image_of_ne hbm]
    rfl

end

end Ready

/-- The inode `i` has got new blocks, at pointers in `K`. -/
structure Took (i : Nat) (K : Finset Nat) (m : Mkfs) (D : Nat → Dinode) (m' : Mkfs)
    (D' : Nat → Dinode) :
    Prop where
  ready : Ready m' D'
  le : m.freeblock ≤ m'.freeblock
  inodes : m'.freeinode = m.freeinode
  grows : Grows i K (m'.freeblock - m.freeblock) m.image D m'.image D'

namespace Took

variable {m m' m'' : Mkfs} {D D' D'' : Nat → Dinode} {i k x : Nat} {K L : Finset Nat}

theorem refl (h : Ready m D) : Took i K m D m D :=
  ⟨h, le_rfl, rfl, by rw [Nat.sub_self]; exact .refl⟩

theorem mono (h : Took i K m D m' D') (hK : K ⊆ L) : Took i L m D m' D' :=
  { h with grows := h.grows.mono hK }

theorem trans (h : Took i K m D m' D') (h' : Took i K m' D' m'' D'') : Took i K m D m'' D'' where
  ready := h'.ready
  le := h.le.trans h'.le
  inodes := h'.inodes.trans h.inodes
  grows := by
    have hsub : m''.freeblock - m.freeblock =
        m'.freeblock - m.freeblock + (m''.freeblock - m'.freeblock) := by
      have := h.le
      have := h'.le
      omega
    rw [hsub]
    exact h.grows.trans h'.grows

/-- The next block is linked to a pointer. -/
theorem of_linked (h : Ready m D) (hroom : m.freeblock < 1014)
    (hfree : m'.freeblock = m.freeblock + 1) (hused : m'.usedblocks = m.usedblocks + 1)
    (hinodes : m'.freeinode = m.freeinode) (hclean : ∀ x, m'.freeblock ≤ x → m'.disk x = 0)
    (hl : Linked i k m.freeblock m.image D m'.image D') : Took i {k} m D m' D' where
  ready := by
    have := h.low
    have := h.used
    exact ⟨hl.super.trans h.super, by omega, by omega, by omega, hclean, hl.owned h.owned⟩
  le := by omega
  inodes := hinodes
  grows := by
    obtain ⟨rest, hr⟩ := h.frees_eq hroom
    rw [hfree, Nat.add_sub_cancel_left]
    exact .of_linked hl hr (h.inData_iff.2 ⟨h.low, hroom⟩)

/-- A direct pointer, or that of the indirect block, gets the next block. -/
theorem setAddr (h : Ready m D) (hi : Allocated (superOf m.image) D i) (hk : k ≤ nDirect)
    (h0 : (D i).addr k = 0) (hroom : m.freeblock < 1014) :
    Took i {k} m D m.takeBlock
        (update D i ((D i).setAddr k (BitVec.ofNat 32 m.freeblock))) ∧
      owner m.takeBlock.image (update D i ((D i).setAddr k (BitVec.ofNat 32 m.freeblock))) (i, k) =
        some m.freeblock := by
  have hl := linked_setAddr h.owned hi hk h.fits (h.inData_iff.2 ⟨h.low, hroom⟩)
    ((h.free_iff (by omega)).2 le_rfl) h0
  rw [← h.takeBlock_image] at hl
  refine ⟨.of_linked h hroom rfl rfl rfl (fun x hx => h.clean x ?_) hl, ?_⟩
  · exact (Nat.le_succ _).trans hx
  · rw [hl.owner, update_self]

/-- An entry of the indirect block gets the next block. -/
theorem putEntry (h : Ready m D) (hk : nDirect < k) (hks : k < nSlots)
    (hx : owner m.image D (i, nDirect) = some x)
    (h0 : get (m.disk x) (32 * (k - nDirect - 1)) 32 = 0) (hroom : m.freeblock < 1014) :
    Took i {k} m D (m.takeBlock.wsect x
      (put (m.disk x) (32 * (k - nDirect - 1)) (BitVec.ofNat 32 m.freeblock))) D ∧
      owner (m.takeBlock.wsect x (put (m.disk x) (32 * (k - nDirect - 1))
        (BitVec.ofNat 32 m.freeblock))).image D (i, k) = some m.freeblock := by
  obtain ⟨hlow, hlt⟩ := h.block hx
  have hdisk : m.image x = m.disk x := image_of_ne (by omega)
  have hl := linked_putEntry h.owned (owner_eq_some.1 hx).1 hk hks
    h.fits (h.inData_iff.2 ⟨h.low, hroom⟩) ((h.free_iff (by omega)).2 le_rfl) hx (by rwa [hdisk])
  rw [← h.takeBlock_image, hdisk, ← wsect_image (by omega)] at hl
  refine ⟨.of_linked h hroom rfl rfl rfl (fun y hy => ?_) hl, ?_⟩
  · have hy' : m.freeblock + 1 ≤ y := hy
    exact (update_of_ne (by omega) _ _).trans (h.clean y (by omega))
  · rw [hl.owner, update_self]

/-- Nothing is missing any more once a block is there. -/
theorem room (h : Took i K m D m' D') (hK : K ⊆ L)
    (hroom : m.freeblock + missing m.image D i L ≤ 1014) :
    m'.freeblock + missing m'.image D' i L ≤ 1014 := by
  have := h.grows.missing L hK
  have := h.le
  omega

end Took

section
variable {m : Mkfs} {D : Nat → Dinode} {i k bn x b : Nat} {v : Block}

theorem missing_pos {d : Disk} (hn : owner d D (i, k) = none) : 0 < missing d D i {k} := by
  rw [missing, Finset.filter_true_of_mem (by simpa using hn)]
  exact Nat.one_pos

/-- The indirect block of an inode. -/
theorem Ready.indirect (h : Ready m D) (hi : Allocated (superOf m.image) D i)
    (hroom : m.freeblock + missing m.image D i {nDirect} ≤ 1014) :
    ∃ m' din, m.indirect (D i) = (m', din) ∧ Took i {nDirect} m D m' (update D i din) ∧
      owner m'.image (update D i din) (i, nDirect) = some (din.addr nDirect).toNat := by
  rw [Mkfs.indirect]
  split
  · next h0 =>
    have hnone : owner m.image D (i, nDirect) = none := by
      rw [owner_eq_none hi nDirect_lt_nSlots, ptr_of_le le_rfl, h0]
      rfl
    have := missing_pos hnone
    obtain ⟨htook, hown⟩ := Took.setAddr h hi le_rfl h0 (by omega)
    refine ⟨_, _, rfl, htook, ?_⟩
    obtain ⟨-, -, hptr, -⟩ := owner_eq_some.1 hown
    rw [ptr_of_le le_rfl, update_self] at hptr
    rw [hown, hptr]
  · next hne =>
    refine ⟨m, D i, rfl, ?_⟩
    rw [update_eq_self]
    exact ⟨.refl h, owner_indirect hi hne⟩

/-- The block with a part of the contents. -/
theorem Ready.blockAt (h : Ready m D) (hi : Allocated (superOf m.image) D i) (hbn : bn < maxFile)
    (hroom : m.freeblock + missing m.image D i (slotsOf bn) ≤ 1014) :
    ∃ m' din b, m.blockAt bn (D i) = (m', din, b) ∧ Took i (slotsOf bn) m D m' (update D i din) ∧
      owner m'.image (update D i din) (i, slotOf bn) = some b := by
  have hslot := slotOf_lt hbn
  rw [Mkfs.blockAt]
  split
  · next hlt =>
    rw [slotOf, if_pos hlt] at hslot ⊢
    rw [slotsOf, if_pos hlt] at hroom ⊢
    split
    · next h0 =>
      have hnone : owner m.image D (i, bn) = none := by
        rw [owner_eq_none hi hslot, ptr_of_le hlt.le, h0]
        rfl
      have := missing_pos hnone
      obtain ⟨htook, hown⟩ := Took.setAddr h hi hlt.le h0 (by omega)
      exact ⟨_, _, _, rfl, htook, hown⟩
    · next hne =>
      refine ⟨m, D i, _, rfl, ?_⟩
      rw [update_eq_self]
      exact ⟨.refl h, owner_eq_some.2
        ⟨hi, hslot, ptr_of_le hlt.le, fun he => hne (BitVec.eq_of_toNat_eq he)⟩⟩
  · next hge =>
    rw [slotOf, if_neg hge] at hslot ⊢
    rw [slotsOf, if_neg hge] at hroom ⊢
    have hsub : {nDirect} ⊆ ({nDirect, bn + 1} : Finset Nat) := by simp
    have hsub' : {bn + 1} ⊆ ({nDirect, bn + 1} : Finset Nat) := by simp
    obtain ⟨m₁, din, heq, htook, hx⟩ :=
      h.indirect hi ((Nat.add_le_add_left (missing_mono hsub) _).trans hroom)
    rw [heq]
    dsimp only
    have hroom₁ := htook.room hsub hroom
    have hmiss := missing_mono (i := i) (d := m₁.image) (D := update D i din) hsub'
    obtain ⟨hlow, -⟩ := htook.ready.block hx
    have hsub32 : bn - nDirect = bn + 1 - nDirect - 1 := by omega
    have hi₁ := (owner_eq_some.1 hx).1
    have hind : (update D i din i).addr nDirect ≠ 0 := fun he => (owner_eq_some.1 hx).2.2.2 (by
      rw [update_self] at he
      rw [he]
      rfl)
    have hptr : ptr m₁.image (update D i din i) (bn + 1) =
        (get (m₁.disk (din.addr nDirect).toNat) (32 * (bn + 1 - nDirect - 1)) 32).toNat := by
      rw [ptr_of_gt (by omega) hind, update_self, image_of_ne (by omega)]
    rw [hsub32]
    split
    · next h0 =>
      have hnone : owner m₁.image (update D i din) (i, bn + 1) = none := by
        rw [owner_eq_none hi₁ hslot, hptr, h0]
        rfl
      have := missing_pos hnone
      obtain ⟨htook', hown⟩ := Took.putEntry htook.ready (by omega) hslot hx h0 (by omega)
      exact ⟨_, _, _, rfl, (htook.mono hsub).trans (htook'.mono hsub'), hown⟩
    · next hne =>
      exact ⟨_, _, _, rfl, htook.mono hsub, owner_eq_some.2 ⟨hi₁, hslot, hptr, fun he =>
        hne (BitVec.eq_of_toNat_eq he)⟩⟩

/-- A block of the contents is written. -/
theorem Ready.write (h : Ready m D) (hb : owner m.image D (i, slotOf bn) = some b) :
    Ready (m.wsect b v) D ∧ (m.wsect b v).image = update m.image b v := by
  obtain ⟨hlow, hlt⟩ := h.block hb
  have himage : (m.wsect b v).image = update m.image b v := wsect_image (by omega)
  obtain ⟨howned, -⟩ := h.owned.update (v := v) h.fits h.dataStart_le hb
  refine ⟨⟨?_, h.used, h.low, h.high, fun x hx => ?_, himage ▸ howned⟩, himage⟩
  · rw [himage, superOf, update_of_ne (by omega)]
    exact h.super
  · have hx' : m.freeblock ≤ x := hx
    exact (update_of_ne (by omega) _ _).trans (h.clean x hx)

/-- The loop of `iappend`. -/
theorem Ready.iappendFrom {turns off : Nat} {p : List Byte} (h : Ready m D)
    (hi : Allocated (superOf m.image) D i) (hmax : off + p.length ≤ maxFile * bSize)
    (hturns : p.length ≤ turns) (hroom :
      m.freeblock + missing m.image D i (slotsIn off p.length) ≤ 1014) :
    ∃ m' din, Mkfs.iappendFrom turns m (D i) off p = some (m', din, off + p.length) ∧
      Ready m' (update D i din) ∧ m'.freeinode = m.freeinode ∧ m.freeblock ≤ m'.freeblock ∧
      Stored i off p (m'.freeblock - m.freeblock) m.image D m'.image (update D i din) := by
  have hdone : ∀ {m D off}, Ready m D →
      Ready m (update D i (D i)) ∧ m.freeinode = m.freeinode ∧ m.freeblock ≤ m.freeblock ∧
        Stored i off [] (m.freeblock - m.freeblock) m.image D m.image (update D i (D i)) := by
    intro m D off h
    rw [update_eq_self, Nat.sub_self]
    exact ⟨h, rfl, le_rfl, .nil⟩
  induction turns generalizing m D off p with
  | zero =>
    obtain rfl : p = [] := List.length_eq_zero_iff.1 (by omega)
    exact ⟨m, D i, rfl, hdone h⟩
  | succ turns ih =>
    rw [Mkfs.iappendFrom]
    split
    · next hp =>
      obtain rfl : p = [] := List.length_eq_zero_iff.1 hp
      exact ⟨m, D i, rfl, hdone h⟩
    next hp =>
    have hpos : 0 < p.length := Nat.pos_of_ne_zero hp
    have hbn : off / 512 < maxFile := div_bSize_lt (by omega)
    have hsub : slotsOf (off / bSize) ⊆ slotsIn off p.length :=
      slotsOf_subset_slotsIn le_rfl (by omega)
    rw [if_neg (not_not.2 hbn)]
    obtain ⟨m₁, din, b, heq, htook, hb⟩ := h.blockAt hi hbn
      ((Nat.add_le_add_left (missing_mono hsub) _).trans hroom)
    obtain ⟨-, hlt⟩ := htook.ready.block hb
    rw [heq]
    dsimp only
    rw [if_neg (not_not.2 (show b < size by
      have := htook.ready.high
      rw [size]
      omega))]
    have hn1 : min p.length ((off / 512 + 1) * 512 - off) =
        min p.length (bSize - off % bSize) := by
      rw [show bSize = 512 from rfl]
      omega
    have hmod : off - off / 512 * 512 = off % bSize := by
      rw [show bSize = 512 from rfl]
      omega
    have hnpos : 0 < min p.length (bSize - off % bSize) := by
      rw [show bSize = 512 from rfl]
      omega
    rw [hn1, hmod]
    generalize hn : min p.length (bSize - off % bSize) = n at hnpos
    have hle : n ≤ p.length := by omega
    have hdrop : (p.drop n).length = p.length - n := List.length_drop
    obtain ⟨hready, himage⟩ :=
      htook.ready.write hb (v := putBytes (m₁.disk b) (off % bSize) (p.take n))
    have hi₁ : Allocated (superOf (m₁.wsect
      b (putBytes (m₁.disk b) (off % bSize) (p.take n))).image)
        (update D i din) i := by
      rw [hready.super, ← htook.ready.super]
      exact (owner_eq_some.1 hb).1
    have hroom₁ : (m₁.wsect b (putBytes (m₁.disk b) (off % bSize) (p.take n))).freeblock +
        missing (m₁.wsect b (putBytes (m₁.disk b) (off % bSize) (p.take n))).image
        (update D i din) i
          (slotsIn (off + n) (p.drop n).length) ≤ 1014 := by
      obtain ⟨-, hown⟩ :=
        htook.ready.owned.update (v := putBytes (m₁.disk b) (off % bSize) (p.take n))
          htook.ready.fits htook.ready.dataStart_le hb
      have hsub' : slotsIn (off + n) (p.drop n).length ⊆ slotsIn off p.length :=
        slotsIn_subset (by omega) (by rw [hdrop]; omega)
      have hle' := missing_mono (i := i) (d := m₁.image) (D := update D i din) hsub'
      rw [himage, missing, hown]
      exact (Nat.add_le_add_left hle' _).trans (htook.room hsub hroom)
    obtain ⟨m₂, din₂, heq₂, hready₂, hinodes, hle₂, hstored⟩ :=
      ih hready hi₁ (by rw [hdrop]; omega) (by rw [hdrop]; omega) hroom₁
    rw [update_self] at heq₂
    rw [update_idem] at hready₂ hstored
    refine ⟨m₂, din₂, ?_, hready₂, hinodes.trans htook.inodes, htook.le.trans hle₂, ?_⟩
    · rw [heq₂, hdrop, show off + n + (p.length - n) = off + p.length by omega]
    · have hsum : m₂.freeblock - m.freeblock =
          m₁.freeblock - m.freeblock + (m₂.freeblock - m₁.freeblock) := by
        have := htook.le
        have : m₁.freeblock ≤ m₂.freeblock := hle₂
        omega
      rw [himage] at hstored
      rw [hsum]
      refine .turn hn.symm hpos htook.ready.fits htook.ready.dataStart_le htook.ready.owned
        htook.grows hb ?_ hstored
      rw [image_of_ne (by have := (htook.ready.block hb).1; omega)]

/-- An inode is written back. -/
theorem Ready.winode {D' : Nat → Dinode} (h : Ready m D) (din : Dinode) (hi : i < ninodes)
    (hown : owner m.image D' = owner m.image D) :
    Ready (m.winode i din) D' ∧ owner (m.winode i din).image D' = owner m.image D := by
  have hi' : i < (superOf m.image).ninodes.toNat := by
    rw [h.super]
    exact hi
  have howned : Owned m.image D' := h.owned.congr h.fits h.dataStart_le rfl (fun _ _ _ => rfl) hown
  have hown' : owner (m.image.putInode i din) D' = owner m.image D' :=
    owner_putInode howned hi' rfl
  rw [winode_image hi]
  refine ⟨⟨?_, h.used, h.low, h.high, fun x hx => ?_, ?_⟩, hown'.trans hown⟩
  · rw [winode_image hi, superOf_putInode, h.super]
  · have hx' : m.freeblock ≤ x := hx
    have hlt : iblock i < 29 := by
      rw [iblock, ipb]
      rw [ninodes] at hi
      omega
    have := h.low
    exact (update_of_ne (by omega) _ _).trans (h.clean x hx')
  · rw [winode_image hi]
    exact howned.congr h.fits h.dataStart_le superOf_putInode
      (fun x hx _ => Disk.putInode_of_ge hi' hx) hown'

/-- The bytes stay as they are. -/
theorem Ready.byteAt_winode {D' : Nat → Dinode} {din : Dinode} {j o : Nat} (h : Ready m D)
    (hi : i < ninodes) (hown : owner m.image D' = owner m.image D)
    (hj : Allocated (superOf m.image) D j) (hj' : Allocated (superOf m.image) D' j)
    (ho : o < maxFile * bSize) :
    byteAt (m.winode i din).image (D' j) o = byteAt m.image (D j) o := by
  obtain ⟨hready, hown'⟩ := h.winode din hi hown
  refine byteAt_congr hj (by rwa [hready.super, ← h.super]) (fun _ => congrFun hown' _)
    (fun s b hs => ?_) ho
  have := (h.block hs).1
  rw [winode_image hi]
  refine Disk.putInode_of_ne ?_
  rw [iblock, ipb]
  rw [ninodes] at hi
  omega

end

/-! ## Appending to an inode -/

/-- The state of `mkfs` between two calls of `iappend`: the inodes below `freeinode` are allocated,
and have the blocks for their sizes. -/
structure Built (m : Mkfs) (D : Nat → Dinode) : Prop extends Ready m D where
  disk : ∀ j < ninodes, dinodeAt m.image j = D j
  limit : m.freeinode ≤ ninodes
  inodes : ∀ j, Allocated (superOf m.image) D j ↔ 0 < j ∧ j < m.freeinode
  size : ∀ j, 0 < j → j < m.freeinode → (D j).size.toNat ≤ maxFile * bSize
  blocks : ∀ j, 0 < j → j < m.freeinode → ∀ k < nSlots,
    (owner m.image D (j, k) = none ↔ nBlocks (D j).size.toNat ≤ k)
  tail : ∀ j, 0 < j → j < m.freeinode → ∀ o < maxFile * bSize, (D j).size.toNat ≤ o →
    byteAt m.image (D j) o = 0

/-- Data is appended to the inode `i`. -/
structure Appended (i : Nat) (p : List Byte) (m : Mkfs) (D : Nat → Dinode) (m' : Mkfs)
    (D' : Nat → Dinode) :
    Prop where
  built : Built m' D'
  freeblock : m'.freeblock + nBlocks (D i).size.toNat =
    m.freeblock + nBlocks ((D i).size.toNat + p.length)
  freeinode : m'.freeinode = m.freeinode
  fields : ∃ size addrs, D' i = { D i with size, addrs }
  size : (D' i).size.toNat = (D i).size.toNat + p.length
  other : ∀ j ≠ i, D' j = D j
  contents : contents m'.image (D' i) = contents m.image (D i) ++ p
  others : ∀ j ≠ i, 0 < j → j < m.freeinode →
    MCertikos.contents m'.image (D' j) = MCertikos.contents m.image (D j)

section
variable {m : Mkfs} {D : Nat → Dinode} {i : Nat} {p : List Byte}

theorem Built.allocated (h : Built m D) (hpos : 0 < i) (hi : i < m.freeinode) :
    Allocated (superOf m.image) D i := (h.inodes i).2 ⟨hpos, hi⟩

/-- `iappend` appends the data. -/
theorem Built.iappend (h : Built m D) (hpos : 0 < i) (hi : i < m.freeinode)
    (hmax : (D i).size.toNat + p.length ≤ maxFile * bSize)
    (hroom : m.freeblock + nBlocks ((D i).size.toNat + p.length) ≤
      1014 + nBlocks (D i).size.toNat) :
    ∃ m' D', m.iappend i p = some m' ∧ Appended i p m D m' D' := by
  have halloc := h.allocated hpos hi
  have hlt : i < ninodes := hi.trans_le h.limit
  have hle := nBlocks_mono (Nat.le_add_right (D i).size.toNat p.length)
  obtain ⟨m₁, din, heq, hready, hinodes, hfree, hstored⟩ :=
    h.toReady.iappendFrom halloc hmax le_rfl (by rw [missing_eq (h.blocks i hpos hi) hmax]; omega)
  obtain ⟨hc, hblocks⟩ := hstored.blocks halloc hmax (h.blocks i hpos hi)
  have hval : (BitVec.ofNat 32 ((D i).size.toNat + p.length)).toNat =
      (D i).size.toNat + p.length :=
    toNat_ofNat_of_lt (hmax.trans_lt (by decide))
  obtain ⟨addrs, hfields⟩ := hstored.shape.fields
  rw [update_self] at hfields
  generalize hdin' : { din with size := BitVec.ofNat 32 ((D i).size.toNat + p.length) } = din'
  have hsame : ∀ j, (update D i din' j).addrs = (update D i din j).addrs ∧
      (update D i din' j).type = (update D i din j).type := fun j => by
    rcases eq_or_ne j i with rfl | hne
    · rw [update_self, update_self, ← hdin']
      exact ⟨rfl, rfl⟩
    · rw [update_of_ne hne, update_of_ne hne]
      exact ⟨rfl, rfl⟩
  have hnum : ∀ j, 0 < j → j < m.freeinode → j < (superOf m.image).ninodes.toNat := fun j h1 h2 =>
    (h.allocated h1 h2).2.1
  obtain ⟨hready', hown⟩ := hready.winode din' hlt (owner_fields hsame)
  have halloc' : ∀ j, Allocated (superOf (m₁.winode i din').image) (update D i din') j ↔
      Allocated (superOf m.image) D j := fun j => by
    rw [hready'.super, ← h.super]
    refine allocated_update ?_
    rw [← hdin', hfields]
  -- The bytes are those that the loop has left.
  have hbytes : ∀ j, 0 < j → j < m.freeinode → ∀ o < maxFile * bSize,
      byteAt (m₁.winode i din').image (update D i din' j) o =
        if j = i ∧ (D i).size.toNat ≤ o ∧ o < (D i).size.toNat + p.length then
        p.getD (o - (D i).size.toNat) 0 else byteAt m.image (D j) o := by
    intro j h1 h2 o ho
    have hj := h.allocated h1 h2
    rw [← hstored.bytes j hj o ho]
    refine hready.byteAt_winode hlt (owner_fields hsame) (hstored.shape.allocated.2 hj) ?_ ho
    rw [hready.super, ← hready'.super]
    exact (halloc' j).2 hj
  refine ⟨m₁.winode i din', update D i din', ?_, ⟨hready', fun j hj => ?_, ?_, fun j => ?_,
    fun j h1 h2 => ?_, fun j h1 h2 k hk => ?_, fun j h1 h2 o ho hle => ?_⟩, ?_, hinodes, ?_, ?_,
    fun j hj => update_of_ne hj _ _, ?_, fun j hne h1 h2 => ?_⟩
  · simp only [Mkfs.iappend, rinode_eq hlt, h.disk i hlt, heq, Option.bind_eq_bind,
      Option.bind_some, hdin']
    rfl
  · rw [winode_image hlt, dinodeAt_putInode]
    split
    · next hji => rw [hji, update_self]
    · next hji =>
      rw [update_of_ne hji, ← h.disk j hj]
      refine hstored.shape.dinodeAt ?_
      rw [h.super]
      exact hj
  · exact hinodes.trans_le h.limit
  · rw [halloc', h.inodes, show (m₁.winode i din').freeinode = m.freeinode from hinodes]
  · replace h2 : j < m.freeinode := hinodes ▸ h2
    rcases eq_or_ne j i with rfl | hne
    · rw [update_self, ← hdin', hval]
      exact hmax
    · rw [update_of_ne hne]
      exact h.size j h1 h2
  · replace h2 : j < m.freeinode := hinodes ▸ h2
    rw [hown]
    rcases eq_or_ne j i with rfl | hne
    · rw [update_self, ← hdin', hval]
      exact hblocks k hk
    · rw [update_of_ne hne, hstored.shape.owner_other hne]
      exact h.blocks j h1 h2 k hk
  · replace h2 : j < m.freeinode := hinodes ▸ h2
    rcases eq_or_ne j i with rfl | hne
    · have hsize : (update D j din' j).size.toNat = (D j).size.toNat + p.length := by
        rw [update_self, ← hdin', hval]
      rw [hbytes j h1 h2 o ho, if_neg (by omega), h.tail j h1 h2 o ho (by omega)]
    · rw [hbytes j h1 h2 o ho, if_neg fun hc => hne hc.1]
      rw [update_of_ne hne] at hle
      exact h.tail j h1 h2 o ho hle
  · have : (m₁.winode i din').freeblock = m₁.freeblock := rfl
    omega
  · exact ⟨_, addrs, by rw [update_self, ← hdin', hfields]⟩
  · rw [update_self, ← hdin', hval]
  · have hlen : (contents m.image (D i)).length = (D i).size.toNat := by
      rw [contents, List.length_map, List.length_range]
    have hsplice : spliceAt (contents m.image (D i)) (D i).size.toNat p = _ :=
      spliceAt_map_range le_rfl
    rw [spliceAt, List.take_of_length_le hlen.le, List.drop_eq_nil_of_le (by omega),
      List.append_nil, Nat.max_eq_right (Nat.le_add_right _ _)] at hsplice
    rw [hsplice, contents, update_self, show din'.size.toNat = _ by rw [← hdin', hval]]
    refine List.map_congr_left fun o ho => ?_
    have := hbytes i hpos hi o ((List.mem_range.1 ho).trans_le hmax)
    rw [update_self] at this
    simpa only [true_and] using this
  · have hsize : (update D i din' j).size = (D j).size := by rw [update_of_ne hne]
    rw [contents, contents, hsize]
    refine List.map_congr_left fun o ho => ?_
    rw [hbytes j h1 h2 o ((List.mem_range.1 ho).trans_le (h.size j h1 h2)),
      if_neg fun hc => hne hc.1]

end

namespace Appended

variable {m m' m'' : Mkfs} {D D' D'' : Nat → Dinode} {i : Nat} {p q : List Byte}

theorem nil (h : Built m D) : Appended i [] m D m D :=
  ⟨h, rfl, rfl, ⟨_, _, rfl⟩, rfl, fun _ _ => rfl, (List.append_nil _).symm, fun _ _ _ _ => rfl⟩

theorem trans (h : Appended i p m D m' D') (h' : Appended i q m' D' m'' D'') :
    Appended i (p ++ q) m D m'' D'' where
  built := h'.built
  freeblock := by
    have h1 := h.freeblock
    have h2 := h'.freeblock
    rw [h.size, Nat.add_assoc, ← List.length_append] at h2
    omega
  freeinode := h'.freeinode.trans h.freeinode
  fields := by
    obtain ⟨_, _, hf⟩ := h.fields
    obtain ⟨size, addrs, hf'⟩ := h'.fields
    exact ⟨size, addrs, by rw [hf', hf]⟩
  size := by rw [h'.size, h.size, List.length_append, Nat.add_assoc]
  other j hj := (h'.other j hj).trans (h.other j hj)
  contents := by rw [h'.contents, h.contents, List.append_assoc]
  others j hj h1 h2 := (h'.others j hj h1 (h.freeinode ▸ h2)).trans (h.others j hj h1 h2)

end Appended

section
variable {m : Mkfs} {D : Nat → Dinode} {i : Nat}

/-- The loop that copies a file appends all of it. -/
theorem Built.copyFrom {turns : Nat} {data : List Byte} (h : Built m D) (hpos : 0 < i)
    (hi : i < m.freeinode) (hmax : (D i).size.toNat + data.length ≤ maxFile * bSize)
    (hturns : data.length ≤ turns)
    (hroom : m.freeblock + nBlocks ((D i).size.toNat + data.length) ≤
      1014 + nBlocks (D i).size.toNat) :
    ∃ m' D', copyFrom i turns m data = some m' ∧ Appended i data m D m' D' := by
  induction turns generalizing m D data with
  | zero =>
    obtain rfl : data = [] := List.length_eq_zero_iff.1 (by omega)
    exact ⟨m, D, rfl, .nil h⟩
  | succ turns ih =>
    rw [Mkfs.copyFrom]
    split
    · next h0 =>
      obtain rfl : data = [] := List.length_eq_zero_iff.1 h0
      exact ⟨m, D, rfl, .nil h⟩
    next h0 =>
    have htake : (data.take 512).length = min 512 data.length := List.length_take
    have hdrop : (data.drop 512).length = data.length - 512 := List.length_drop
    have hmono : nBlocks ((D i).size.toNat + (data.take 512).length) ≤
        nBlocks ((D i).size.toNat + data.length) :=
      nBlocks_mono (by omega)
    obtain ⟨m₁, D₁, heq, happ⟩ := h.iappend hpos hi (p := data.take 512) (by omega) (by omega)
    have hfree := happ.freeblock
    have hsum : (D₁ i).size.toNat + (data.drop 512).length = (D i).size.toNat + data.length := by
      rw [happ.size]
      omega
    obtain ⟨m₂, D₂, heq₂, happ₂⟩ :=
      ih happ.built (happ.freeinode ▸ hi) (hsum.trans_le hmax) (by omega)
        (by rw [hsum, happ.size]; omega)
    refine ⟨m₂, D₂, ?_, ?_⟩
    · simp only [heq, Option.bind_eq_bind, Option.bind_some, heq₂]
    · have := happ.trans happ₂
      rwa [List.take_append_drop] at this

/-! ## A new inode -/

/-- The inode that `ialloc` writes. -/
def newInode (type : BitVec 16) : Dinode :=
  { type, major := 0, minor := 0, nlink := 1, size := 0, addrs := 0 }

/-- The next inode is allocated, and is empty. -/
structure Ialloced (type : BitVec 16) (m : Mkfs) (D : Nat → Dinode) (m' : Mkfs)
    (D' : Nat → Dinode) : Prop where
  built : Built m' D'
  freeblock : m'.freeblock = m.freeblock
  freeinode : m'.freeinode = m.freeinode + 1
  self : D' m.freeinode = newInode type
  other : ∀ j ≠ m.freeinode, D' j = D j
  others : ∀ j, 0 < j → j < m.freeinode → contents m'.image (D' j) = contents m.image (D j)

/-- `ialloc` takes the next inode. -/
theorem Built.ialloc {type : BitVec 16} (h : Built m D) (htype : type ≠ 0)
    (hlt : m.freeinode < ninodes) :
    ∃ m' D', m.ialloc type = (m', m.freeinode) ∧ Ialloced type m D m' D' := by
  have hnot : ¬ Allocated (superOf m.image) D m.freeinode :=
    fun hc => Nat.lt_irrefl _ ((h.inodes _).1 hc).2
  have hnew : owner m.image (update D m.freeinode (newInode type)) = owner m.image D :=
    owner_newInode hnot rfl
  obtain ⟨hready, hown⟩ := h.toReady.winode (newInode type) hlt hnew
  have himage : (m.winode m.freeinode (newInode type)).image =
      m.image.putInode m.freeinode (newInode type) :=
    winode_image hlt
  have hnum : m.freeinode < (superOf m.image).ninodes.toNat := by
    rw [h.super]
    exact hlt
  have hself : update D m.freeinode (newInode type) m.freeinode = newInode type :=
    update_self _ _ _
  have hother : ∀ j ≠ m.freeinode, update D m.freeinode (newInode type) j = D j := fun j hj =>
    update_of_ne hj _ _
  have halloc : ∀ j, Allocated (superOf (m.winode m.freeinode (newInode type)).image)
      (update D m.freeinode (newInode type)) j ↔ 0 < j ∧ j < m.freeinode + 1 := fun j => by
    rw [hready.super, ← h.super]
    rcases eq_or_ne j m.freeinode with rfl | hne
    · rw [Allocated, hself]
      exact ⟨fun hc => ⟨hc.1, Nat.lt_succ_self _⟩, fun hc => ⟨hc.1, hnum, htype⟩⟩
    · rw [Allocated, hother j hne, ← Allocated, h.inodes]
      omega
  have hbytes : ∀ j, 0 < j → j < m.freeinode → ∀ o < maxFile * bSize,
      byteAt (m.winode m.freeinode (newInode type)).image
      (update D m.freeinode (newInode type) j) o =
        byteAt m.image (D j) o := fun j h1 h2 o ho => by
    refine h.toReady.byteAt_winode hlt hnew (h.allocated h1 h2) ?_ ho
    rw [Allocated, hother j h2.ne]
    exact h.allocated h1 h2
  refine ⟨{ m.winode m.freeinode (newInode type) with freeinode := m.freeinode + 1 }, _, rfl,
    ⟨⟨hready.super, hready.used, hready.low, hready.high, hready.clean, hready.owned⟩,
      fun j hj => ?_, hlt, halloc,
      fun j h1 h2 => ?_, fun j h1 h2 k hk => ?_, fun j h1 h2 o ho hle => ?_⟩, rfl, rfl,
      hself, hother, fun j h1 h2 => ?_⟩
  · show dinodeAt (m.winode m.freeinode (newInode type)).image j = _
    rw [himage, dinodeAt_putInode]
    split
    · next hjf => rw [hjf, hself]
    · next hjf => rw [hother j hjf, h.disk j hj]
  · rcases eq_or_ne j m.freeinode with rfl | hne
    · rw [hself]
      exact Nat.zero_le _
    · rw [hother j hne]
      exact h.size j h1 (by dsimp only at h2; omega)
  · show owner (m.winode m.freeinode (newInode type)).image _ (j, k) = none ↔ _
    rw [hown]
    rcases eq_or_ne j m.freeinode with rfl | hne
    · rw [hself]
      exact iff_of_true (if_neg fun hc => hnot hc.1) (show nBlocks 0 ≤ k from Nat.zero_le k)
    · rw [hother j hne]
      exact h.blocks j h1 (by dsimp only at h2; omega) k hk
  · show byteAt (m.winode m.freeinode (newInode type)).image _ o = 0
    rcases eq_or_ne j m.freeinode with rfl | hne
    · refine byteAt_of_none ((halloc _).2 ⟨h1, Nat.lt_succ_self _⟩) ho ?_
      rw [hown]
      exact if_neg fun hc => hnot hc.1
    · have h2' : j < m.freeinode := by
        dsimp only at h2
        omega
      rw [hother j hne] at hle
      rw [hbytes j h1 h2' o ho, h.tail j h1 h2' o ho hle]
  · rw [contents, contents, hother j h2.ne]
    refine List.map_congr_left fun o ho => ?_
    have hbyte := hbytes j h1 h2 o ((List.mem_range.1 ho).trans_le (h.size j h1 h2))
    rwa [hother j h2.ne] at hbyte

end

end Mkfs

/-! ## The files -/

/-- The name under which `mkfs` installs a host file. -/
def hostName (name : List Byte) : List Byte := if name.head? = some 95 then name.tail else name

/-- The entries of the root directory. -/
def rootEntries (files : List (List Byte × List Byte)) : List Dirent :=
  { inum := 1, name := padName [46] } :: { inum := 1, name := padName [46, 46] } ::
    files.mapIdx fun j file =>
    { inum := BitVec.ofNat 16 (j + 2), name := padName (hostName file.1) }

/-- The blocks that the files and the root directory take. -/
def hostBlocks (files : List (List Byte × List Byte)) : Nat :=
  nBlocks (Dirent.size * (files.length + 2)) + (files.map fun file => nBlocks file.2.length).sum

/-- There are inodes and data blocks enough for the files. -/
structure HostFits (files : List (List Byte × List Byte)) : Prop where
  inodes : files.length + 2 ≤ Mkfs.ninodes
  blocks : hostBlocks files ≤ Mkfs.nblocks

section
variable {files rest : List (List Byte × List Byte)} {file : List Byte × List Byte}

theorem length_rootEntries : (rootEntries files).length = files.length + 2 := by
  simp [rootEntries]

theorem rootEntries_concat : rootEntries (files ++ [file]) =
    rootEntries files ++
      [{ inum := BitVec.ofNat 16 (files.length + 2), name := padName (hostName file.1) }] := by
  simp [rootEntries, List.mapIdx_append]

theorem hostBlocks_concat : hostBlocks (files ++ [file]) =
    nBlocks (Dirent.size * (files.length + 2) + Dirent.size) +
    (files.map fun file => nBlocks file.2.length).sum +
      nBlocks file.2.length := by
  simp [hostBlocks, Nat.add_assoc, Dirent.size, Nat.mul_add]

theorem HostFits.left (h : HostFits (files ++ rest)) : HostFits files := by
  have hlen : (files ++ rest).length = files.length + rest.length := List.length_append
  refine ⟨?_, le_trans ?_ h.blocks⟩
  · have := h.inodes
    omega
  · rw [hostBlocks, hostBlocks, List.map_append, List.sum_append]
    have : nBlocks (Dirent.size * (files.length + 2)) ≤
        nBlocks (Dirent.size * ((files ++ rest).length + 2)) :=
      nBlocks_mono (Nat.mul_le_mul_left _ (by omega))
    omega

/-- All entries are of the same length. -/
theorem length_flatMap_toBytes {l : List Dirent} (h : ∀ de ∈ l, de.name.length = dirSiz) :
    (l.flatMap Dirent.toBytes).length = Dirent.size * l.length := by
  induction l with
  | nil => rfl
  | cons de l ih =>
    rw [List.flatMap_cons, List.length_append, Dirent.length_toBytes (h de List.mem_cons_self),
      ih fun e he => h e (List.mem_cons_of_mem de he), List.length_cons, Nat.mul_add]
    omega

theorem name_rootEntries : ∀ de ∈ rootEntries files, de.name.length = dirSiz := by
  intro de hde
  simp only [rootEntries, List.mem_cons, List.mem_mapIdx] at hde
  obtain rfl | rfl | ⟨j, hj, rfl⟩ := hde
  · exact length_padName
  · exact length_padName
  · exact length_padName

/-- The bytes of one of the entries. -/
theorem drop_flatMap_toBytes {l : List Dirent} (h : ∀ de ∈ l, de.name.length = dirSiz)
    {k : Nat} {de : Dirent} (hk : l[k]? = some de) :
    ((l.flatMap Dirent.toBytes).drop (Dirent.size * k)).take Dirent.size = de.toBytes := by
  induction l generalizing k with
  | nil => cases hk
  | cons e l ih =>
    have hlen := Dirent.length_toBytes (h e List.mem_cons_self)
    rw [List.flatMap_cons]
    cases k with
    | zero =>
      cases hk
      rw [Nat.mul_zero, List.drop_zero, ← hlen, List.take_left']
      rfl
    | succ k =>
      rw [Nat.mul_succ, Nat.add_comm, ← List.drop_drop, ← hlen, List.drop_left', hlen]
      · exact ih (fun e' he => h e' (List.mem_cons_of_mem e he)) hk
      · rfl

end

namespace Mkfs

/-- The state of `mkfs` after some files have been installed. -/
structure Holding (m : Mkfs) (D : Nat → Dinode) (files : List (List Byte × List Byte)) : Prop where
  built : Built m D
  freeinode : m.freeinode = files.length + 2
  freeblock : m.freeblock = metaBlocks + hostBlocks files
  root : (D rootIno).type = tDir ∧ (D rootIno).nlink = 1
  entries : contents m.image (D rootIno) = (rootEntries files).flatMap Dirent.toBytes
  file : ∀ j file, files[j]? = some file →
    (D (j + 2)).type = tFile ∧ (D (j + 2)).nlink = 1 ∧ contents m.image (D (j + 2)) = file.2

section
variable {m : Mkfs} {D : Nat → Dinode} {files : List (List Byte × List Byte)}
  {file : List Byte × List Byte}

theorem Holding.size_root (h : Holding m D files) :
    (D rootIno).size.toNat = Dirent.size * (files.length + 2) := by
  rw [← length_contents (d := m.image), h.entries, length_flatMap_toBytes name_rootEntries,
    length_rootEntries]

/-- A file is installed. -/
theorem Holding.install (h : Holding m D files) (hfits : HostFits (files ++ [file]))
    (hslash : slash ∉ file.1) (hsize : file.2.length ≤ maxFile * bSize) :
    ∃ m' D', m.install rootIno file.1 file.2 = some m' ∧ Holding m' D' (files ++ [file]) := by
  have hinodes := hfits.inodes
  have hblocks := hfits.blocks
  rw [List.length_append, List.length_singleton, ninodes] at hinodes
  rw [hostBlocks_concat, nblocks] at hblocks
  have hfree := h.freeblock
  rw [hostBlocks, show metaBlocks = 29 from rfl] at hfree
  have hnum := h.freeinode
  have hroot := h.size_root
  obtain ⟨m₁, D₁, heq₁, h₁⟩ := h.built.ialloc (show tFile ≠ 0 by decide) (by rw [ninodes]; omega)
  have hne : rootIno ≠ m.freeinode := by
    rw [rootIno]
    omega
  have hlen : (Dirent.toBytes { inum := BitVec.ofNat 16 m.freeinode, name := padName (hostName
    file.1) }).length =
      Dirent.size := Dirent.length_toBytes length_padName
  have hmax : maxFile * bSize = 71680 := rfl
  obtain ⟨m₂, D₂, heq₂, h₂⟩ := h₁.built.iappend (i := rootIno) (by decide)
    (p := Dirent.toBytes { inum := BitVec.ofNat 16 m.freeinode, name := padName (hostName file.1)
      })
    (by rw [h₁.freeinode, rootIno]; omega)
    (by rw [h₁.other _ hne, hroot, hlen, hmax, Dirent.size]; omega)
    (by rw [h₁.other _ hne, hroot, hlen, h₁.freeblock]; omega)
  have hfree₂ := h₂.freeblock
  rw [h₁.other _ hne, hroot, hlen, h₁.freeblock] at hfree₂
  have hself₂ : D₂ m.freeinode = newInode tFile := (h₂.other _ hne.symm).trans h₁.self
  have hzero : (D₂ m.freeinode).size.toNat = 0 := by
    rw [hself₂]
    rfl
  have hmax₂ : (D₂ m.freeinode).size.toNat + file.2.length ≤ maxFile * bSize := by omega
  obtain ⟨m₃, D₃, heq₃, h₃⟩ :=
    h₂.built.copyFrom (by omega) (by rw [h₂.freeinode, h₁.freeinode]; omega) hmax₂
      le_rfl (by rw [hzero, Nat.zero_add, show nBlocks 0 = 0 from rfl]; omega)
  have hfree₃ := h₃.freeblock
  rw [hzero, Nat.zero_add, show nBlocks 0 = 0 from rfl] at hfree₃
  refine ⟨m₃, D₃, ?_, h₃.built, ?_, ?_, ?_, ?_, fun j f hj => ?_⟩
  · have hentry : m₁.addEntry rootIno m.freeinode (hostName file.1) = some m₂ := heq₂
    simp only [hostName] at hentry
    simp only [Mkfs.install, if_neg hslash, heq₁, hentry, heq₃, Option.bind_eq_bind,
      Option.bind_some]
  · rw [h₃.freeinode, h₂.freeinode, h₁.freeinode, h.freeinode, List.length_append,
      List.length_singleton]
  · rw [hostBlocks_concat, show metaBlocks = 29 from rfl]
    omega
  · rw [h₃.other _ hne]
    obtain ⟨size, addrs, hf⟩ := h₂.fields
    rw [hf, h₁.other _ hne]
    exact h.root
  · rw [h₃.others _ hne (by decide) (by rw [h₂.freeinode, h₁.freeinode, rootIno]; omega),
      h₂.contents, h₁.others _ (by decide) (by rw [rootIno]; omega), h.entries, rootEntries_concat,
      List.flatMap_append, hnum]
    simp
  · rw [List.getElem?_append] at hj
    split at hj
    · next hlt =>
      obtain ⟨htype, hlinks, hcont⟩ := h.file j f hj
      have hj1 : j + 2 ≠ rootIno := by
        rw [rootIno]
        omega
      have hjn : j + 2 ≠ m.freeinode := by omega
      rw [h₃.others _ hjn (by omega) (by rw [h₂.freeinode, h₁.freeinode]; omega),
        h₂.others _ hj1 (by omega) (by rw [h₁.freeinode]; omega),
        h₁.others _ (by omega) (by omega), h₃.other _ hjn, h₂.other _ hj1, h₁.other _ hjn]
      exact ⟨htype, hlinks, hcont⟩
    · next hge =>
      have hj0 : j - files.length = 0 := by
        by_contra hne'
        rw [List.getElem?_eq_none (by rw [List.length_singleton]; omega)] at hj
        cases hj
      rw [hj0] at hj
      obtain rfl : file = f := by simpa using hj
      obtain rfl : j = files.length := by omega
      rw [← hnum, h₃.contents]
      obtain ⟨size, addrs, hf⟩ := h₃.fields
      refine ⟨by rw [hf, hself₂]; rfl, by rw [hf, hself₂]; rfl, ?_⟩
      have hnil : contents m₂.image (D₂ m.freeinode) = [] := List.length_eq_zero_iff.1 (by
        rw [length_contents, hzero])
      rw [hnil, List.nil_append]

/-- All files are installed. -/
theorem Holding.foldlM {rest : List (List Byte × List Byte)} (h : Holding m D files)
    (hfits : HostFits (files ++ rest)) (hslash : ∀ file ∈ rest, slash ∉ file.1)
    (hsize : ∀ file ∈ rest, file.2.length ≤ maxFile * bSize) :
    ∃ m' D', rest.foldlM (fun m file => m.install rootIno file.1 file.2) m = some m' ∧
      Holding m' D' (files ++ rest) := by
  induction rest generalizing m D files with
  | nil => exact ⟨m, D, rfl, by rwa [List.append_nil]⟩
  | cons file rest ih =>
    rw [List.append_cons] at hfits ⊢
    obtain ⟨m₁, D₁, heq, h₁⟩ := h.install hfits.left (hslash file List.mem_cons_self)
      (hsize file List.mem_cons_self)
    obtain ⟨m₂, D₂, heq₂, h₂⟩ := ih h₁ hfits (fun f hf => hslash f (List.mem_cons_of_mem file hf))
      fun f hf => hsize f (List.mem_cons_of_mem file hf)
    exact ⟨m₂, D₂, by rw [List.foldlM_cons, heq]; exact heq₂, h₂⟩

/-! ### The start -/

theorem disk_blank {x : Nat} (h : x ≠ 1) : blank.disk x = 0 := by
  simp only [blank, update_of_ne h]

theorem superOf_blank : superOf blank.image = ⟨1024, 985, 200, 10⟩ := by decide +kernel

theorem not_allocated_blank {i : Nat} :
    ¬ Allocated (superOf blank.image) (dinodeAt blank.image) i := by
  rintro ⟨-, hlt, htype⟩
  rw [superOf_blank] at hlt
  have hzero : blank.image (iblock i) = 0 :=
    (image_of_ne (iblock_ne hlt)).trans (disk_blank one_lt_iblock.ne')
  rw [dinodeAt, hzero] at htype
  exact htype (by simp [getDinode, BitField.get])

/-- The image before the first inode. -/
theorem built_blank : Built blank (dinodeAt blank.image) where
  super := superOf_blank
  used := rfl
  low := le_rfl
  high := by decide
  clean x hx := disk_blank fun he => by
    have : 29 ≤ x := hx
    omega
  owned := by
    have hnone : ∀ s, owner blank.image (dinodeAt blank.image) s = none := fun s =>
      if_neg fun hc => not_allocated_blank hc.1
    refine ⟨⟨fun s b hs => ?_, fun s t b hs _ => ?_⟩, fun b hb hfree => ?_⟩
    · rw [hnone] at hs
      cases hs
    · rw [hnone] at hs
      cases hs
    · rw [superOf_blank] at hb
      replace hb : b < 29 := hb
      rw [free_image superOf_blank (by omega)] at hfree
      replace hfree : 29 ≤ b := hfree
      omega
  disk _ _ := rfl
  limit := by decide
  inodes j := iff_of_false not_allocated_blank fun hc => by
    have : j < 1 := hc.2
    omega
  size j h1 h2 := by
    have : j < 1 := h2
    omega
  blocks j h1 h2 := by
    have : j < 1 := h2
    omega
  tail j h1 h2 := by
    have : j < 1 := h2
    omega

/-- The root directory is made. -/
theorem holding_start : ∃ m₁ m₂ m D, blank.ialloc tDir = (m₁, rootIno) ∧
    m₁.addEntry rootIno rootIno [46] = some m₂ ∧ m₂.addEntry rootIno rootIno [46, 46] = some m ∧
    Holding m D [] := by
  obtain ⟨m₁, D₁, heq₁, h₁⟩ := built_blank.ialloc (show tDir ≠ 0 by decide) (by decide)
  have hself : D₁ rootIno = newInode tDir := h₁.self
  have hinode : m₁.freeinode = 2 := h₁.freeinode
  have hblock : m₁.freeblock = 29 := h₁.freeblock
  have hlen : ∀ name : List Byte,
      (Dirent.toBytes { inum := BitVec.ofNat 16 rootIno, name := padName name }).length =
      16 := fun name =>
    Dirent.length_toBytes length_padName
  have hzero : (D₁ rootIno).size.toNat = 0 := by
    rw [hself]
    rfl
  have hmax : maxFile * bSize = 71680 := rfl
  obtain ⟨m₂, D₂, heq₂, h₂⟩ := h₁.built.iappend (i := rootIno) (by decide)
    (p := Dirent.toBytes { inum := BitVec.ofNat 16 rootIno, name := padName [46] })
    (by rw [hinode]; decide) (by rw [hzero, hlen, hmax]; omega)
    (by rw [hzero, hlen, hblock]; decide)
  have hsize₂ := h₂.size
  rw [hzero, hlen] at hsize₂
  have hfree₂ := h₂.freeblock
  rw [hzero, hlen, hblock, show nBlocks 0 = 0 from rfl, show nBlocks (0 + 16) = 1 from rfl,
    Nat.add_zero] at hfree₂
  obtain ⟨m₃, D₃, heq₃, h₃⟩ := h₂.built.iappend (i := rootIno) (by decide)
    (p := Dirent.toBytes { inum := BitVec.ofNat 16 rootIno, name := padName [46, 46] })
    (by rw [h₂.freeinode, hinode]; decide) (by rw [hsize₂, hlen, hmax]; omega)
    (by rw [hsize₂, hlen, hfree₂]; decide)
  have hfree₃ := h₃.freeblock
  rw [hsize₂, hlen, show nBlocks (0 + 16) = 1 from rfl, show nBlocks (0 + 16 + 16) = 1 from rfl]
    at hfree₃
  obtain ⟨_, _, hf₂⟩ := h₂.fields
  obtain ⟨_, _, hf₃⟩ := h₃.fields
  refine ⟨m₁, m₂, m₃, D₃, heq₁, heq₂, heq₃, h₃.built, ?_, ?_, ?_, ?_, nofun⟩
  · rw [h₃.freeinode, h₂.freeinode, hinode]
    rfl
  · rw [show metaBlocks + hostBlocks [] = 30 from rfl]
    omega
  · rw [hf₃, hf₂, hself]
    exact ⟨rfl, rfl⟩
  · have hnil : contents m₁.image (D₁ rootIno) = [] := List.length_eq_zero_iff.1 (by
      rw [length_contents, hzero])
    rw [h₃.contents, h₂.contents, hnil]
    rfl

end

end Mkfs

/-! ## The image -/

/-- What the image holds: the layout, the bitmap, the root directory and the files. The size of the
root directory is rounded up, and the blocks that are there may be fewer; the entries behind the
last one are free. -/
structure HostImage (d : Disk) (files : List (List Byte × List Byte)) : Prop where
  super : superOf d = ⟨1024, 985, 200, 10⟩
  log : ∀ x, 1014 ≤ x → d x = 0
  free : ∀ b < 1024, (Free d b ↔ Mkfs.metaBlocks + hostBlocks files ≤ b)
  owned : Owned d (dinodeAt d)
  inodes : ∀ j, Allocated (superOf d) (dinodeAt d) j ↔ 0 < j ∧ j < files.length + 2
  root : (dinodeAt d rootIno).type = tDir ∧ (dinodeAt d rootIno).nlink = 1
  rootSize : (dinodeAt d rootIno).size.toNat =
    (Dirent.size * (files.length + 2) / bSize + 1) * bSize
  rootBlocks : ∀ o < Dirent.size * (files.length + 2),
    owner d (dinodeAt d) (rootIno, slotOf (o / bSize)) ≠ none
  entry : ∀ k de, (rootEntries files)[k]? = some de → dirent d (dinodeAt d rootIno) k = de
  rest : ∀ k < nDirents (dinodeAt d rootIno), files.length + 2 ≤ k →
    (dirent d (dinodeAt d rootIno) k).inum = 0
  file : ∀ j file, files[j]? = some file → (dinodeAt d (j + 2)).type = tFile ∧
    (dinodeAt d (j + 2)).nlink = 1 ∧ Full d (dinodeAt d) (j + 2) ∧
    contents d (dinodeAt d (j + 2)) = file.2

theorem slotOf_lt_nBlocks {o : Nat} (h : o < n) : slotOf (o / bSize) < nBlocks n := by
  have := nBlocks_cases n
  rw [slotOf, nDirect, show bSize = 512 from rfl]
  split <;> omega

namespace Mkfs

section
variable {m : Mkfs} {D : Nat → Dinode} {files : List (List Byte × List Byte)}

/-- The root directory with its size rounded up. -/
def roundedRoot (D : Nat → Dinode) : Dinode :=
  { D rootIno with size := BitVec.ofNat 32 (((D rootIno).size.toNat / bSize + 1) * bSize) }

theorem update_roundedRoot (j : Nat) : (update D rootIno (roundedRoot D) j).addrs = (D j).addrs ∧
    (update D rootIno (roundedRoot D) j).type = (D j).type := by
  rcases eq_or_ne j rootIno with rfl | hne
  · rw [update_self]
    exact ⟨rfl, rfl⟩
  · rw [update_of_ne hne]
    exact ⟨rfl, rfl⟩

section
variable (h : Holding m D files)
include h

theorem Holding.fixRoot_eq : m.fixRoot rootIno = m.winode rootIno (roundedRoot D) := by
  have hlt : rootIno < ninodes := by decide
  rw [fixRoot, rinode_eq hlt, h.built.disk _ hlt]
  rfl

theorem Holding.ready_fixRoot :
    Ready (m.winode rootIno (roundedRoot D)) (update D rootIno (roundedRoot D)) ∧
      owner (m.winode rootIno (roundedRoot D)).image (update D rootIno (roundedRoot D)) =
        owner m.image D :=
  h.built.toReady.winode _ (by decide) (owner_fields update_roundedRoot)

theorem Holding.dinodeAt_fixRoot {j : Nat} (hj : j < ninodes) :
    dinodeAt (m.winode rootIno (roundedRoot D)).image j = update D rootIno (roundedRoot D) j := by
  rw [winode_image (by decide), dinodeAt_putInode]
  split
  · next hjr => rw [hjr, update_self]
  · next hjr => rw [update_of_ne hjr, h.built.disk j hj]

/-- The rounding gives no blocks to the root directory. -/
theorem Holding.owner_fixRoot :
    owner (m.winode rootIno (roundedRoot D)).image
    (dinodeAt (m.winode rootIno (roundedRoot D)).image) =
      owner m.image D := by
  obtain ⟨hready, hown⟩ := h.ready_fixRoot
  rw [owner_onDisk (D := update D rootIno (roundedRoot D)), hown]
  rw [hready.super]
  exact fun j hj => h.dinodeAt_fixRoot hj

/-- The rounding of the size of the root directory, and `balloc`. -/
theorem Holding.hostImage (hfits : HostFits files) :
    HostImage (m.fixRoot rootIno).image files := by
  have hlt : rootIno < ninodes := by decide
  have hinodes := hfits.inodes
  rw [ninodes] at hinodes
  rw [h.fixRoot_eq]
  obtain ⟨hready, hown⟩ := h.ready_fixRoot
  have hdisk := @Holding.dinodeAt_fixRoot _ _ _ h
  have hown' := h.owner_fixRoot
  have hsame := @update_roundedRoot D
  generalize hdin : roundedRoot D = din at hready hown hdisk hown' hsame ⊢
  have hroot : dinodeAt (m.winode rootIno din).image rootIno = din := by
    rw [hdisk hlt, update_self]
  have hother : ∀ j < ninodes, j ≠ rootIno → dinodeAt (m.winode rootIno din).image j = D j :=
    fun j hj hne => by
    rw [hdisk hj, update_of_ne hne]
  have hsup : superOf (m.winode rootIno din).image = superOf m.image :=
    hready.super.trans h.built.super.symm
  have hblock := h.freeblock
  have hsize := h.size_root
  have hinRoot : rootIno < m.freeinode := by
    rw [h.freeinode, rootIno]
    omega
  have htype : ∀ j < ninodes, (dinodeAt (m.winode rootIno din).image j).type = (D j).type :=
    fun j hj => by
    rw [hdisk hj, (hsame j).2]
  have halloc : ∀ j, Allocated (superOf (m.winode rootIno din).image)
      (dinodeAt (m.winode rootIno din).image) j ↔ Allocated (superOf m.image) D j := fun j => by
    rw [Allocated, Allocated, hsup, h.built.super]
    exact and_congr_right fun _ => and_congr_right fun hj => by rw [htype j hj]
  have hblocks : ∀ j, 0 < j → j < m.freeinode → ∀ o < (D j).size.toNat,
      owner (m.winode rootIno din).image (dinodeAt (m.winode rootIno din).image)
      (j, slotOf (o / bSize)) ≠
        none := by
    intro j h1 h2 o ho hnone
    have hmax := h.built.size j h1 h2
    rw [hown', h.built.blocks j h1 h2 _ (slotOf_lt (div_bSize_lt (by omega)))] at hnone
    exact absurd (slotOf_lt_nBlocks ho) (Nat.not_lt.2 hnone)
  have hbyte : ∀ j, 0 < j → j < m.freeinode → ∀ o < maxFile * bSize,
      byteAt (m.winode rootIno din).image (dinodeAt (m.winode rootIno din).image j) o =
        byteAt m.image (D j) o := by
    intro j h1 h2 o ho
    have hj := h.built.allocated h1 h2
    rw [hdisk (h2.trans_le h.built.limit)]
    refine h.built.toReady.byteAt_winode hlt (owner_fields hsame) hj ?_ ho
    rwa [Allocated, (hsame j).2]
  have hval : din.size.toNat = (Dirent.size * (files.length + 2) / bSize + 1) * bSize := by
    rw [← hdin, roundedRoot, hsize]
    refine toNat_ofNat_of_lt ?_
    rw [Dirent.size, show bSize = 512 from rfl]
    omega
  refine ⟨hready.super, fun x hx => ?_, fun b hb => ?_, ?_, fun j => ?_, ?_, ?_, fun o ho => ?_,
    fun k de hk => ?_, fun k hk hle => ?_, fun j file hj => ?_⟩
  · rw [image_of_ne (by omega)]
    exact hready.clean x (hready.high.trans hx)
  · rw [hready.free_iff hb, ← hblock]
    rfl
  · exact hready.owned.congr hready.fits hready.dataStart_le rfl (fun _ _ _ => rfl)
      (hown'.trans hown.symm)
  · rw [halloc, h.built.inodes, h.freeinode]
  · rw [hroot, ← hdin]
    exact h.root
  · rw [hroot, hval]
  · exact hblocks rootIno (by decide) hinRoot o (by rwa [hsize])
  · have hlen : k < files.length + 2 := by
      have := (List.getElem?_eq_some_iff.1 hk).1
      rwa [length_rootEntries] at this
    have hle : Dirent.size * k + Dirent.size ≤ (D rootIno).size.toNat := by
      rw [hsize, Dirent.size]
      omega
    rw [dirent_bytes (by rw [hroot, hval, Dirent.size, show bSize = 512 from rfl]; omega)]
    have hbytes := drop_flatMap_toBytes name_rootEntries hk
    rw [← h.entries, take_drop_contents, Nat.min_eq_left (by omega)] at hbytes
    rw [← Dirent.ofBytes_toBytes (name_rootEntries de (List.mem_of_getElem? hk)), ← hbytes]
    refine congrArg Dirent.ofBytes (List.map_congr_left fun t ht => ?_)
    rw [List.mem_range] at ht
    exact hbyte rootIno (by decide)
      hinRoot _ (by have := h.built.size rootIno (by decide) hinRoot; omega)
  · -- Behind the last entry there is nothing.
    have hmax : (Dirent.size * (files.length + 2) / bSize + 1) * bSize ≤ maxFile * bSize := by
      rw [Dirent.size, show bSize = 512 from rfl, show maxFile = 140 from rfl]
      omega
    rw [nDirents, hroot, hval] at hk
    have hend : Dirent.size * k + Dirent.size ≤
        (Dirent.size * (files.length + 2) / bSize + 1) * bSize := by
      rw [Dirent.size] at hk ⊢
      omega
    have hzero : ∀ t ∈ List.range Dirent.size, byteAt (m.winode rootIno din).image
        (dinodeAt (m.winode rootIno din).image rootIno) (Dirent.size * k + t) = 0 := fun t ht => by
      have ht := List.mem_range.1 ht
      have hlt : Dirent.size * k + t < maxFile * bSize := by omega
      rw [hbyte rootIno (by decide) hinRoot _ hlt]
      refine h.built.tail rootIno (by decide) hinRoot _ hlt ?_
      rw [hsize]
      have := Nat.mul_le_mul_left Dirent.size hle
      omega
    rw [dirent_bytes (by rw [hroot, hval]; exact hend), List.map_congr_left hzero]
    rfl
  · have hlen := (List.getElem?_eq_some_iff.1 hj).1
    obtain ⟨hftype, hlinks, hcont⟩ := h.file j file hj
    have h2 : j + 2 < m.freeinode := by
      rw [h.freeinode]
      omega
    have hne : j + 2 ≠ rootIno := by
      rw [rootIno]
      omega
    have hD := hother (j + 2) (h2.trans_le h.built.limit) hne
    refine ⟨by rw [hD, hftype], by rw [hD, hlinks], ⟨?_, fun o ho => ?_⟩, ?_⟩
    · rw [hD]
      exact h.built.size _ (by omega) h2
    · rw [hD] at ho
      exact hblocks _ (by omega) h2 o ho
    · rw [← hcont, contents, contents, hD]
      refine List.map_congr_left fun o ho => ?_
      have := hbyte (j + 2) (by omega) h2
        o ((List.mem_range.1 ho).trans_le (h.built.size _ (by omega) h2))
      rwa [hD] at this

end

end

end Mkfs

section
variable {files : List (List Byte × List Byte)}

section
variable (hfits : HostFits files) (hslash : ∀ file ∈ files, slash ∉ file.1)
  (hsize : ∀ file ∈ files, file.2.length ≤ maxFile * bSize)
include hfits hslash hsize

/-- `mkfs` installs the files, if they fit, and then rounds the size of the root directory. -/
theorem mkfs_holding : ∃ m D, mkfs files = some (Mkfs.fixRoot m rootIno).image ∧
    Mkfs.Holding m D files := by
  obtain ⟨m₁, m₂, m₃, D₃, heq₁, heq₂, heq₃, h₃⟩ := Mkfs.holding_start
  obtain ⟨m, D, heq, h⟩ := h₃.foldlM hfits hslash hsize
  rw [List.nil_append] at h
  have hused : (m.fixRoot rootIno).usedblocks < 512 * 8 := by
    have := h.built.used
    have := h.built.high
    show m.usedblocks < 512 * 8
    omega
  refine ⟨m, D, ?_, h⟩
  simp only [mkfs, heq₁, heq₂, heq₃, heq, Mkfs.balloc, if_pos hused, Option.bind_eq_bind,
    Option.bind_some]
  rfl

/-- `mkfs` makes an image with the files, if they fit. -/
theorem mkfs_hostImage : ∃ d, mkfs files = some d ∧ HostImage d files := by
  obtain ⟨m, D, hd, h⟩ := mkfs_holding hfits hslash hsize
  exact ⟨_, hd, h.hostImage hfits⟩

end

end

/-! ## The kernel on the image -/

section
variable {files : List (List Byte × List Byte)} {d : Disk}

theorem HostImage.geometry (h : HostImage d files) :
    Geometry (mounted d).bufs.data (mounted d).log := by
  refine ⟨rfl, ?_, ?_⟩
  · rw [show (mounted d).bufs.data = d from rfl,
      show (mounted d).log.start = (superOf d).logStart from rfl, show (mounted d).log.size =
      (superOf d).nlog.toNat from rfl, h.super]
    decide
  · rw [show (mounted d).bufs.data = d from rfl,
      show (mounted d).log.start = (superOf d).logStart from rfl, h.super]
    decide

theorem HostImage.view (h : HostImage d files) : (FsState.bootFrom d).View (mounted d) := by
  refine bootFrom_view ?_ ?_
  · rw [h.super]
    decide
  · rw [h.super, h.log _ (by decide)]
    simp [headerN, BitField.get]

end

end MCertikos
