import MCertikos.Fs.Layout
import MCertikos.Fs.Volume

/-!
# Allocating and freeing blocks

What `block_alloc` and `block_free` do to a volume. `block_alloc` takes the first free block, which
is a data block as long as there is a free one, and fills it with zeros.
-/

namespace MCertikos

open Program BitField

section
variable {A : Allow} {pid x : Nat} {a : FsState Vol}

theorem FsState.release_store_hold {v : Block} (hx : x ∉ a.bufs.held) :
    ((a.hold x).store x v).release x = a.store x v := by
  simp only [hold, store, release, Finset.erase_insert hx]

/-- The block is read from its sector and stored there, with new contents. -/
theorem vwp_update {α : Type} {k : Fs α} {v : Block} {Q : α → FsState Vol → Prop}
    (hbusy : a.log.busy = true) (hroom : A.Room a) (hheld : x ∉ a.bufs.held)
    (hhome : ¬ InLog a.log.start a.log.size x) (f : Block → Block) (hv : f (a.bufs.data x) = v)
    (hk : vwp A pid k Q (a.store x v)) :
    vwp A pid (do
      let b ← bufcacheRead x
      bufSet x (f b)
      logWrite x
      bufcacheRelease x
      k) Q a := by
  subst hv
  refine vwp_bind (vwp_bufcacheRead hroom.reads hheld
    hhome (vwp_store hbusy (Finset.mem_insert_self _ _) ?_ ?_))
  · rwa [FsState.release_hold hheld]
  · rwa [FsState.release_store_hold hheld]

end

/-- The outer loop of `block_alloc` up to the call of `block_zero`. -/
def blockMarkFrom (sb : Superblock) : List Nat → Fs Nat
  | [] => kernPanic .outOfBlocks
  | b :: bs => do
    let data ← bufcacheRead (bblock b sb.ninodes.toNat)
    match freeBit data (min bpb (sb.size.toNat - b)) with
    | some bi =>
      bufSet (bblock b sb.ninodes.toNat) (put data bi (1 : BitVec 1))
      logWrite (bblock b sb.ninodes.toNat)
      bufcacheRelease (bblock b sb.ninodes.toNat)
      return b + bi
    | none =>
      bufcacheRelease (bblock b sb.ninodes.toNat)
      blockMarkFrom sb bs

/-- `block_alloc` up to the call of `block_zero`. -/
def blockMark : Fs Nat := do
  let sb ← readSuperblock
  blockMarkFrom sb (bitmapStarts sb.size.toNat)

theorem blockAllocFrom_eq {sb : Superblock} {bs : List Nat} :
    blockAllocFrom sb bs = blockMarkFrom sb bs >>= fun f => blockZero f >>= fun _ => pure f := by
  induction bs with
  | nil => exact congrArg (Prog.op _) (funext fun r => r.elim)
  | cons b bs ih =>
    rw [blockAllocFrom, blockMarkFrom, Prog.bind_assoc]
    refine bind_congr fun data => ?_
    cases freeBit data (min bpb (sb.size.toNat - b)) with
    | some bi =>
      simp only [Prog.bind_assoc]
      rfl
    | none => simp only [Prog.bind_assoc, ih]

theorem blockAlloc_eq : blockAlloc = blockMark >>= fun f => blockZero f >>= fun _ => pure f := by
  rw [blockAlloc, blockMark, Prog.bind_assoc]
  exact bind_congr fun sb => blockAllocFrom_eq

/-- The volume after the bit of a block is set. -/
def FsState.markUsed (a : FsState Vol) (f : Nat) : FsState Vol :=
  let bm := bblock f (superOf a.bufs.data).ninodes.toNat
  a.store bm (put (a.bufs.data bm) (f % bpb) (1 : BitVec 1))

/-- The volume after a block is allocated. -/
def FsState.alloc (a : FsState Vol) (f : Nat) : FsState Vol :=
  let bm := bblock f (superOf a.bufs.data).ninodes.toNat
  (a.store bm (put (a.bufs.data bm) (f % bpb) (1 : BitVec 1))).store f 0

section
variable {A : Allow} {pid f : Nat} {rest : List Nat} {a : FsState Vol}
  {Q : Nat → FsState Vol → Prop}

/-- The super block is only read. -/
theorem vwp_readSuperblock {α : Type} {k : Superblock → Fs α} {Q : α → FsState Vol → Prop}
    (hroom : A.Reads a) (hgeo : Geometry a.bufs.data a.log) (hheld : 1 ∉ a.bufs.held)
    (hk : vwp A pid (k (superOf a.bufs.data)) Q a) :
    vwp A pid (readSuperblock >>= k) Q a := by
  have hlt : 1 < (superOf a.bufs.data).dataStart :=
    one_lt_bitmapStart.trans bitmapStart_lt_dataStart
  refine vwp_bind (vwp_peek hroom hheld (fun hin => ?_) (vwp_pure hk))
  have := hin.1
  have := hgeo.fits
  omega

/-- The bit number `j` of the bitmap block number `i`. -/
theorem free_iff {d : Disk} {i j : Nat} (hj : j < bpb) :
    Free d (bpb * i + j) ↔ get (d (bblock (bpb * i) (superOf d).ninodes.toNat)) j 1 = 0 := by
  have hdiv : (bpb * i + j) / bpb = bpb * i / bpb := by
    rw [bpb] at hj ⊢
    omega
  have hmod : (bpb * i + j) % bpb = j := by
    rw [bpb] at hj ⊢
    omega
  rw [Free, bblock, bblock, hdiv, hmod]

/-- The inner loop of `block_alloc` stops at the first free block, if its bit is in this bitmap
block. -/
theorem freeBit_eq_some {d : Disk} (hf : frees d = f :: rest) {n : Nat} (hn : f % bpb < n) :
    freeBit (d (bblock (bpb * (f / bpb)) (superOf d).ninodes.toNat)) n = some (f % bpb) := by
  have hmod : f % bpb < bpb := Nat.mod_lt _ (by decide)
  have hdiv : bpb * (f / bpb) + f % bpb = f := Nat.div_add_mod f bpb
  rw [freeBit, List.find?_range_eq_some]
  refine ⟨?_, List.mem_range.2 hn, fun j hj => ?_⟩
  · have := (mem_frees.1 (hf ▸ List.mem_cons_self : f ∈ frees d)).2
    rw [← hdiv, free_iff hmod] at this
    simpa using this
  · have : ¬ Free d (bpb * (f / bpb) + j) := notFree_of_lt hf (by omega)
    rw [free_iff (by omega)] at this
    simpa using this

/-- It finds nothing in an earlier bitmap block. -/
theorem freeBit_eq_none {d : Disk} (hf : frees d = f :: rest) {i n : Nat} (hi : i < f / bpb)
    (hn : n ≤ bpb) :
    freeBit (d (bblock (bpb * i) (superOf d).ninodes.toNat)) n = none := by
  have hdiv : bpb * (f / bpb) + f % bpb = f := Nat.div_add_mod f bpb
  rw [freeBit, List.find?_range_eq_none]
  intro j hj
  have hlt : bpb * i + j < f := by
    have : bpb * (i + 1) ≤ bpb * (f / bpb) := Nat.mul_le_mul_left _ hi
    rw [Nat.mul_add] at this
    omega
  have := notFree_of_lt hf hlt
  rw [free_iff (by omega)] at this
  simpa using this

theorem vwp_blockZero {α : Type} {k : Fs α} {Q : α → FsState Vol → Prop}
    (hbusy : a.log.busy = true) (hroom : A.Room a) (hheld : f ∉ a.bufs.held)
    (hhome : ¬ InLog a.log.start a.log.size f) (hk : vwp A pid k Q (a.store f 0)) :
    vwp A pid (blockZero f >>= fun _ => k) Q a :=
  vwp_bind (vwp_update (k := pure ()) hbusy hroom hheld hhome (fun _ => 0) rfl (vwp_pure hk))

/-- What a thread needs for the block allocator: it is in a transaction, and the blocks that it
holds are data blocks in use. -/
structure Active (a : FsState Vol) : Prop where
  geo : Geometry a.bufs.data a.log
  busy : a.log.busy = true
  held : ∀ x ∈ a.bufs.held, (superOf a.bufs.data).dataStart ≤ x ∧ ¬ Free a.bufs.data x

theorem Active.notMem_of_lt (h : Active a) {x : Nat} (hx : x < (superOf a.bufs.data).dataStart) :
    x ∉ a.bufs.held := fun hm => by
  have := (h.held x hm).1
  omega

theorem Active.home_of_lt (h : Active a) {x : Nat} (hx : x < (superOf a.bufs.data).logStart) :
    ¬ InLog a.log.start a.log.size x := fun hin => by
  have := hin.1
  rw [h.geo.start] at this
  omega

theorem Active.dataStart_le (h : Active a) :
    (superOf a.bufs.data).dataStart ≤ (superOf a.bufs.data).logStart := by
  rw [← h.geo.start]
  exact h.geo.fits

/-- The outer loop of `block_alloc` sets the bit of the first free block. -/
theorem vwp_blockMarkFrom (h : Active a) (hf : frees a.bufs.data = f :: rest) (hroom : A.Room a)
    (hQ : Q f (a.markUsed f)) {i n : Nat} (hi : i ≤ f / bpb) (hn : f / bpb < i + n) :
    vwp A pid (blockMarkFrom (superOf a.bufs.data) ((List.range' i n).map (bpb * ·))) Q a := by
  have hdiv : bpb * (f / bpb) + f % bpb = f := Nat.div_add_mod f bpb
  obtain ⟨hsize, hfree⟩ := mem_frees.1 (hf ▸ List.mem_cons_self : f ∈ frees a.bufs.data)
  induction n generalizing i with
  | zero => omega
  | succ n ih =>
    rw [List.range'_succ, List.map_cons, blockMarkFrom]
    have hle : bpb * i ≤ bpb * (f / bpb) := Nat.mul_le_mul_left _ hi
    have hbm : bblock (bpb * i) (superOf a.bufs.data).ninodes.toNat <
        (superOf a.bufs.data).dataStart :=
      bblock_lt (by omega)
    have hbm' := h.notMem_of_lt hbm
    have hhome := h.home_of_lt (hbm.trans_le h.dataStart_le)
    refine vwp_bind (vwp_bufcacheRead hroom.reads hbm' hhome ?_)
    rcases Nat.lt_or_eq_of_le hi with hlt | rfl
    · rw [freeBit_eq_none hf hlt (Nat.min_le_left _ _)]
      refine vwp_bind (vwp_bufcacheRelease (Finset.mem_insert_self _ _) ?_)
      rw [FsState.release_hold hbm']
      exact ih hlt (by omega)
    · have hbb : bblock (bpb * (f / bpb)) (superOf a.bufs.data).ninodes.toNat =
          bblock f (superOf a.bufs.data).ninodes.toNat := by
        rw [bblock, bblock, Nat.mul_div_cancel_left _ (by decide)]
      rw [freeBit_eq_some hf (by
        have : f % bpb < bpb := Nat.mod_lt _ (by decide)
        omega)]
      dsimp only
      rw [hdiv, hbb]
      rw [hbb] at hbm'
      refine vwp_store h.busy (Finset.mem_insert_self _ _) ?_ (vwp_pure ?_)
      · rwa [FsState.release_hold hbm']
      · rw [FsState.release_store_hold hbm']
        exact hQ

theorem vwp_blockMark (h : Active a) (hf : frees a.bufs.data = f :: rest) (hroom : A.Room a)
    (hQ : Q f (a.markUsed f)) : vwp A pid blockMark Q a := by
  have h1 : 1 ∉ a.bufs.held :=
    h.notMem_of_lt (one_lt_bitmapStart.trans bitmapStart_lt_dataStart)
  have hsize := (mem_frees.1 (hf ▸ List.mem_cons_self : f ∈ frees a.bufs.data)).1
  refine vwp_readSuperblock hroom.reads h.geo h1 ?_
  rw [bitmapStarts, List.range_eq_range']
  refine vwp_blockMarkFrom h hf hroom hQ (Nat.zero_le _) ?_
  rw [bpb]
  omega

/-- `block_alloc` takes the first free block. -/
theorem vwp_blockAlloc (h : Active a) (hf : frees a.bufs.data = f :: rest)
    (hin : (superOf a.bufs.data).InData f) (hroom : A.Room a)
    (hroom' : ∀ v, A.Room (a.store (bblock f (superOf a.bufs.data).ninodes.toNat) v))
    (hQ : Q f (a.alloc f)) : vwp A pid blockAlloc Q a := by
  have hfree := (mem_frees.1 (hf ▸ List.mem_cons_self : f ∈ frees a.bufs.data)).2
  rw [blockAlloc_eq]
  exact vwp_bind (vwp_blockMark h hf
    hroom (vwp_blockZero h.busy (hroom' _) (fun hm => (h.held f hm).2 hfree) (h.home_of_lt hin.2)
      (vwp_pure hQ)))

end

end MCertikos
