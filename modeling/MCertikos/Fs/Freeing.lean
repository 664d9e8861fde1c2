import MCertikos.Fs.Handles

/-!
# Inodes that are freed and allocated

What `inode_put` does to a volume with the last reference to an inode without links: `inode_trunc`
frees the blocks of the inode one by one, each of which is in use, and then the inode itself is
marked as free (`Reclaimed`). `inode_alloc` takes the first inode that is free.

While `inode_trunc` runs, the inode still points to blocks that are free. So the loops are
specified by the set of blocks that they free (`Freed`), and the ownership of blocks is taken up
again at their end.
-/

namespace MCertikos

open Program BitField Ownership Function

/-! ## Freeing blocks -/

/-- The volume after a block is freed. -/
def FsState.freeBlock (a : FsState Vol) (b : Nat) : FsState Vol :=
  let bm := bblock b (superOf a.bufs.data).ninodes.toNat
  a.store bm (put (a.bufs.data bm) (b % bpb) (0 : BitVec 1))

@[simp] theorem FsState.freeBlock_data {a : FsState Vol} {b : Nat} :
    (a.freeBlock b).bufs.data = a.bufs.data.mark b 0 := rfl

/-- The blocks in `S` are freed; but for the bitmap and the copy of an inode in memory, all is as
before. -/
structure Freed (ip : Nat) (S : Set Nat) (a a' : FsState Vol) : Prop where
  frame : a.Frame ip a'
  kept : ∀ x, x < (superOf a.bufs.data).bitmapStart ∨ (superOf a.bufs.data).dataStart ≤ x →
    a'.bufs.data x = a.bufs.data x
  free : ∀ c, Free a'.bufs.data c ↔ c ∈ S ∨ Free a.bufs.data c
  fits : ∀ g : Ghost, g.Fits a → g.Fits a'

section
variable {A : Allow} {pid ip i b x : Nat} {S T : Set Nat} {a a' a'' : FsState Vol} {g : Ghost}
  {Q : Unit → FsState Vol → Prop} {din : Dinode}

namespace Freed

theorem super (h : Freed ip S a a') : superOf a'.bufs.data = superOf a.bufs.data :=
  superOf_congr fun x hx => h.kept x (.inl hx)

theorem trans (h : Freed ip S a a') (h' : Freed ip T a' a'') : Freed ip (S ∪ T) a a'' where
  frame := h.frame.trans h'.frame
  kept x hx := (h'.kept x (by rwa [h.super])).trans (h.kept x hx)
  free c := by
    rw [h'.free, h.free, Set.mem_union, ← or_assoc, or_comm (a := c ∈ T)]
  fits g hg := h'.fits g (h.fits g hg)

/-- The inode is changed in memory. -/
theorem setDin (din : Dinode) : Freed ip ∅ a { a with inode := a.inode.setDin ip din } where
  frame := .setDin
  kept _ _ := rfl
  free c := by simp
  fits _ hg := ⟨hg.distinct, hg.sectors, hg.card, hg.size, hg.single, hg.bitmap⟩

theorem refl : Freed ip ∅ a a := ⟨.refl, fun _ _ => rfl, fun c => by simp, fun _ hg => hg⟩

theorem freeBlock (hb : b < (superOf a.bufs.data).size.toNat) :
    Freed ip {b} a (a.freeBlock b) where
  frame := .store
  kept x hx := hx.elim (fun hlt => Disk.mark_of_lt hlt) fun hge => Disk.mark_of_ge hb hge
  free c := by
    rw [FsState.freeBlock_data, free_mark, Set.mem_singleton_iff]
    split <;> simp_all
  fits g hg := hg.store (bblock_single hg.single hb ▸ hg.bitmap) superOf_mark

/-- What is not freed stays in use. -/
theorem mem_used (h : Freed ip S a a') (hb : b ∈ used a.bufs.data) (hS : b ∉ S) :
    b ∈ used a'.bufs.data :=
  ⟨h.super.symm ▸ hb.1, fun hfree => ((h.free b).1 hfree).elim hS hb.2⟩

/-- A sector is held meanwhile. -/
theorem release (h : Freed ip S (a.hold x) a') (hx : x ∉ a.bufs.held) :
    Freed ip S a (a'.release x) where
  frame := by
    refine ⟨h.frame.inode, h.frame.entry, h.frame.file, h.frame.openfiles, h.frame.cwd,
      h.frame.start, h.frame.size, h.frame.busy, ?_⟩
    simp only [FsState.release, h.frame.held, FsState.hold, Finset.erase_insert hx]
  kept := h.kept
  free := h.free
  fits g hg := by
    obtain ⟨h1, h2, h3, h4, h5, h6⟩ :=
      h.fits g ⟨hg.distinct, hg.sectors, hg.card, hg.size, hg.single, hg.bitmap⟩
    exact ⟨h1, h2, h3, h4, h5, h6⟩

end Freed

/-- What a thread needs to free blocks: it is in a transaction, and holds at most one sector, which
is a data block. -/
structure Trims (A : Allow) (g : Ghost) (a : FsState Vol) : Prop where
  geo : Geometry a.bufs.data a.log
  busy : a.log.busy = true
  held : ∀ x ∈ a.bufs.held, (superOf a.bufs.data).dataStart ≤ x
  card : a.bufs.held.card ≤ 1
  budget : A.Lax ∨ g.Fits a

namespace Trims

theorem freed (h : Trims A g a) (hf : Freed ip S a a') : Trims A g a' where
  geo := h.geo.congr hf.super hf.frame.start hf.frame.size
  busy := hf.frame.busy.trans h.busy
  held x hx := by
    rw [hf.super]
    exact h.held x (hf.frame.held ▸ hx)
  card := hf.frame.held ▸ h.card
  budget := h.budget.imp id (hf.fits g)

theorem notMem_of_lt (h : Trims A g a) (hx : x < (superOf a.bufs.data).dataStart) :
    x ∉ a.bufs.held :=
  fun hm => by
    have := h.held x hm
    omega

theorem home_of_lt (h : Trims A g a) (hx : x < (superOf a.bufs.data).dataStart) :
    ¬ InLog a.log.start a.log.size x := fun hin => by
  have := hin.1
  have := h.geo.fits
  omega

theorem room (h : Trims A g a) : A.Room a := Ghost.room h.budget h.card

end Trims

/-- `block_free` of a block in use. -/
theorem vwp_blockFree (ip : Nat) (h : Trims A g a) (hb : b ∈ used a.bufs.data)
    (hQ : Freed ip {b} a (a.freeBlock b) → Q () (a.freeBlock b)) :
    vwp A pid (blockFree b) Q a := by
  obtain ⟨hin, hfree⟩ := hb
  have hsize : b < (superOf a.bufs.data).size.toNat := by
    have := hin.2
    have := h.geo.start
    have := h.geo.size
    omega
  have hbm := bblock_lt hsize
  have h1 := h.notMem_of_lt (one_lt_bitmapStart.trans bitmapStart_lt_dataStart)
  refine vwp_readSuperblock h.room.reads h.geo h1 (vwp_bind (vwp_bufcacheRead h.room.reads
    (h.notMem_of_lt hbm) (h.home_of_lt hbm) (vwp_ite (fun h0 => absurd h0 hfree) fun _ => ?_)))
  refine vwp_store (k := pure ()) h.busy (Finset.mem_insert_self _ _) ?_ (vwp_pure ?_)
  · rw [FsState.release_hold (h.notMem_of_lt hbm)]
    exact h.room
  · rw [FsState.release_store_hold (h.notMem_of_lt hbm)]
    exact hQ (.freeBlock hsize)

/-! ## The loops of `inode_trunc` -/

/-- The blocks that are listed. -/
def listed (f : Nat → Nat) (ks : List Nat) : Set Nat := {b | b ≠ 0 ∧ ∃ k ∈ ks, f k = b}

/-- The blocks that are listed are data blocks in use, and none is listed twice. -/
structure Releasable (d : Disk) (f : Nat → Nat) (ks : List Nat) : Prop where
  nodup : ks.Nodup
  used : ∀ k ∈ ks, f k ≠ 0 → f k ∈ used d
  once : ∀ k ∈ ks, ∀ l ∈ ks, f k ≠ 0 → f k = f l → k = l

section
variable {f : Nat → Nat} {k : Nat} {ks : List Nat} {d : Disk}

theorem listed_nil : listed f [] = ∅ := by simp [listed]

theorem listed_cons_of_eq (h : f k = 0) : listed f (k :: ks) = listed f ks := by
  ext c
  simp only [listed, List.mem_cons, exists_eq_or_imp, Set.mem_ofPred_eq, and_congr_right_iff]
  intro hc
  rw [h, or_iff_right hc.symm]

theorem listed_cons_of_ne (h : f k ≠ 0) : listed f (k :: ks) = {f k} ∪ listed f ks := by
  ext c
  simp only [listed, List.mem_cons, exists_eq_or_imp, Set.mem_ofPred_eq, Set.singleton_union,
    Set.mem_insert_iff]
  constructor
  · rintro ⟨hc, he | he⟩
    · exact .inl he.symm
    · exact .inr ⟨hc, he⟩
  · rintro (rfl | ⟨hc, he⟩)
    · exact ⟨h, .inl rfl⟩
    · exact ⟨hc, .inr he⟩

theorem Releasable.tail (h : Releasable d f (k :: ks)) : Releasable d f ks :=
  ⟨(List.nodup_cons.1 h.nodup).2, fun l hl => h.used l (List.mem_cons_of_mem k hl),
    fun l hl m hm => h.once l (List.mem_cons_of_mem k hl) m (List.mem_cons_of_mem k hm)⟩

/-- Other blocks are freed. -/
theorem Releasable.freed (h : Releasable a.bufs.data f ks) (hf : Freed ip S a a')
    (hS : ∀ k ∈ ks, f k ≠ 0 → f k ∉ S) : Releasable a'.bufs.data f ks :=
  { h with used := fun k hk hne => hf.mem_used (h.used k hk hne) (hS k hk hne) }

/-- The first block is freed. -/
theorem Releasable.freed_head (h : Releasable a.bufs.data f (k :: ks)) (hf : Freed ip {f k} a a') :
    Releasable a'.bufs.data f ks := by
  refine h.tail.freed hf fun l hl hne heq => (List.nodup_cons.1 h.nodup).1 ?_
  exact h.once l (List.mem_cons_of_mem k hl) k List.mem_cons_self hne heq ▸ hl

end

/-- The entries of an indirect block. -/
def entryOf (v : Block) (j : Nat) : Nat := (get v (32 * j) 32).toNat

theorem entryOf_eq_zero {v : Block} {j : Nat} : entryOf v j = 0 ↔ get v (32 * j) 32 = 0 :=
  ⟨fun h => BitVec.eq_of_toNat_eq h, fun h => by rw [entryOf, h]; rfl⟩

/-- The second loop frees the blocks in an indirect block. -/
theorem vwp_truncIndirect (ip : Nat) {v : Block} {js : List Nat} (h : Trims A g a)
    (hr : Releasable a.bufs.data (entryOf v) js)
    (hQ : ∀ a', Freed ip (listed (entryOf v) js) a a' → Q () a') :
    vwp A pid (truncIndirect v js) Q a := by
  induction js generalizing a with
  | nil => exact vwp_pure (hQ a (listed_nil ▸ .refl))
  | cons j js ih =>
    rw [truncIndirect]
    by_cases h0 : get v (32 * j) 32 = 0
    · rw [if_neg (not_not.2 h0)]
      rw [listed_cons_of_eq (entryOf_eq_zero.2 h0)] at hQ
      exact ih h hr.tail hQ
    · have hne : entryOf v j ≠ 0 := fun he => h0 (entryOf_eq_zero.1 he)
      rw [if_pos h0]
      rw [listed_cons_of_ne hne] at hQ
      refine vwp_bind (vwp_blockFree ip h (hr.used j List.mem_cons_self hne) fun hf => ?_)
      exact ih (h.freed hf) (hr.freed_head hf) fun a' hf' => hQ a' (hf.trans hf')

/-- The pointers in the list are cleared. -/
structure Cleared (ks : List Nat) (din din' : Dinode) : Prop where
  fields : ∃ addrs, din' = { din with addrs }
  clear : ∀ k ∈ ks, din'.addr k = 0
  other : ∀ k, k ∉ ks → din'.addr k = din.addr k

/-- The first loop frees the direct blocks and clears their pointers. -/
theorem vwp_truncDirect {ks : List Nat} (h : Trims A g a) (hks : ∀ k ∈ ks, k ≤ nDirect)
    (hdin : ∀ k ∈ ks, (a.inode ip).din.addr k = din.addr k)
    (hr : Releasable a.bufs.data (fun k => (din.addr k).toNat) ks)
    (hQ : ∀ a', Freed ip (listed (fun k => (din.addr k).toNat) ks) a a' →
      Cleared ks (a.inode ip).din (a'.inode ip).din → Q () a') :
    vwp A pid (truncDirect ip ks) Q a := by
  induction ks generalizing a with
  | nil =>
    exact vwp_pure (hQ a (listed_nil ▸ .refl)
      ⟨⟨_, rfl⟩, fun k hk => absurd hk List.not_mem_nil, fun _ _ => rfl⟩)
  | cons k ks ih =>
    have hk := hks k List.mem_cons_self
    have hnot := (List.nodup_cons.1 hr.nodup).1
    have haddr := hdin k List.mem_cons_self
    rw [truncDirect]
    refine vwp_bind (vwp_readInode ?_)
    by_cases h0 : din.addr k = 0
    · rw [if_neg (not_not.2 (haddr.trans h0))]
      rw [listed_cons_of_eq (by rw [h0]; rfl)] at hQ
      refine ih h (fun l hl => hks l (List.mem_cons_of_mem k hl))
        (fun l hl => hdin l (List.mem_cons_of_mem k hl)) hr.tail fun a' hf hc =>
        hQ a' hf ⟨hc.fields, fun l hl => ?_, fun l hl => hc.other l fun hm =>
          hl (List.mem_cons_of_mem k hm)⟩
      rcases List.mem_cons.1 hl with rfl | hl
      · rw [hc.other l hnot, haddr, h0]
      · exact hc.clear l hl
    · have hne : (din.addr k).toNat ≠ 0 := fun he => h0 (BitVec.eq_of_toNat_eq he)
      rw [if_pos (fun he => h0 (haddr.symm.trans he)), haddr]
      rw [listed_cons_of_ne hne] at hQ
      refine vwp_bind (vwp_blockFree ip h (hr.used k List.mem_cons_self hne) fun hf =>
        vwp_bind (vwp_setDinode ?_))
      have hf₁ := hf.trans (.setDin ((a.inode ip).din.setAddr k 0))
      rw [Set.union_empty] at hf₁
      have hdin₁ : ((a.freeBlock (din.addr k).toNat).inode.setDin
        ip ((a.inode ip).din.setAddr k 0) ip).din =
          (a.inode ip).din.setAddr k 0 := by simp [InodeCache.setDin]
      refine ih (h.freed hf₁) (fun l hl => hks l (List.mem_cons_of_mem k hl)) (fun l hl => ?_)
        (hr.freed_head hf₁) fun a' hf' hc =>
        hQ a' (hf₁.trans hf') ⟨?_, fun l hl => ?_, fun l hl => ?_⟩
      · rw [hdin₁, Dinode.addr_setAddr_of_ne (ne_of_mem_of_not_mem hl hnot),
          hdin l (List.mem_cons_of_mem k hl)]
      · obtain ⟨addrs, ha⟩ := hc.fields
        exact ⟨addrs, by rw [ha, hdin₁]; rfl⟩
      · rcases List.mem_cons.1 hl with rfl | hl
        · rw [hc.other l hnot, hdin₁, Dinode.addr_setAddr_self hk]
        · exact hc.clear l hl
      · rw [hc.other l fun hm => hl (List.mem_cons_of_mem k hm), hdin₁, Dinode.addr_setAddr_of_ne]
        rintro rfl
        exact hl List.mem_cons_self

/-! ## The blocks of an inode -/

/-- The blocks of an inode. -/
def blocksOf (d : Disk) (D : Nat → Dinode) (i : Nat) : Set Nat :=
  {b | ∃ k, owner d D (i, k) = some b}

section
variable {d : Disk} {D : Nat → Dinode} {k j : Nat}

theorem blocksOf_eq : blocksOf d D i =
    {b | ∃ s ∈ {s : Nat × Nat | s.1 = i}, owner d D s = some b} := by
  ext b
  constructor
  · rintro ⟨k, hk⟩
    exact ⟨(i, k), rfl, hk⟩
  · rintro ⟨⟨j, k⟩, rfl, hk⟩
    exact ⟨k, hk⟩

theorem owner_direct (hi : Allocated (superOf d) D i) (hk : k < nDirect)
    (hne : ((D i).addr k).toNat ≠ 0) :
    owner d D (i, k) = some ((D i).addr k).toNat :=
  owner_eq_some.2 ⟨hi, hk.trans nDirect_lt_nSlots, ptr_of_le hk.le, hne⟩

theorem owner_entry (hi : Allocated (superOf d) D i) (hind : (D i).addr nDirect ≠ 0)
    (hj : j < nIndirect) (hne : entryOf (d ((D i).addr nDirect).toNat) j ≠ 0) :
    owner d D (i, nDirect + 1 + j) = some (entryOf (d ((D i).addr nDirect).toNat) j) := by
  refine owner_eq_some.2 ⟨hi, ?_, ?_, hne⟩
  · rw [nSlots]
    omega
  · rw [ptr_of_gt (by omega) hind, entryOf, show nDirect + 1 + j - nDirect - 1 = j by omega]

/-- The direct blocks can be freed. -/
theorem Owned.releasable_direct (h : Owned d D) (hi : Allocated (superOf d) D i) :
    Releasable d (fun k => ((D i).addr k).toNat) (List.range nDirect) where
  nodup := List.nodup_range
  used k hk hne := h.inData (owner_direct hi (List.mem_range.1 hk) hne)
  once k hk l hl hne he := by
    have hl' := owner_direct hi (List.mem_range.1 hl) (he ▸ hne)
    exact congrArg Prod.snd (h.eq (owner_direct hi (List.mem_range.1 hk) hne) (he ▸ hl'))

/-- So can the blocks in the indirect block. -/
theorem Owned.releasable_entries (h : Owned d D) (hi : Allocated (superOf d) D i)
    (hind : (D i).addr nDirect ≠ 0) :
    Releasable d (entryOf (d ((D i).addr nDirect).toNat)) (List.range nIndirect) where
  nodup := List.nodup_range
  used j hj hne := h.inData (owner_entry hi hind (List.mem_range.1 hj) hne)
  once j hj l hl hne he := by
    have hl' := owner_entry hi hind (List.mem_range.1 hl) (he ▸ hne)
    have := congrArg Prod.snd (h.eq (owner_entry hi hind (List.mem_range.1 hj) hne) (he ▸ hl'))
    dsimp only at this
    omega

section
variable (hi : Allocated (superOf d) D i)
include hi

theorem owner_of_listed (hb : b ∈ listed (fun k => ((D i).addr k).toNat) (List.range nDirect)) :
    ∃ k < nDirect, owner d D (i, k) = some b := by
  obtain ⟨hne, k, hk, rfl⟩ := hb
  exact ⟨k, List.mem_range.1 hk, owner_direct hi (List.mem_range.1 hk) hne⟩

theorem owner_of_listed_entries (hind : (D i).addr nDirect ≠ 0)
    (hb : b ∈ listed (entryOf (d ((D i).addr nDirect).toNat)) (List.range nIndirect)) :
    ∃ k > nDirect, owner d D (i, k) = some b := by
  obtain ⟨hne, j, hj, rfl⟩ := hb
  exact ⟨nDirect + 1 + j, by omega, owner_entry hi hind (List.mem_range.1 hj) hne⟩

/-- An inode without an indirect block. -/
theorem blocksOf_direct (hind : (D i).addr nDirect = 0) :
    blocksOf d D i = listed (fun k => ((D i).addr k).toNat) (List.range nDirect) := by
  ext b
  constructor
  · rintro ⟨k, hk⟩
    obtain ⟨-, hlt, rfl, hne⟩ := owner_eq_some.1 hk
    rcases Nat.lt_or_ge k nDirect with hk | hk
    · exact ⟨hne, k, List.mem_range.2 hk, (ptr_of_le hk.le).symm⟩
    · rcases hk.eq_or_lt with rfl | hk
      · rw [ptr_of_le le_rfl, hind] at hne
        exact absurd rfl hne
      · exact absurd (ptr_of_no_indirect hk hind) hne
  · intro hb
    obtain ⟨k, -, hk⟩ := owner_of_listed hi hb
    exact ⟨k, hk⟩

/-- An inode with an indirect block. -/
theorem blocksOf_indirect (hind : (D i).addr nDirect ≠ 0) :
    blocksOf d D i = listed (fun k => ((D i).addr k).toNat) (List.range nDirect) ∪
      (listed (entryOf (d ((D i).addr nDirect).toNat)) (List.range nIndirect) ∪
        {((D i).addr nDirect).toNat}) := by
  ext b
  constructor
  · rintro ⟨k, hk⟩
    obtain ⟨-, hlt, rfl, hne⟩ := owner_eq_some.1 hk
    rcases Nat.lt_trichotomy k nDirect with hk | rfl | hk
    · exact .inl ⟨hne, k, List.mem_range.2 hk, (ptr_of_le hk.le).symm⟩
    · exact .inr (.inr (ptr_of_le le_rfl))
    · refine .inr (.inl ⟨hne, k - nDirect - 1, List.mem_range.2 ?_, (ptr_of_gt hk hind).symm⟩)
      rw [nSlots] at hlt
      omega
  · rintro (hb | hb | rfl)
    · obtain ⟨k, -, hk⟩ := owner_of_listed hi hb
      exact ⟨k, hk⟩
    · obtain ⟨k, -, hk⟩ := owner_of_listed_entries hi hind hb
      exact ⟨k, hk⟩
    · exact ⟨nDirect, owner_indirect hi hind⟩

end

end

/-! ## Inodes without blocks -/

/-- The pointers of the inode are all zero. -/
def Dinode.Empty (din : Dinode) : Prop := ∀ k ≤ nDirect, din.addr k = 0

theorem Dinode.Empty.ptr (h : din.Empty) {d : Disk} {k : Nat} : ptr d din k = 0 := by
  rcases Nat.lt_or_ge nDirect k with hk | hk
  · exact ptr_of_no_indirect hk (h nDirect le_rfl)
  · rw [ptr_of_le hk, h k hk]
    rfl

/-- The blocks of the inode `i` are freed, and its pointers are cleared. -/
theorem Freed.owner (h : Freed ip S a a') (ho : Owned a.bufs.data g.D) (hempty : din.Empty)
    (s : Nat × Nat) :
    owner a'.bufs.data (update g.D i din) s =
      if s ∈ {s : Nat × Nat | s.1 = i} then none else MCertikos.owner a.bufs.data g.D s := by
  obtain ⟨j, k⟩ := s
  rcases eq_or_ne j i with rfl | hne
  · rw [if_pos (show (j, k) ∈ {s : Nat × Nat | s.1 = j} from rfl), MCertikos.owner, if_neg]
    rintro ⟨-, -, hptr⟩
    refine hptr ?_
    rw [update_self]
    exact hempty.ptr
  · have hD : update g.D i din j = g.D j := update_of_ne hne _ _
    have hiff : Allocated (superOf a.bufs.data) (update g.D i din) j ↔
        Allocated (superOf a.bufs.data) g.D j := by rw [Allocated, Allocated, hD]
    rw [if_neg (show (j, k) ∉ {s : Nat × Nat | s.1 = i} from hne)]
    simp only [MCertikos.owner, h.super, hiff, hD]
    by_cases hA : Allocated (superOf a.bufs.data) g.D j
    · rw [ptr_congr fun hind => h.kept _ (.inr (ho.inData (owner_indirect hA hind)).1.1)]
    · rw [if_neg fun hc => hA hc.1, if_neg fun hc => hA hc.1]

theorem Freed.used (h : Freed ip S a a') : used a'.bufs.data = MCertikos.used a.bufs.data \ S := by
  ext c
  rw [MCertikos.used, MCertikos.used, Set.mem_ofPred_eq, Set.mem_sdiff, Set.mem_ofPred_eq,
    h.super, h.free, not_or]
  tauto

theorem Freed.spare_le (h : Freed ip S a a') : spare a.bufs.data ≤ spare a'.bufs.data := by
  rw [spare, spare, h.super, frees, frees, h.super, List.countP_filter, List.countP_filter]
  refine List.countP_mono_left fun c _ hc => ?_
  rw [Bool.and_eq_true, decide_eq_true_eq, decide_eq_true_eq] at hc ⊢
  exact ⟨hc.1, (h.free c).2 (.inr hc.2)⟩

/-- After all blocks of an inode are freed, the volume is again as the thread knows it. -/
theorem Freed.fit (h : Freed ip (blocksOf a.bufs.data g.D i) a a') (hfit : Fit A a g)
    (hip : a.Opens ip i) (hdin : (a'.inode ip).din = din) (hempty : din.Empty) :
    Fit A a' { g with D := update g.D i din } := by
  refine hfit.of_frame hip h.frame h.super (fun j hj => update_of_ne hj _ _) ?_
    ⟨?_, fun b hb hfree => ?_⟩ (hfit.spare.trans h.spare_le) (hfit.budget.imp id fun hf => ?_)
  · rw [hdin]
    exact (update_self i din g.D).symm
  · dsimp only
    rw [funext (h.owner hfit.owned hempty), h.used, blocksOf_eq]
    exact hfit.owned.once.dropAll
  · rw [h.super] at hb
    rcases (h.free b).1 hfree with ⟨k, hk⟩ | hold
    · have := (hfit.owned.inData hk).1.1
      omega
    · exact hfit.owned.reserved b hb hold
  · obtain ⟨h1, h2, h3, h4, h5, h6⟩ := h.fits g hf
    exact ⟨h1, h2, h3, h4, h5, h6⟩

/-! ## `inode_trunc` -/

/-- The end of `inode_trunc`, after all blocks are freed. -/
theorem vwp_truncEnd (h : Fit A a g) (hip : a.Opens ip i)
    (hi : i < (superOf a.bufs.data).ninodes.toNat) (hbusy : a.log.busy = true)
    (hheld : a.bufs.held = ∅) (hf : Freed ip (blocksOf a.bufs.data g.D i) a a')
    (hempty : (a'.inode ip).din.Empty)
    (hQ : ∀ b din, Freed ip (blocksOf a.bufs.data g.D i) a b → (b.inode ip).din = din → din.Empty →
      Q () (b.putInode i din)) :
    vwp A pid (do
      let inode ← readInode ip
      setDinode ip { inode.din with size := 0 }
      inodeUpdate ip) Q a' := by
  refine vwp_bind (vwp_readInode (vwp_bind (vwp_setDinode ?_)))
  have hf' := hf.trans (.setDin { (a'.inode ip).din with size := 0 })
  rw [Set.union_empty] at hf'
  have hdin : (a'.inode.setDin ip { (a'.inode ip).din with size := 0 } ip).din =
      { (a'.inode ip).din with size := 0 } := by simp [InodeCache.setDin]
  refine vwp_inodeUpdate (hf'.fit h hip hdin hempty) (hf'.frame.opens_iff.2 hip) ?_
    (hf'.frame.busy.trans hbusy) (hf'.frame.held.trans hheld) ?_
  · rw [hf'.super]
    exact hi
  · dsimp only
    rw [update_self]
    exact hQ _ _ hf' hdin hempty

/-- `inode_trunc` frees all blocks of an inode. -/
theorem vwp_inodeTrunc (h : Fit A a g) (hip : a.Opens ip i)
    (hi : Allocated (superOf a.bufs.data) g.D i) (hbusy : a.log.busy = true)
    (hheld : a.bufs.held = ∅) (hQ : ∀ b din, Freed ip (blocksOf a.bufs.data g.D i) a b →
      (b.inode ip).din = din → din.Empty →
      Q () (b.putInode i din)) :
    vwp A pid (inodeTrunc ip) Q a := by
  have ht : Trims A g a := ⟨h.geo, hbusy, by simp [hheld], by simp [hheld], h.budget⟩
  have hdin := h.cached ip i hip
  rw [inodeTrunc]
  refine vwp_bind (vwp_truncDirect ht (fun k hk => (List.mem_range.1 hk).le)
    (fun k _ => by rw [hdin]) (h.owned.releasable_direct hi) fun a₁ hf₁ hc₁ =>
    vwp_bind (vwp_readInode ?_))
  have haddr : (a₁.inode ip).din.addr nDirect = (g.D i).addr nDirect := by
    rw [hc₁.other _ (by simp), hdin]
  by_cases hind : (g.D i).addr nDirect = 0
  · rw [if_neg (not_not.2 (haddr.trans hind))]
    rw [← blocksOf_direct hi hind] at hf₁
    refine vwp_truncEnd h hip hi.2.1 hbusy hheld hf₁ (fun k hk => ?_) hQ
    rcases hk.eq_or_lt with rfl | hk
    · exact haddr.trans hind
    · exact hc₁.clear k (List.mem_range.2 hk)
  · have hx := owner_indirect hi hind
    have hnot : ((g.D i).addr nDirect).toNat ∉ a₁.bufs.held := by
      rw [hf₁.frame.held, hheld]
      exact Finset.notMem_empty _
    obtain ⟨hhome, hge, -⟩ := h.owned_block hx
    have hblock : a₁.bufs.data ((g.D i).addr nDirect).toNat =
        a.bufs.data ((g.D i).addr nDirect).toNat :=
      hf₁.kept _ (.inr hge)
    have ht₁ := ht.freed hf₁
    rw [if_pos (fun he => hind (haddr.symm.trans he)), haddr]
    refine vwp_bind (vwp_bufcacheRead ht₁.room.reads
      hnot (by rwa [hf₁.frame.start, hf₁.frame.size]) ?_)
    have ht₂ : Trims A g (a₁.hold ((g.D i).addr nDirect).toNat) := by
      refine ⟨ht₁.geo, ht₁.busy, fun y hy => ?_, ?_, ht₁.budget.imp id fun hf =>
        ⟨hf.distinct, hf.sectors, hf.card, hf.size, hf.single, hf.bitmap⟩⟩
      · obtain rfl : y = _ := by simpa [FsState.hold, hf₁.frame.held, hheld] using hy
        exact hf₁.super ▸ hge
      · simp [FsState.hold, hf₁.frame.held, hheld]
    rw [hblock]
    -- No entry is a direct block.
    have hr : Releasable a₁.bufs.data (entryOf (a.bufs.data ((g.D i).addr nDirect).toNat))
        (List.range nIndirect) := by
      refine (h.owned.releasable_entries hi hind).freed hf₁ fun j hj hne hb => ?_
      obtain ⟨k, hlt, hk⟩ := owner_of_listed hi hb
      have := congrArg Prod.snd (h.owned.eq (owner_entry hi hind (List.mem_range.1 hj) hne) hk)
      dsimp only at this
      omega
    refine vwp_bind (vwp_truncIndirect ip ht₂ hr fun a₂ hf₂ =>
      vwp_bind (vwp_bufcacheRelease ?_ ?_))
    · rw [hf₂.frame.held]
      exact Finset.mem_insert_self _ _
    have hf₂' := hf₁.trans (hf₂.release hnot)
    -- Nor is the indirect block itself one of those.
    refine vwp_bind (vwp_blockFree ip (ht.freed hf₂')
      (hf₂'.mem_used (h.owned.inData hx) ?_) fun hf₃ =>
      vwp_bind (vwp_setDinode ?_))
    · rintro (hb | hb)
      · obtain ⟨k, hlt, hk⟩ := owner_of_listed hi hb
        exact hlt.ne (congrArg Prod.snd (h.owned.eq hk hx))
      · obtain ⟨k, hgt, hk⟩ := owner_of_listed_entries hi hind hb
        exact hgt.ne' (congrArg Prod.snd (h.owned.eq hk hx))
    · have hf₄ := (hf₂'.trans hf₃).trans (.setDin ((a₁.inode ip).din.setAddr nDirect 0))
      rw [Set.union_empty, Set.union_assoc, ← blocksOf_indirect hi hind] at hf₄
      refine vwp_truncEnd h hip hi.2.1 hbusy hheld hf₄ (fun k hk => ?_) hQ
      simp only [InodeCache.setDin, update_self]
      rcases hk.eq_or_lt with rfl | hk
      · exact Dinode.addr_setAddr_self le_rfl
      · rw [Dinode.addr_setAddr_of_ne hk.ne]
        exact hc₁.clear k (List.mem_range.2 hk)

/-! ## `inode_put` of the last reference -/

/-- The inode `i` is free, and so are its blocks; the entry `ip` of the inode cache is not in use
any more. The rest of the file system is as before. -/
structure Reclaimed (A : Allow) (ip i : Nat) (a : FsState Vol) (g : Ghost) (a' : FsState Vol)
    (D' : Nat → Dinode) : Prop where
  fit : Fit A a' { g with D := D' }
  entry : (a'.inode ip).ref = 0
  inode : ∀ e ≠ ip, a'.inode e = a.inode e
  file : a'.file = a.file
  openfiles : a'.openfiles = a.openfiles
  cwd : a'.cwd = a.cwd
  start : a'.log.start = a.log.start
  size : a'.log.size = a.log.size
  busy : a'.log.busy = a.log.busy
  held : a'.bufs.held = a.bufs.held
  super : superOf a'.bufs.data = superOf a.bufs.data
  other : ∀ j ≠ i, D' j = g.D j
  type : (D' i).type = 0
  disk : ∀ j ≠ i, j < (superOf a.bufs.data).ninodes.toNat → dinodeAt a'.bufs.data j =
    dinodeAt a.bufs.data j
  saved : dinodeAt a'.bufs.data i = D' i
  owner : ∀ s, owner a'.bufs.data D' s =
    if s ∈ {s : Nat × Nat | s.1 = i} then none else MCertikos.owner a.bufs.data g.D s
  used : used a'.bufs.data = MCertikos.used a.bufs.data \ blocksOf a.bufs.data g.D i
  spare : spare a.bufs.data ≤ MCertikos.spare a'.bufs.data
  data : ∀ s b, MCertikos.owner a.bufs.data g.D s = some b → a'.bufs.data b = a.bufs.data b

/-- An entry that is not in use can have any contents. -/
theorem Fit.setEntry {y : Inode} (h : Fit A a g) (hy : y.ref = 0) : Fit A (a.setEntry ip y) g where
  geo := h.geo
  owned := h.owned
  cached e j he := by
    obtain ⟨href, hvalid, hj⟩ := he
    rcases eq_or_ne e ip with rfl | hne
    · rw [FsState.setEntry_self] at href
      omega
    · rw [FsState.setEntry_of_ne hne] at href hvalid hj ⊢
      exact h.cached e j ⟨href, hvalid, hj⟩
  unique e e' hr hr' hi := by
    have hne : ∀ f, 0 < ((a.setEntry ip y).inode f).ref → f ≠ ip := by
      rintro f hf rfl
      rw [FsState.setEntry_self] at hf
      omega
    have he := hne e hr
    have he' := hne e' hr'
    rw [FsState.setEntry_of_ne he] at hr hi
    rw [FsState.setEntry_of_ne he'] at hr' hi
    exact h.unique e e' hr hr' hi
  spare := h.spare
  budget := h.budget.imp id fun hf =>
    ⟨hf.distinct, hf.sectors, hf.card, hf.size, hf.single, hf.bitmap⟩

/-- An entry is locked or unlocked. -/
theorem Fit.setBusy {v : Bool} (h : Fit A a g) :
    Fit A { a with inode := a.inode.setBusy ip v } g := by
  have hsame : ∀ e, ((a.inode.setBusy ip v) e).ref = (a.inode e).ref ∧
    ((a.inode.setBusy ip v) e).valid =
      (a.inode e).valid ∧ ((a.inode.setBusy ip v) e).inum = (a.inode e).inum ∧
      ((a.inode.setBusy ip v) e).din = (a.inode e).din := by
    intro e
    rcases eq_or_ne e ip with rfl | hne
    · simp [InodeCache.setBusy]
    · simp [InodeCache.setBusy, hne]
  refine ⟨h.geo, h.owned, fun e j he => ?_, fun e e' hr hr' hi => ?_, h.spare,
    h.budget.imp id fun hf => ⟨hf.distinct, hf.sectors, hf.card, hf.size, hf.single, hf.bitmap⟩⟩
  · obtain ⟨href, hvalid, hinum, hdin⟩ := hsame e
    exact hdin.trans (h.cached e j ⟨href ▸ he.ref, hvalid ▸ he.valid, hinum ▸ he.inum⟩)
  · dsimp only at hr hr' hi
    rw [(hsame e).1] at hr
    rw [(hsame e').1] at hr'
    rw [(hsame e).2.2.1, (hsame e').2.2.1] at hi
    exact h.unique e e' hr hr' hi

/-- The inode is marked as free, in memory and on disk, and its entry is given back. -/
def FsState.dropInode (a : FsState Vol) (ip i : Nat) (din : Dinode) : FsState Vol :=
  let b : FsState Vol := FsState.putInode { a with inode := a.inode.setDin ip din } i din
  { b with inode := b.inode.dropFreed ip }

/-- The end of `inode_put`, when the inode has no blocks any more. -/
theorem vwp_inodeDrop (h : Fit A a { g with D := update g.D i din }) (hip : a.Opens ip i)
    (href : (a.inode ip).ref = 1) (hi : i < (superOf a.bufs.data).ninodes.toNat)
    (hbusy : a.log.busy = true) (hheld : a.bufs.held = ∅) (hU : iblock i ∈ g.U)
    (hempty : din.Empty) (hQ : ∀ din₀, din₀.Empty → din₀.type = 0 →
      Fit A (a.dropInode ip i din₀) { g with D := update g.D i din₀ } →
      Q () (a.dropInode ip i din₀)) :
    vwp A pid (do
      let inode ← readInode ip
      setDinode ip { inode.din with type := 0 }
      inodeUpdate ip
      inodePutDrop ip) Q a := by
  have hdin : (a.inode ip).din = din := (h.cached ip i hip).trans (update_self i din g.D)
  refine vwp_bind (vwp_readInode (vwp_bind (vwp_setDinode ?_)))
  rw [hdin]
  obtain ⟨din₀, hdin₀⟩ : ∃ din₀ : Dinode, din₀ = { din with type := 0 } := ⟨_, rfl⟩
  have hempty₀ : din₀.Empty := hdin₀ ▸ hempty
  rw [← hdin₀]
  have hnone : blocksOf a.bufs.data (update g.D i din) i = ∅ := by
    refine Set.eq_empty_of_forall_notMem ?_
    rintro c ⟨k, hk⟩
    refine (owner_eq_some.1 hk).2.2.2 ?_
    rw [← (owner_eq_some.1 hk).2.2.1, update_self]
    exact hempty.ptr
  have hf : Freed ip (blocksOf a.bufs.data (update g.D i din) i) a
      { a with inode := a.inode.setDin ip din₀ } := by
    rw [hnone]
    exact .setDin din₀
  have hself : (a.inode.setDin ip din₀ ip).din = din₀ := by simp [InodeCache.setDin]
  have hfit := hf.fit h hip hself hempty₀
  dsimp only at hfit
  rw [update_idem] at hfit
  refine vwp_bind (vwp_inodeUpdate hfit (hf.frame.opens_iff.2 hip) hi hbusy hheld ?_)
  dsimp only
  rw [update_self]
  refine vwp_mem (o := .inodePutDrop ip) trivial (hQ din₀ hempty₀ (by rw [hdin₀]) ?_)
  refine (hfit.putInode hi hU).setEntry ?_
  simp [FsState.putInode, FsState.store, InodeCache.setDin, href]

/-- The blocks are freed, and then the inode. -/
theorem Freed.reclaimed {b : FsState Vol} {din₀ : Dinode}
    (hf : Freed ip (blocksOf a.bufs.data g.D i) { a with inode := a.inode.setBusy ip true } b)
    (h : Fit A a g) (hi : i < (superOf a.bufs.data).ninodes.toNat) (href : (a.inode ip).ref = 1)
    (hempty : din₀.Empty) (htype : din₀.type = 0)
    (hfit : Fit A ((b.putInode i din).dropInode ip i din₀) { g with D := update g.D i din₀ }) :
    Reclaimed A ip i a g ((b.putInode i din).dropInode ip i din₀) (update g.D i din₀) := by
  have hs : superOf b.bufs.data = superOf a.bufs.data := hf.super
  have hi' : i < (superOf b.bufs.data).ninodes.toNat := by rwa [hs]
  -- But for the sector of the inode, the disk is as after the blocks were freed.
  have hge : ∀ y, (superOf b.bufs.data).bitmapStart ≤ y →
      ((b.putInode i din).dropInode ip i din₀).bufs.data y = b.bufs.data y := fun y hy => by
    have hne : y ≠ iblock i := ((iblock_lt hi').trans_le hy).ne'
    exact (Disk.putInode_of_ne hne).trans (Disk.putInode_of_ne hne)
  have hs' : superOf ((b.putInode i din).dropInode ip i din₀).bufs.data = superOf b.bufs.data :=
    superOf_putInode.trans superOf_putInode
  have hlog : (superOf b.bufs.data).logStart ≤ (superOf b.bufs.data).size.toNat := by
    rw [hs]
    exact h.logStart_le
  have hdata : ∀ s c, MCertikos.owner a.bufs.data g.D s = some c →
      ((b.putInode i din).dropInode ip i din₀).bufs.data c = b.bufs.data c ∧
      b.bufs.data c = a.bufs.data c := fun s c hc => by
    have hin := (h.owned.inData hc).1.1
    refine ⟨hge c ?_, hf.kept c (.inr hin)⟩
    rw [hs]
    exact bitmapStart_lt_dataStart.le.trans hin
  have hown := hf.owner (i := i) h.owned hempty
  refine ⟨hfit, ?_, fun e he => ?_, hf.frame.file, hf.frame.openfiles, hf.frame.cwd,
    hf.frame.start, hf.frame.size, hf.frame.busy, hf.frame.held, hs'.trans hs, fun j hj =>
    update_of_ne hj _ _, ?_, fun j hj hlt => ?_, ?_, fun s => ?_, ?_, ?_, fun s c hc =>
    (hdata s c hc).1.trans (hdata s c hc).2⟩
  · simp [FsState.dropInode, FsState.putInode, FsState.store, InodeCache.dropFreed,
      InodeCache.setDin, (hf.frame.same ip).1, InodeCache.setBusy, href]
  · simp only [FsState.dropInode, FsState.putInode, FsState.store, InodeCache.dropFreed,
      InodeCache.setDin, update_of_ne he]
    exact (hf.frame.inode e he).trans (update_of_ne he _ _)
  · rw [update_self, htype]
  · refine (dinodeAt_putInode.trans (if_neg hj)).trans
      ((dinodeAt_putInode.trans (if_neg hj)).trans ?_)
    exact dinodeAt_congr (fun x hx => hf.kept x (.inl hx)) hlt
  · exact (dinodeAt_putInode.trans (if_pos rfl)).trans (update_self i din₀ g.D).symm
  · refine (congrFun (owner_congr hs' fun j x hx => ?_) s).trans (hown s)
    rw [hown] at hx
    split at hx
    · cases hx
    · exact (hdata _ x hx).1
  · rw [used_congr hlog hs' fun x hx _ => hge x hx]
    exact hf.used
  · exact hf.spare_le.trans_eq (spare_congr hs' fun x hx _ => hge x hx).symm

/-- `inode_put` of the last reference to an inode without links frees the inode and its blocks. -/
theorem vwp_inodePut_last (h : Fit A a g) (hlast : a.inode.Last ip) (hinum : (a.inode ip).inum = i)
    (hi : Allocated (superOf a.bufs.data) g.D i)
    (hfree : (a.inode ip).busy = true → A.panic .putBusy) (hbusy : a.log.busy = true)
    (hheld : a.bufs.held = ∅) (hU : iblock i ∈ g.U)
    (hQ : ∀ a' D', Reclaimed A ip i a g a' D' → Q () a') : vwp A pid (inodePut ip) Q a := by
  obtain ⟨href, hvalid, -⟩ := id hlast
  refine vwp_bind (vwp_mem (o := .inodePutTest ip) trivial ?_)
  simp only [fsHandler, FsState.inodePutTest]
  rw [if_pos hlast]
  split
  · next hb => exact hfree hb
  obtain ⟨a₀, ha₀⟩ : ∃ a₀ : FsState Vol, a₀ = { a with inode := a.inode.setBusy ip true } :=
    ⟨_, rfl⟩
  have hdata : a₀.bufs = a.bufs := by rw [ha₀]
  have h₀ : Fit A a₀ g := ha₀ ▸ h.setBusy
  have hentry : a₀.inode ip = { a.inode ip with busy := true } := by simp [ha₀, InodeCache.setBusy]
  have hip : a₀.Opens ip i := by
    refine ⟨?_, ?_, ?_⟩ <;> rw [hentry]
    exacts [show 0 < (a.inode ip).ref by omega, hvalid, hinum]
  rw [← ha₀]
  refine vwp_bind (vwp_inodeTrunc h₀ hip (hdata ▸ hi) (ha₀ ▸ hbusy) (hdata ▸ hheld)
    fun b din hf hdin hempty => ?_)
  have hlt : i < (superOf b.bufs.data).ninodes.toNat := by
    rw [hf.super, hdata]
    exact hi.2.1
  have hfit : Fit A (b.putInode i din) { g with D := update g.D i din } :=
    (hf.fit h₀ hip hdin hempty).putInode hlt hU
  have hframe : a₀.Frame ip (b.putInode i din) := hf.frame.trans .store
  have href' : ((b.putInode i din).inode ip).ref = 1 := by
    rw [(hframe.same ip).1, hentry]
    exact href
  refine vwp_inodeDrop hfit (hframe.opens_iff.2 hip) href' ?_ ?_ ?_ hU hempty
    fun din₀ hempty₀ htype hfit₀ => ?_
  · rw [FsState.putInode_data, superOf_putInode]
    exact hlt
  · rw [hframe.busy, ha₀]
    exact hbusy
  · rw [hframe.held, hdata]
    exact hheld
  rw [ha₀] at hf
  exact hQ _ _ (hf.reclaimed h hi.2.1 href hempty₀ htype hfit₀)

namespace Reclaimed

variable {D' : Nat → Dinode} {j : Nat}

section
variable (h : Reclaimed A ip i a g a' D')
include h

theorem allocated_iff : Allocated (superOf a'.bufs.data) D' j ↔ j ≠ i ∧
    Allocated (superOf a.bufs.data) g.D j := by
  rw [Allocated, h.super, Allocated]
  rcases eq_or_ne j i with rfl | hne
  · simp [h.type]
  · simp [h.other j hne, hne]

theorem owner_other (hne : j ≠ i) (k : Nat) :
    MCertikos.owner a'.bufs.data D' (j, k) = MCertikos.owner a.bufs.data g.D (j, k) :=
  (h.owner (j, k)).trans (if_neg hne)

theorem entries (he : Entries a) : Entries a' := by
  refine ⟨fun e => ?_, fun e hr => ?_, fun e hr => ?_⟩ <;> rcases eq_or_ne e ip with rfl | hne
  · rw [h.entry]
  · rw [h.inode e hne]
    exact he.nonneg e
  · rw [h.entry] at hr
    omega
  · rw [h.inode e hne] at hr
    exact he.range e hr
  · rw [h.entry] at hr
    omega
  · rw [h.inode e hne] at hr ⊢
    exact he.dev e hr

/-- The file system stays consistent. -/
theorem consistent (hc : Consistent a g.D) : Consistent a' D' where
  geo := h.fit.geo
  owned := h.fit.owned
  full j hj := by
    obtain ⟨hne, hj⟩ := h.allocated_iff.1 hj
    rw [Full, h.other j hne]
    refine ⟨(hc.full j hj).1, fun o ho => ?_⟩
    rw [h.owner_other hne]
    exact (hc.full j hj).2 o ho
  disk j hj := by
    rw [h.super] at hj
    rcases eq_or_ne j i with rfl | hne
    · exact h.saved
    · rw [h.disk j hne hj, h.other j hne]
      exact hc.disk j hj
  cached := h.fit.cached
  unique := h.fit.unique

/-- No block gets lost. -/
theorem tight (ht : Tight (MCertikos.owner a.bufs.data g.D) (MCertikos.used a.bufs.data)) :
    Tight (MCertikos.owner a'.bufs.data D') (MCertikos.used a'.bufs.data) := by
  rw [funext h.owner, h.used, blocksOf_eq]
  exact ht.dropAll

end

end Reclaimed

/-! ## `inode_alloc` -/

/-- The inode that `inode_alloc` writes. -/
def Dinode.fresh (type : BitVec 16) : Dinode :=
  { type, major := 0, minor := 0, nlink := 0, size := 0, addrs := 0 }

theorem Dinode.empty_fresh {type : BitVec 16} : (Dinode.fresh type).Empty := fun k _ => by
  simp [fresh, addr, BitField.get]

section
variable (hgeo : Geometry a.bufs.data a.log) (he : Entries a) (hbusy : a.log.busy = true)
  (hheld : a.bufs.held = ∅) (hroom : A.Room a) {Q : Nat → FsState Vol → Prop}
include hgeo he hbusy hheld hroom

/-- `inode_alloc` writes to an inode that is free. -/
theorem vwp_inodeAllocFrom {type : BitVec 16} {inums : List Nat}
    (hnone : A.panic .allocNoInodes ∨ ∃ i ∈ inums, (dinodeAt a.bufs.data i).type = 0)
    (hfull : A.panic .getNoInodes ∨ ∃ e < nInode, (a.inode e).ref = 0)
    (hlt : ∀ i ∈ inums, i < (superOf a.bufs.data).ninodes.toNat)
    (hQ : ∀ i ∈ inums, (dinodeAt a.bufs.data i).type = 0 → ∀ ip x,
      Gets (a.putInode i (.fresh type)) i ip x →
      Q ip ((a.putInode i (.fresh type)).setEntry ip x)) :
    vwp A pid (inodeAllocFrom rootDev type inums) Q a := by
  induction inums with
  | nil => exact vwp_kernPanic (hnone.resolve_right fun ⟨_, hmem, _⟩ =>
      absurd hmem List.not_mem_nil)
  | cons i inums ih =>
    have hi := (iblock_lt (hlt i List.mem_cons_self)).trans bitmapStart_lt_dataStart
    have hnot : iblock i ∉ a.bufs.held := hheld ▸ Finset.notMem_empty _
    have hhome : ¬ InLog a.log.start a.log.size (iblock i) := fun hin => by
      have := hin.1
      have := hgeo.fits
      omega
    rw [inodeAllocFrom]
    refine vwp_bind (vwp_bufcacheRead hroom.reads hnot hhome (vwp_ite (fun h0 => ?_) fun h0 => ?_))
    · refine vwp_store hbusy (Finset.mem_insert_self _ _) ?_ ?_
      · rwa [FsState.release_hold hnot]
      · rw [FsState.release_store_hold hnot]
        refine vwp_inodeGet (he.of_eq fun _ => ⟨rfl, rfl⟩)
          (hfull.imp id fun ⟨e, hlt, hzero⟩ => ⟨e, hlt, .inl hzero⟩) fun ip x hg =>
          hQ i List.mem_cons_self h0 ip x hg
    · refine vwp_bind (vwp_bufcacheRelease (Finset.mem_insert_self _ _) ?_)
      rw [FsState.release_hold hnot]
      refine ih (hnone.imp id fun ⟨j, hj, hzero⟩ => ⟨j, ?_, hzero⟩)
        (fun j hj => hlt j (List.mem_cons_of_mem i hj)) fun j hj =>
        hQ j (List.mem_cons_of_mem i hj)
      exact (List.mem_cons.1 hj).resolve_left fun heq => h0 (heq ▸ hzero)

/-- The inode gets a reference. -/
theorem vwp_inodeAlloc {type : BitVec 16}
    (hnone : A.panic .allocNoInodes ∨
      ∃ i, 0 < i ∧ i < (superOf a.bufs.data).ninodes.toNat ∧ (dinodeAt a.bufs.data i).type = 0)
    (hfull : A.panic .getNoInodes ∨ ∃ e < nInode, (a.inode e).ref = 0)
    (hQ : ∀ i, 0 < i → i < (superOf a.bufs.data).ninodes.toNat →
      (dinodeAt a.bufs.data i).type = 0 → ∀ ip x,
      Gets (a.putInode i (.fresh type)) i ip x →
      Q ip ((a.putInode i (.fresh type)).setEntry ip x)) :
    vwp A pid (inodeAlloc rootDev type) Q a := by
  have hmem : ∀ i, i ∈ List.range' 1 ((superOf a.bufs.data).ninodes.toNat - 1) ↔
      0 < i ∧ i < (superOf a.bufs.data).ninodes.toNat := fun i => by
    rw [List.mem_range'_1]
    omega
  exact vwp_readSuperblock hroom.reads hgeo (hheld ▸ Finset.notMem_empty _)
    (vwp_inodeAllocFrom hgeo he hbusy hheld hroom
      (hnone.imp id fun ⟨i, hpos, hi, h0⟩ => ⟨i, (hmem i).2 ⟨hpos, hi⟩, h0⟩)
      hfull (fun i hi => ((hmem i).1 hi).2) fun i hi => hQ i ((hmem i).1 hi).1 ((hmem i).1 hi).2)

end

section
variable {D : Nat → Dinode} {type : BitVec 16}

/-- It has no blocks. -/
theorem owner_fresh (h : Owned a.bufs.data D) (hi : i < (superOf a.bufs.data).ninodes.toNat)
    (h0 : (D i).type = 0) :
    owner (a.putInode i (.fresh type)).bufs.data (update D i (.fresh type)) =
    owner a.bufs.data D := by
  refine owner_putInode h hi (funext fun s => ?_)
  have hfreed : Freed 0 ∅ a a := Freed.refl
  rw [hfreed.owner (g := ⟨D, ∅, 0⟩) h Dinode.empty_fresh]
  split
  · next hs =>
    obtain ⟨j, k⟩ := s
    obtain rfl : j = i := hs
    exact (if_neg fun hc => hc.1.2.2 h0).symm
  · rfl

/-- The file system stays consistent if no entry of the inode cache has a copy of the inode. -/
theorem Consistent.allocInode (h : Consistent a D) (hi : i < (superOf a.bufs.data).ninodes.toNat)
    (h0 : (D i).type = 0) (hopen : ∀ e, ¬ a.Opens e i) :
    Consistent (a.putInode i (.fresh type)) (update D i (.fresh type)) := by
  have hs : superOf (a.putInode i (.fresh type)).bufs.data = superOf a.bufs.data :=
    superOf_putInode
  have hfit : Fit ⟨fun _ => True, True⟩ a ⟨D, ∅, 0⟩ :=
    h.fit (Nat.zero_le _) (.inl ⟨trivial, trivial⟩)
  have hown : owner (a.putInode i (.fresh type)).bufs.data (update D i (.fresh type)) =
      owner a.bufs.data D := owner_fresh h.owned hi h0
  refine ⟨⟨h.geo.congr hs rfl rfl, h.owned.congr hfit.logStart_le hfit.dataStart_le hs
    (fun x hx _ => Disk.putInode_of_ge hi hx) hown, fun j hj => ?_, fun e j he => ?_, h.unique⟩,
    fun j hj => ?_⟩
  · rw [hs] at hj
    rw [FsState.putInode_data, dinodeAt_putInode]
    split
    · next hji => rw [hji, update_self]
    · next hji => rw [update_of_ne hji, h.disk j hj]
  · have ho : a.Opens e j := ⟨he.ref, he.valid, he.inum⟩
    have hne : j ≠ i := fun hji => hopen e (hji ▸ ho)
    rw [update_of_ne hne]
    exact h.cached e j ho
  · rcases eq_or_ne j i with rfl | hne
    · rw [Full, update_self]
      exact ⟨Nat.zero_le _, fun o ho => absurd ho (Nat.not_lt_zero o)⟩
    · rw [Allocated, hs, update_of_ne hne] at hj
      rw [Full, hown, update_of_ne hne]
      exact h.full j hj

end

end

end MCertikos
