import MCertikos.Fs.Freeing

/-!
# Code outside of a transaction

Outside of a transaction `log_write` panics. So `block_alloc` and `block_free` do not return there,
and neither does `inode_put` when it frees the inode, nor `inode_read` when a block is missing that
`bmap` then allocates.
-/

namespace MCertikos

open Program BitField

/-- The thread is in no transaction, the blocks that it holds are data blocks, and any panic is
accepted but the one for a buffer that is given back with changes. -/
structure Outside (A : Allow) (a : FsState Vol) : Prop where
  geo : Geometry a.bufs.data a.log
  idle : a.log.busy = false
  held : ∀ x ∈ a.bufs.held, (superOf a.bufs.data).dataStart ≤ x
  stops : ∀ e, e ≠ .unsaved → A.panic e

namespace Outside

section
variable {α : Type} {A : Allow} {pid ip i b x : Nat} {a : FsState Vol}

section
variable (h : Outside A a)
include h

/-- There may be too few buffers. -/
theorem reads : A.Reads a := .inl (h.stops _ nofun)

/-- The blocks before the data region are not held, and are not in the log. -/
theorem free_of_lt (hx : x < (superOf a.bufs.data).dataStart) :
    x ∉ a.bufs.held ∧ ¬ InLog a.log.start a.log.size x := by
  have hfits := h.geo.fits
  refine ⟨fun hm => ?_, fun hin => ?_⟩
  · have := h.held x hm
    omega
  · have := hin.1
    omega

theorem home (hx : (superOf a.bufs.data).InData x) :
    ¬ InLog a.log.start a.log.size x := fun hin => by
  have := hin.1
  have := hx.2
  have := h.geo.start
  omega

/-- The thread may hold one more data block. -/
theorem hold (hx : (superOf a.bufs.data).dataStart ≤ x) : Outside A (a.hold x) := by
  refine ⟨h.geo, h.idle, fun y hy => ?_, h.stops⟩
  rcases Finset.mem_insert.1 hy with rfl | hy
  · exact hx
  · exact h.held y hy

/-- A sector that was read cannot be logged. -/
theorem vwp_logged {k : Fs α} {v : Block} {Q : α → FsState Vol → Prop} :
    vwp A pid (do
      bufSet x v
      logWrite x
      k) Q (a.hold x) := by
  refine vwp_of fun b hb => ?_
  have hmem : x ∈ b.busy := hb.busy ▸ Finset.mem_insert_self x _
  refine Handler.wp_bind.2 (wp_bufSet (fun hn => absurd hmem hn) fun _ => ?_)
  refine Handler.wp_bind.2 (Handler.wp_bind.2
    (wp_logCheck (fun _ => h.stops _ nofun) (fun _ => h.stops _ nofun) fun _ _ hbusy => ?_))
  exact absurd (h.idle.symm.trans hbusy) nofun

/-- No block is allocated: one that is free cannot be marked as used. -/
theorem vwp_blockAlloc {Q : Nat → FsState Vol → Prop} : vwp A pid blockAlloc Q a := by
  have hone : 1 < (superOf a.bufs.data).dataStart :=
    one_lt_bitmapStart.trans bitmapStart_lt_dataStart
  refine vwp_readSuperblock h.reads h.geo (h.free_of_lt hone).1 ?_
  have hbs : ∀ b ∈ bitmapStarts (superOf a.bufs.data).size.toNat,
      b < (superOf a.bufs.data).size.toNat := by
    intro b hb
    obtain ⟨i, hi, rfl⟩ := List.mem_map.1 hb
    rw [List.mem_range, bpb] at hi
    rw [bpb]
    omega
  generalize bitmapStarts (superOf a.bufs.data).size.toNat = bs at hbs
  induction bs with
  | nil => exact vwp_kernPanic (h.stops _ (by decide))
  | cons b bs ih =>
    obtain ⟨hnot, hhome⟩ := h.free_of_lt (bblock_lt (hbs b List.mem_cons_self))
    refine vwp_bind (vwp_bufcacheRead h.reads hnot hhome ?_)
    split
    · exact h.vwp_logged
    · refine vwp_bind (vwp_bufcacheRelease (Finset.mem_insert_self _ _) ?_)
      rw [FsState.release_hold hnot]
      exact ih fun c hc => hbs c (List.mem_cons_of_mem b hc)

/-- No block is freed. -/
theorem vwp_blockFree {Q : Unit → FsState Vol → Prop} (hb : (superOf a.bufs.data).InData b) :
    vwp A pid (blockFree b) Q a := by
  have hone : 1 < (superOf a.bufs.data).dataStart :=
    one_lt_bitmapStart.trans bitmapStart_lt_dataStart
  have hsize : b < (superOf a.bufs.data).size.toNat := by
    have := hb.2
    have := h.geo.start
    have := h.geo.size
    omega
  obtain ⟨hnot, hhome⟩ := h.free_of_lt (bblock_lt hsize)
  refine vwp_readSuperblock h.reads h.geo (h.free_of_lt hone).1
    (vwp_bind (vwp_bufcacheRead h.reads hnot
      hhome (vwp_ite (fun _ => vwp_bind (vwp_kernPanic (h.stops _ nofun))) fun _ => h.vwp_logged)))

/-- No inode is written. -/
theorem vwp_inodeUpdate {Q : Unit → FsState Vol → Prop}
    (hi : (a.inode ip).inum < (superOf a.bufs.data).ninodes.toNat) :
    vwp A pid (inodeUpdate ip) Q a := by
  obtain ⟨hnot, hhome⟩ := h.free_of_lt ((iblock_lt hi).trans bitmapStart_lt_dataStart)
  exact vwp_bind (vwp_readInode (vwp_bind (vwp_bufcacheRead h.reads hnot hhome h.vwp_logged)))

/-! ## Freeing an inode -/

/-- The first loop of `inode_trunc` gets to its end only if there are no direct blocks. -/
theorem vwp_truncDirect {Q : Unit → FsState Vol → Prop} {ks : List Nat}
    (hks : ∀ k ∈ ks, ((a.inode ip).din.addr k).toNat ≠ 0 →
      (superOf a.bufs.data).InData ((a.inode ip).din.addr k).toNat) (hQ : Q () a) :
    vwp A pid (truncDirect ip ks) Q a := by
  induction ks with
  | nil => exact vwp_pure hQ
  | cons k ks ih =>
    refine vwp_bind (vwp_readInode
      (vwp_ite (fun hne => vwp_bind (h.vwp_blockFree ?_)) fun _ => ?_))
    · exact hks k List.mem_cons_self fun h0 => hne (BitVec.eq_of_toNat_eq h0)
    · exact ih fun l hl => hks l (List.mem_cons_of_mem k hl)

/-- The second one gets to its end only if the indirect block is empty. -/
theorem vwp_truncIndirect {Q : Unit → FsState Vol → Prop} {v : Block} {js : List Nat}
    (hjs : ∀ j ∈ js, entryOf v j ≠ 0 → (superOf a.bufs.data).InData (entryOf v j)) (hQ : Q () a) :
    vwp A pid (truncIndirect v js) Q a := by
  induction js with
  | nil => exact vwp_pure hQ
  | cons j js ih =>
    refine vwp_ite (fun hne => vwp_bind (h.vwp_blockFree ?_)) fun _ => ?_
    · exact hjs j List.mem_cons_self fun h0 => hne (entryOf_eq_zero.1 h0)
    · exact ih fun l hl => hjs l (List.mem_cons_of_mem j hl)

end

/-- An inode is not freed: there is a block to free, or else the inode itself is written. -/
theorem vwp_inodePut_last {A' : Allow} {g : Ghost} {Q : Unit → FsState Vol → Prop}
    (hfit : Fit A' a g) (h : Outside A a) (hheld : a.bufs.held = ∅) (hlast : a.inode.Last ip)
    (hi : Allocated (superOf a.bufs.data) g.D (a.inode ip).inum) :
    vwp A pid (inodePut ip) Q a := by
  refine vwp_bind (vwp_mem (o := .inodePutTest ip) trivial ?_)
  simp only [fsHandler, FsState.inodePutTest]
  rw [if_pos hlast]
  split
  · exact h.stops _ (by decide)
  obtain ⟨b, hb⟩ : ∃ b : FsState Vol, b = { a with inode := a.inode.setBusy ip true } := ⟨_, rfl⟩
  have hbufs : b.bufs = a.bufs := by rw [hb]
  have hout : Outside A b := by
    subst hb
    exact ⟨h.geo, h.idle, h.held, h.stops⟩
  have hdin : (b.inode ip).din = g.D (a.inode ip).inum := by
    rw [hb, ← hfit.cached ip _ ⟨by rw [hlast.1]; decide, hlast.2.1, rfl⟩]
    simp [InodeCache.setBusy]
  have hnum : (b.inode ip).inum = (a.inode ip).inum := by simp [hb, InodeCache.setBusy]
  rw [← hb]
  rw [← hbufs] at hi hheld
  have howned : Owned b.bufs.data g.D := by
    rw [hbufs]
    exact hfit.owned
  refine vwp_bind (vwp_bind (hout.vwp_truncDirect (fun k hk hne => ?_)
    (vwp_bind (vwp_readInode ?_))))
  · rw [hdin] at hne ⊢
    exact ((howned.releasable_direct hi).used k hk hne).1
  rw [hdin]
  refine vwp_ite (fun hind => ?_) fun _ => ?_
  · have hx := howned.inData (owner_indirect hi hind)
    refine vwp_bind (vwp_bufcacheRead hout.reads (by simp [hheld]) ?_
      (vwp_bind ((hout.hold hx.1.1).vwp_truncIndirect (fun j hj hne => ?_)
        (vwp_bind (vwp_bufcacheRelease (Finset.mem_insert_self _ _) (vwp_bind ?_))))))
    · exact hout.home hx.1
    · exact ((howned.releasable_entries hi hind).used j hj hne).1
    · rw [FsState.release_hold (by simp [hheld])]
      exact hout.vwp_blockFree hx.1
  · refine vwp_bind (vwp_readInode (vwp_bind (vwp_setDinode ?_)))
    have hset : ∀ c : InodeCache, Outside A { b with inode := c } := fun _ =>
      ⟨hout.geo, hout.idle, hout.held, hout.stops⟩
    refine (hset _).vwp_inodeUpdate ?_
    simp only [InodeCache.setDin, Function.update_self, hnum]
    exact hi.2.1

/-! ## Reading where a block is missing -/

section
variable {A' : Allow} {g : Ghost} (hfit : Fit A' a g) (h : Outside A a) (hheld : a.bufs.held = ∅)
  (hip : a.Opens ip i) (hi : Allocated (superOf a.bufs.data) g.D i)
include hfit h hheld hip hi

/-- `bmap` does not find a block that is missing. -/
theorem vwp_bmap {bn : Nat} {Q : Nat → FsState Vol → Prop} (hbn : bn < maxFile)
    (hnone : owner a.bufs.data g.D (i, slotOf bn) = none) : vwp A pid (bmap ip bn) Q a := by
  rw [owner_eq_none hi (slotOf_lt hbn)] at hnone
  refine vwp_ite (fun hlt => ?_) fun hge => vwp_ite (fun hlt => ?_) fun _ =>
    vwp_kernPanic (h.stops _ nofun)
  · rw [slotOf, if_pos hlt, ptr_of_le hlt.le] at hnone
    refine vwp_bind (vwp_readInode ?_)
    rw [hfit.cached ip i hip, if_pos (BitVec.eq_of_toNat_eq hnone)]
    exact vwp_bind h.vwp_blockAlloc
  · rw [slotOf, if_neg hge] at hnone
    refine vwp_bind (vwp_bind (vwp_readInode ?_))
    rw [hfit.cached ip i hip]
    refine vwp_ite (fun _ => vwp_bind h.vwp_blockAlloc) fun hind => vwp_pure ?_
    have hx := hfit.owned.inData (owner_indirect hi hind)
    rw [ptr_of_gt (by omega) hind, show bn + 1 - nDirect - 1 = bn - nDirect by omega] at hnone
    refine vwp_bind (vwp_bufcacheRead h.reads (by simp [hheld]) (h.home hx.1) ?_)
    rw [if_pos (BitVec.eq_of_toNat_eq hnone)]
    exact vwp_bind (h.hold hx.1.1).vwp_blockAlloc

/-- So `inode_read` does not return when the first block is missing. -/
theorem vwp_inodeRead {off n : BitVec 32} {Q : Option (List Byte) → FsState Vol → Prop}
    (htype : (g.D i).type ≠ tDev) (hmax : (g.D i).size.toNat ≤ maxFile * bSize) (hn : 0 < n.toNat)
    (hoff : off.toNat < (g.D i).size.toNat) (hsum : off.toNat + n.toNat < 2 ^ 32)
    (hnone : owner a.bufs.data g.D (i, slotOf (off.toNat / bSize)) = none) :
    vwp A pid (inodeRead ip off n) Q a := by
  refine vwp_bind (vwp_readInode ?_)
  rw [hfit.cached ip i hip, if_neg htype]
  have hgood : ¬ ((g.D i).size < off ∨ off + n < off) := by
    rw [BitVec.lt_def, BitVec.lt_def, BitVec.toNat_add]
    omega
  rw [if_neg hgood]
  obtain ⟨m, hm⟩ :
      ∃ m, (if (g.D i).size < off + n then (g.D i).size - off else n).toNat = m + 1 := by
    refine Nat.exists_eq_add_one.2 ?_
    split
    · rw [BitVec.toNat_sub_of_le (BitVec.le_def.2 hoff.le)]
      omega
    · exact hn
  dsimp only
  rw [hm, inodeReadFrom, if_neg (Nat.succ_ne_zero m)]
  exact vwp_bind (vwp_bind (vwp_bmap hfit h hheld hip
    hi (div_bSize_lt (hoff.trans_le hmax)) hnone))

end

end
end Outside
end MCertikos
