import MCertikos.Fs.Mount

/-!
# Files as byte arrays

The contents of an inode are a list of bytes, as many as its size says. `inode_read` returns a part
of the list, and `inode_write` replaces a part of it, or extends it, and leaves the contents of
every other inode alone. What limits a write, apart from the maximal size and the free blocks, is
the log: a transaction has room for the sectors that it logs, or `log_write` stops it.
-/

namespace MCertikos

open Program BitField

/-- The contents of an inode. -/
def contents (d : Disk) (din : Dinode) : List Byte :=
  (List.range din.size.toNat).map (byteAt d din)

theorem length_contents {d : Disk} {din : Dinode} : (contents d din).length = din.size.toNat := by
  rw [contents, List.length_map, List.length_range]

/-- They depend on the blocks that the inode owns and on their contents. -/
theorem contents_congr {d d' : Disk} {D D' : Nat → Dinode} {j : Nat}
    (hj : Allocated (superOf d) D j) (hj' : Allocated (superOf d') D' j)
    (hown : ∀ k, owner d' D' (j, k) = owner d D (j, k))
    (hdata : ∀ k b, owner d D (j, k) = some b → d' b = d b) (hsize : (D' j).size = (D j).size)
    (hfull : Full d D j) : contents d' (D' j) = contents d (D j) := by
  rw [contents, contents, hsize]
  exact List.map_congr_left fun o ho =>
    byteAt_congr hj hj' hown hdata ((List.mem_range.1 ho).trans_le hfull.1)

/-- The list with `src` in the place of what is at `off`. -/
def spliceAt (c : List Byte) (off : Nat) (src : List Byte) : List Byte :=
  c.take off ++ src ++ c.drop (off + src.length)

/-- The elements of the list. -/
theorem spliceAt_map_range {f : Nat → Byte} {n off : Nat} {src : List Byte} (h : off ≤ n) :
    spliceAt ((List.range n).map f) off src =
      (List.range (max n (off + src.length))).map fun o =>
        if off ≤ o ∧ o < off + src.length then src.getD (o - off) 0 else f o := by
  refine List.ext_getElem ?_ fun o h1 h2 => ?_
  · simp only [spliceAt, List.length_append, List.length_take, List.length_map, List.length_range,
      List.length_drop]
    omega
  · rw [List.length_map, List.length_range] at h2
    rw [List.getElem_map, List.getElem_range]
    simp only [spliceAt, List.getElem_append, List.length_append, List.length_take,
      List.length_map, List.length_range, List.getElem_take, List.getElem_drop, List.getElem_map,
      List.getElem_range, Nat.min_eq_left h]
    by_cases hlt : o < off
    · rw [dif_pos (by omega), dif_pos hlt, if_neg (by omega)]
    by_cases hin : o < off + src.length
    · rw [dif_pos hin, dif_neg hlt, if_pos ⟨by omega, hin⟩, List.getD_eq_getElem?_getD,
        List.getElem?_eq_getElem (by omega), Option.getD_some]
    · rw [dif_neg hin, if_neg (by omega)]
      congr 1
      omega

/-- A part of the contents. -/
theorem take_drop_contents {d : Disk} {din : Dinode} {off n : Nat} :
    ((contents d din).drop off).take n =
      (List.range (min n (din.size.toNat - off))).map fun t => byteAt d din (off + t) := by
  refine List.ext_getElem ?_ fun o h1 h2 => ?_
  · simp [contents]
  · simp [contents]

section
variable {A : Allow} {pid ip i : Nat} {a a' : FsState Vol} {g g' : Ghost} {D : Nat → Dinode}
  {off : BitVec 32} {src : List Byte} {Q : Option Nat → FsState Vol → Prop}

theorem sizeAfter_toNat {din : Dinode} {n : Nat} (h : off.toNat + n < 2 ^ 32) :
    (din.sizeAfter off (BitVec.ofNat 32 n)).toNat = max din.size.toNat (off.toNat + n) := by
  rw [Dinode.sizeAfter]
  split
  · next hlt =>
    rw [BitVec.lt_def, toNat_add_ofNat h] at hlt
    rw [toNat_add_ofNat h]
    omega
  · next hge =>
    rw [BitVec.lt_def, toNat_add_ofNat h] at hge
    omega

namespace Written

section
variable (h : Written A ip i off src a g a' g')
include h

theorem size_toNat (hmax : off.toNat + src.length ≤ maxFile * bSize) :
    (g'.D i).size.toNat = max (g.D i).size.toNat (off.toNat + src.length) := by
  obtain ⟨addrs, hd⟩ := h.fields
  rw [hd]
  exact sizeAfter_toNat (hmax.trans_lt (by decide))

theorem type_eq (j : Nat) : (g'.D j).type = (g.D j).type := by
  rcases eq_or_ne j i with rfl | hne
  · obtain ⟨addrs, hd⟩ := h.fields
    rw [hd]
  · rw [h.other j hne]

theorem allocated_iff {j : Nat} :
    Allocated (superOf a'.bufs.data) g'.D j ↔ Allocated (superOf a.bufs.data) g.D j := by
  rw [Allocated, Allocated, h.super, h.type_eq j]

/-- The part of the inode is replaced. -/
theorem contents_self (hi : Allocated (superOf a.bufs.data) g.D i) (hfull : Full a.bufs.data g.D i)
    (hoff : off.toNat ≤ (g.D i).size.toNat) (hmax : off.toNat + src.length ≤ maxFile * bSize) :
    contents a'.bufs.data (g'.D i) = spliceAt (contents a.bufs.data (g.D i)) off.toNat src := by
  rw [contents, contents, spliceAt_map_range hoff, h.size_toNat hmax]
  refine List.map_congr_left fun o ho => ?_
  have hlt : o < maxFile * bSize := by
    have := List.mem_range.1 ho
    have := hfull.1
    omega
  rw [h.bytes i hi o hlt]
  simp only [true_and]

/-- The other inodes keep their contents. -/
theorem contents_other {j : Nat} (hne : j ≠ i) (hj : Allocated (superOf a.bufs.data) g.D j)
    (hfull : Full a.bufs.data g.D j) :
    contents a'.bufs.data (g'.D j) = contents a.bufs.data (g.D j) := by
  rw [contents, contents, show (g'.D j).size = (g.D j).size by rw [h.other j hne]]
  refine List.map_congr_left fun o ho => ?_
  rw [h.bytes j hj o ((List.mem_range.1 ho).trans_le hfull.1), if_neg fun hc => hne hc.1]

theorem tracks (ht : Tracks a g.D) : Tracks a' g'.D where
  geo := h.fit.geo
  owned := h.fit.owned
  disk j hj := by
    rw [h.super] at hj
    rcases eq_or_ne j i with rfl | hne
    · exact h.saved (ht.disk j hj)
    · rw [h.disk j hne hj, h.other j hne]
      exact ht.disk j hj
  cached := h.fit.cached
  unique := h.fit.unique

/-- The file system stays consistent. -/
theorem consistent (hc : Consistent a g.D) : Consistent a' g'.D where
  toTracks := h.tracks hc.toTracks
  full j hj := by
    rcases eq_or_ne j i with rfl | hne
    · exact h.full
    · have hold := hc.full j (h.allocated_iff.1 hj)
      refine ⟨by rw [h.other j hne]; exact hold.1, fun o ho => ?_⟩
      rw [h.other j hne] at ho
      obtain ⟨b, hb⟩ := Option.ne_none_iff_exists'.1 (hold.2 o ho)
      rw [h.kept _ b hb]
      exact nofun

end

end Written

/-! ## The log -/

/-- The blocks that are there for some of the pointers. -/
def presentIn (d : Disk) (D : Nat → Dinode) (i : Nat) (K : Finset Nat) : Finset Nat :=
  (K.filter fun k => ¬ owner d D (i, k) = none).image (ptr d (D i))

theorem mem_presentIn {d : Disk} {K : Finset Nat} {k b : Nat} (hk : k ∈ K)
    (hb : owner d D (i, k) = some b) : b ∈ presentIn d D i K := by
  have hne : ¬ owner d D (i, k) = none := by
    rw [hb]
    exact Option.some_ne_none b
  obtain ⟨-, -, rfl, -⟩ := owner_eq_some.1 hb
  exact Finset.mem_image_of_mem _ (Finset.mem_filter.2 ⟨hk, hne⟩)

/-- The sectors that a write of `n` bytes at `off` may log, apart from new blocks: those that the
contents have, that of the inode, and the bitmap. -/
def touched (d : Disk) (D : Nat → Dinode) (i off n : Nat) : Finset Nat :=
  insert (iblock i) (insert (superOf d).bitmapStart (presentIn d D i (slotsIn off n)))

/-- The transaction has room for a write of `n` bytes at `off`: it logs at most seven sectors in
all, and there is a single bitmap block. -/
def WriteFits (a : FsState Vol) (D : Nat → Dinode) (i off n : Nat) : Prop :=
  (a.log.sectors ∪ touched a.bufs.data D i off n).card +
    missing a.bufs.data D i (slotsIn off n) ≤ 7 ∧
  9 ≤ a.log.size ∧ (superOf a.bufs.data).size.toNat ≤ bpb

/-- `src` is written to the inode `i` at `off`, in memory and on disk; nothing else is changed. -/
structure Overwritten (ip i off : Nat) (src : List Byte) (a : FsState Vol) (D : Nat → Dinode)
    (a' : FsState Vol) (D' : Nat → Dinode) : Prop where
  consistent : Consistent a' D'
  frame : a.Frame ip a'
  contents : contents a'.bufs.data (D' i) = spliceAt (contents a.bufs.data (D i)) off src
  memory : (a'.inode ip).din = D' i
  disk : dinodeAt a'.bufs.data i = D' i
  size : (D' i).size.toNat = max (D i).size.toNat (off + src.length)
  inodes : ∀ j ≠ i, D' j = D j
  others : ∀ j ≠ i, Allocated (superOf a.bufs.data) D j →
    MCertikos.contents a'.bufs.data (D' j) = MCertikos.contents a.bufs.data (D j)

section
variable (h : Consistent a D) (hip : a.Opens ip i) (hi : Allocated (superOf a.bufs.data) D i)
  (htype : (D i).type ≠ tDev) (hbusy : a.log.busy = true) (hheld : a.bufs.held = ∅)
  (hlen : src.length < 2 ^ 32)
  (hspare : off.toNat + src.length ≤ maxFile * bSize →
    missing a.bufs.data D i (slotsIn off.toNat src.length) ≤ spare a.bufs.data)
  (hroom : A.Lax ∨ a.log.Distinct ∧ WriteFits a D i off.toNat src.length)
  (hbad : (D i).size.toNat < off.toNat ∨ 2 ^ 32 ≤ off.toNat + src.length ∨
    maxFile * bSize < off.toNat + src.length → Q none a)
include h hip hi htype hbusy hheld hlen hspare hroom hbad

/-- `inode_write` of a consistent file system, with the budget that it needs. -/
theorem vwp_inodeWrite_written
    (hok : off.toNat ≤ (D i).size.toNat → off.toNat + src.length ≤ maxFile * bSize →
      ∀ a' g g', g.D = D → Written A ip i off src a g a' g' → Q (some src.length) a') :
    vwp A pid (inodeWrite ip src off) Q a := by
  obtain ⟨m, hm, hle⟩ : ∃ m, (off.toNat + src.length ≤ maxFile * bSize →
      missing a.bufs.data D i (slotsIn off.toNat src.length) ≤ m) ∧ m ≤ spare a.bufs.data ∧
      m ≤ missing a.bufs.data D i (slotsIn off.toNat src.length) := by
    by_cases hmax : off.toNat + src.length ≤ maxFile * bSize
    · exact ⟨_, fun _ => le_rfl, hspare hmax, le_rfl⟩
    · exact ⟨0, fun hc => absurd hc hmax, Nat.zero_le _, Nat.zero_le _⟩
  have hfit : Fit A a ⟨D, a.log.sectors ∪ touched a.bufs.data D i off.toNat src.length, m⟩ := by
    refine h.fit hle.1 (hroom.imp id fun ⟨hdistinct, hcard, hsize, hsingle⟩ => ?_)
    refine ⟨hdistinct, Finset.subset_union_left, ?_, hsize, hsingle, Finset.mem_union_right _ ?_⟩
    · have := hle.2
      dsimp only
      omega
    · exact Finset.mem_insert_of_mem (Finset.mem_insert_self _ _)
  refine vwp_inodeWrite hfit hip hi hbusy hheld htype (h.full i hi) hlen hm (fun k hk b hb => ?_)
    (Finset.mem_union_right _ (Finset.mem_insert_self _ _)) hbad fun hoff hmax a' g' hw =>
      hok hoff hmax a' _ g' rfl hw
  exact Finset.mem_union_right _ (Finset.mem_insert_of_mem
    (Finset.mem_insert_of_mem (mem_presentIn hk hb)))

/-- `inode_write` of a consistent file system. -/
theorem vwp_inodeWrite_consistent
    (hok : off.toNat ≤ (D i).size.toNat → off.toNat + src.length ≤ maxFile * bSize →
      ∀ a' D', Overwritten ip i off.toNat src a D a' D' → Q (some src.length) a') :
    vwp A pid (inodeWrite ip src off) Q a := by
  refine vwp_inodeWrite_written h hip hi htype hbusy hheld hlen hspare hroom hbad
    fun hoff hmax a' g g' hg hw => ?_
  subst hg
  have hc := hw.consistent h
  refine hok hoff hmax a' g'.D ⟨hc, hw.frame, hw.contents_self hi (h.full i hi) hoff hmax,
    hc.cached ip i (hw.frame.opens_iff.2 hip), hc.disk i ?_, hw.size_toNat hmax, hw.other,
    fun j hne hj => hw.contents_other hne hj (h.full j hj)⟩
  rw [hw.super]
  exact hi.2.1

end

/-- After the boot, a thread has started a transaction and has locked the root directory. -/
def rootLocked (d : Disk) : FsState Vol := (mounted d).begun.lockInode 0 (dinodeAt d rootIno)

theorem rootLocked_run {d : Disk} (h : d.Consistent)
    (hroot : Allocated (superOf d) (dinodeAt d) rootIno) :
    ∃ s, s.View (rootLocked d) ∧
      (fsHandler BufCache.layer 0).run (do beginTrans; inodeLock 0) (.bootFrom d) = .ok () s := by
  have hfit : Fit ⟨fun _ => True, True⟩ (mounted d).begun ⟨dinodeAt d, ∅, 0⟩ :=
    h.mounted.begun.fit (Nat.zero_le _) (.inl ⟨trivial, trivial⟩)
  have hwp : vwp ⟨fun _ => False, False⟩ 0 (do beginTrans; inodeLock 0)
    (fun _ a => a = rootLocked d)
      (mounted d) := by
    refine vwp_bind (vwp_beginTrans nofun fun _ =>
      vwp_inodeLock (i := rootIno) hfit ?_ rfl hroot.2.1
      (.inr ?_) (Finset.notMem_empty _) nofun (fun _ => rfl)
        (fun _ h0 => absurd h0 hroot.2.2) fun _ => rfl)
    · exact Int.natCast_pos.2 (by decide)
    · exact (by decide : 0 + (∅ : Finset Nat).card < nBuf)
  obtain ⟨_, s, hrun, a, hs, rfl⟩ := (hwp.run (bootFrom_view h.log h.header) nofun).returns
  exact ⟨s, hs, hrun⟩

theorem rootLocked_opens {d : Disk} : (rootLocked d).Opens 0 rootIno :=
  ⟨Int.natCast_pos.2 (by decide), rfl, rfl⟩

theorem missing_le_nSlots {d : Disk} {off n : Nat} (h : off + n ≤ maxFile * bSize) :
    missing d D i (slotsIn off n) ≤ nSlots := by
  have hsub : slotsIn off n ⊆ Finset.range nSlots := by
    intro k hk
    obtain ⟨bn, hbn, hk⟩ := Finset.mem_biUnion.1 hk
    obtain ⟨o, ho, rfl⟩ := Finset.mem_image.1 hbn
    have hlt : o / bSize < maxFile := div_bSize_lt ((Finset.mem_Ico.1 ho).2.trans_le h)
    rw [show maxFile = 140 from rfl] at hlt
    rw [Finset.mem_range, show nSlots = 141 from rfl]
    rw [slotsOf, show nDirect = 12 from rfl] at hk
    split at hk
    · rw [Finset.mem_singleton] at hk
      omega
    · rw [Finset.mem_insert, Finset.mem_singleton] at hk
      omega
  calc missing d D i (slotsIn off n)
      ≤ (slotsIn off n).card := Finset.card_filter_le _ _
    _ ≤ nSlots := (Finset.card_le_card hsub).trans (Finset.card_range _).le

/-- There are blocks enough for 5120 bytes, but they are more than a transaction can log. -/
theorem missing_le_spare_emptyImage :
    missing emptyImage (dinodeAt emptyImage) 1 (slotsIn 0 5120) ≤ spare emptyImage :=
  (missing_le_nSlots (by decide)).trans (by decide +kernel)

end

end MCertikos
