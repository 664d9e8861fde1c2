import MCertikos.Fs.Intact
import MCertikos.Fs.MkfsLookup
import Mathlib.Algebra.BigOperators.Intervals

/-!
# The blocks of an image that `mkfs` makes

Blocks are handed out by a counter, so those in use are the ones below it, and they are as many as
the inodes have pointers to: each of them belongs to an inode. A file has a block for each part of
its contents. The root directory has one for each of its entries; its size is rounded up behind the
last entry, to the next block also when the entries fill the last one. In this case, and only then,
a block is missing, and `bmap` would allocate it on a read.
-/

namespace MCertikos

open Program Ownership

section
variable {m : Mkfs} {D : Nat → Dinode} {files : List (List Byte × List Byte)} {d : Disk}
  {i j pid : Nat}

/-! ## No block is lost -/

/-- A sum over the positions of a list. -/
theorem sum_positions {α : Type} {f : α → Nat} {g : Nat → Nat} {l : List α}
    (h : ∀ k x, l[k]? = some x → g k = f x) : ∑ k ∈ Finset.range l.length, g k =
    (l.map f).sum := by
  induction l using List.reverseRecOn with
  | nil => rfl
  | append_singleton l x ih =>
    rw [List.length_append, List.length_singleton, Finset.sum_range_succ,
      ih fun k y hk => h k y ?_, h l.length x (by simp), List.map_append, List.sum_append,
      List.map_singleton, List.sum_singleton]
    rw [List.getElem?_append_left (List.getElem?_eq_some_iff.1 hk).1, hk]

/-- The inodes have as many blocks as are in use. -/
theorem Mkfs.Holding.sum_nBlocks (h : Mkfs.Holding m D files) :
    ∑ j ∈ Finset.Ico 1 m.freeinode, nBlocks (D j).size.toNat = hostBlocks files := by
  have hfiles : ∑ k ∈ Finset.range files.length, nBlocks (D (k + 2)).size.toNat =
      (files.map fun file => nBlocks file.2.length).sum := sum_positions fun k file hk => by
    rw [← length_contents (d := m.image), (h.file k file hk).2.2]
  rw [h.freeinode, Finset.sum_Ico_eq_sum_range,
    show files.length + 2 - 1 = files.length + 1 by
    omega, Finset.sum_range_succ', hostBlocks, ← hfiles, ← h.size_root, Nat.add_comm]
  congr 1
  exact Finset.sum_congr rfl fun k _ => by rw [show 1 + (k + 1) = k + 2 by omega]

/-- The blocks in use are those that the inodes have. -/
theorem Mkfs.Holding.tight (h : Mkfs.Holding m D files) :
    Tight (owner m.image D) (used m.image) := by
  let T := ((Finset.Ico 1 m.freeinode).sigma fun j => Finset.range (nBlocks (D j).size.toNat)).map
    (Equiv.sigmaEquivProd Nat Nat).toEmbedding
  have hcard : T.card = hostBlocks files := by
    rw [Finset.card_map, Finset.card_sigma, ← h.sum_nBlocks]
    exact Finset.sum_congr rfl fun j _ => Finset.card_range _
  refine h.built.owned.once.tight_of_card (T := T) (U := Finset.Ico 29 m.freeblock)
    (fun s hs => ?_) (fun b hb => ?_) ?_
  · obtain ⟨⟨j, k⟩, hjk, rfl⟩ := Finset.mem_map.1 hs
    obtain ⟨hj, hk⟩ := Finset.mem_sigma.1 hjk
    obtain ⟨h1, h2⟩ := Finset.mem_Ico.1 hj
    have hk : k < nBlocks (D j).size.toNat := Finset.mem_range.1 hk
    have hslots : nBlocks (D j).size.toNat ≤ nSlots :=
      (nBlocks_mono (h.built.size j h1 h2)).trans (by decide)
    exact fun hnone => absurd ((h.built.blocks j h1 h2 k (hk.trans_le hslots)).1 hnone)
      (Nat.not_le.2 hk)
  · obtain ⟨hin, hfree⟩ := hb
    obtain ⟨h1, h2⟩ := h.built.inData_iff.1 hin
    rw [h.built.free_iff (by omega)] at hfree
    exact Finset.mem_Ico.2 ⟨h1, by omega⟩
  · rw [hcard, Nat.card_Ico, h.freeblock, show Mkfs.metaBlocks = 29 from rfl]
    omega

theorem HostImage.inData_iff {b : Nat} (h : HostImage d files) :
    (superOf d).InData b ↔ 29 ≤ b ∧ b < 1014 := by
  rw [h.super]
  exact Iff.rfl

/-- In the image, too, each block in use belongs to an inode. -/
theorem Mkfs.Holding.tight_image (h : Mkfs.Holding m D files) (hfits : HostFits files) :
    Tight (owner (m.fixRoot rootIno).image (dinodeAt (m.fixRoot rootIno).image))
      (used (m.fixRoot rootIno).image) := by
  have himage := h.hostImage hfits
  rintro b ⟨hin, hfree⟩
  obtain ⟨h1, h2⟩ := himage.inData_iff.1 hin
  rw [himage.free b (by omega), ← h.freeblock, ← h.built.free_iff (by omega)] at hfree
  obtain ⟨s, hs⟩ := h.tight b ⟨h.built.inData_iff.2 ⟨h1, h2⟩, hfree⟩
  exact ⟨s, by rw [h.fixRoot_eq, h.owner_fixRoot, hs]⟩

/-! ## No block is missing -/

/-- The root directory has all of its blocks, unless its entries fill the last one. -/
theorem HostImage.full_root (h : HostImage d files) (hfits : HostFits files)
    (hmod : (files.length + 2) % 32 ≠ 0) :
    Full d (dinodeAt d) rootIno := by
  refine ⟨(h.dirSize hfits).2, fun o ho => ?_⟩
  rw [h.rootSize, Dirent.size, show bSize = 512 from rfl] at ho
  have hblock := h.rootBlocks (o / bSize * bSize)
    (by rw [Dirent.size, show bSize = 512 from rfl]; omega)
  rwa [Nat.mul_div_cancel _ (by decide)] at hblock

theorem HostImage.full (h : HostImage d files) (hfits : HostFits files)
    (hmod : (files.length + 2) % 32 ≠ 0) (hi : Allocated (superOf d) (dinodeAt d) i) :
    Full d (dinodeAt d) i := by
  obtain ⟨hpos, hlt⟩ := (h.inodes i).1 hi
  rcases Nat.lt_or_ge i 2 with h2 | h2
  · obtain rfl : i = rootIno := by
      rw [rootIno]
      omega
    exact h.full_root hfits hmod
  · obtain ⟨j, rfl⟩ := Nat.exists_eq_add_of_le' h2
    exact (h.file j _ (List.getElem?_eq_getElem (by omega))).2.2.1

/-- The blocks of the inodes: there is one for each part of the contents, no two are the same, they
are data blocks in use, and each data block in use is one of them or an indirect block. -/
structure NoHoles (d : Disk) : Prop where
  block : ∀ j, Allocated (superOf d) (dinodeAt d) j →
    ∀ bn < ((dinodeAt d j).size.toNat + (bSize - 1)) / bSize, blockAt d (dinodeAt d j) bn ≠ 0 ∧
    owner d (dinodeAt d) (j, slotOf bn) = some (blockAt d (dinodeAt d j) bn)
  once : ∀ s t b, owner d (dinodeAt d) s = some b → owner d (dinodeAt d) t = some b → s = t
  data : ∀ s b, owner d (dinodeAt d) s = some b → (superOf d).InData b ∧ ¬ Free d b
  free : ∀ b, (superOf d).InData b → (∀ s, owner d (dinodeAt d) s ≠ some b) → Free d b

theorem Mkfs.Holding.noHoles (h : Mkfs.Holding m D files) (hfits : HostFits files)
    (hmod : (files.length + 2) % 32 ≠ 0) : NoHoles (m.fixRoot rootIno).image := by
  have himage := h.hostImage hfits
  refine ⟨fun j hj bn hbn => ?_, fun s t b => himage.owned.once.once s t b, fun s b =>
    himage.owned.once.used s b, fun b hin hnone => ?_⟩
  · have hfull := (himage.full hfits hmod hj).2 (bn * bSize) (by
      rw [show bSize = 512 from rfl] at hbn ⊢
      omega)
    rw [Nat.mul_div_cancel _ (by decide)] at hfull
    obtain ⟨b, hb⟩ := Option.ne_none_iff_exists'.1 hfull
    obtain ⟨-, -, hptr, hne⟩ := owner_eq_some.1 hb
    rw [← hptr] at hne hb
    exact ⟨hne, hb⟩
  · by_contra hfree
    obtain ⟨s, hs⟩ := h.tight_image hfits b ⟨hin, hfree⟩
    exact hnone s hs

/-- If the entries fill the last block, there is no block for the part behind them. -/
theorem Mkfs.Holding.not_noHoles (h : Mkfs.Holding m D files) (hfits : HostFits files)
    (hmod : (files.length + 2) % 32 = 0) : ¬ NoHoles (m.fixRoot rootIno).image := by
  intro hholes
  have himage := h.hostImage hfits
  have hinodes := hfits.inodes
  rw [Mkfs.ninodes] at hinodes
  have hlast := (hholes.block rootIno himage.live_root.1 ((files.length + 2) / 32) (by
    rw [himage.rootSize, Dirent.size, show bSize = 512 from rfl]
    omega)).2
  have hslot : slotOf ((files.length + 2) / 32) = (files.length + 2) / 32 :=
    if_pos (by rw [nDirect]; omega)
  rw [h.fixRoot_eq, h.owner_fixRoot, hslot] at hlast
  have hnone := (h.built.blocks rootIno (by decide) (by rw [h.freeinode, rootIno]; omega)
    ((files.length + 2) / 32) (by rw [show nSlots = 141 from rfl]; omega)).2 (by
      have := nBlocks_cases (D rootIno).size.toNat
      rw [h.size_root, Dirent.size] at this ⊢
      omega)
  cases hnone.symm.trans hlast

/-! ## Reading -/

/-- Reads from an inode, in a transaction or not. -/
def readAt (trans : Bool) (inum : Nat) (off n : BitVec 32) : Fs (Option (List Byte)) := do
  if trans then
    beginTrans
  let ip ← inodeGet rootDev inum
  inodeLock ip
  inodeRead ip off n

section
variable {A : Allow} {a : FsState Vol} {off n : BitVec 32}

/-- In a consistent file system a read changes nothing on the volume and in the log. -/
theorem Intact.vwp_read (h : Intact a D)
    (hunlocked : ∀ e, 0 < (a.inode e).ref → (a.inode e).busy = false) (hheld : a.bufs.held = ∅)
    (hempty : a.log.n = 0) (hfree : ∃ e < nInode, (a.inode e).ref = 0)
    (hi : Allocated (superOf a.bufs.data) D i) (htype : (D i).type ≠ tDev) :
    vwp A pid (do let ip ← inodeGet rootDev i; inodeLock ip; inodeRead ip off n)
      (fun _ c => c.bufs = a.bufs ∧ c.log = a.log) a := by
  obtain ⟨e, hlt, hzero⟩ := hfree
  refine vwp_bind (vwp_inodeGet h.entries (.inr ⟨e, hlt, .inl hzero⟩) fun ip x hg => ?_)
  have hgot := h.gets hg
  have href : 0 < ((a.setEntry ip x).inode ip).ref := by
    rw [FsState.setEntry_self, hg.ref]
    have := h.entries.nonneg ip
    omega
  have hinum : ((a.setEntry ip x).inode ip).inum = i := by rw [FsState.setEntry_self, hg.inum]
  have hbusy : ((a.setEntry ip x).inode ip).busy = false := by
    rw [FsState.setEntry_self]
    rcases (h.entries.nonneg ip).lt_or_eq with hpos | hzero
    · rw [(hg.old hpos).1]
      exact hunlocked ip hpos
    · exact (hg.new hzero.symm).1
  refine vwp_bind (vwp_inodeLock_free hgot.consistent.toTracks href hinum hi hbusy hempty hheld ?_)
  have hfit : Fit ⟨fun _ => True, True⟩ ((a.setEntry ip x).lockInode ip (D i)) ⟨D, ∅, 0⟩ :=
    (hgot.consistent.lockInode hinum).fit (Nat.zero_le _) (.inl ⟨trivial, trivial⟩)
  have hreads : A.Reads ((a.setEntry ip x).lockInode ip (D i)) := by
    refine .inr ?_
    rw [show ((a.setEntry ip x).lockInode ip (D i)).log.n = 0 from hempty,
      show ((a.setEntry ip x).lockInode ip (D i)).bufs.held = ∅ from hheld]
    decide
  exact vwp_inodeRead hfit (FsState.opens_lockInode href hinum) hreads hheld htype
    (fun _ => ⟨rfl, rfl⟩) (fun _ _ => ⟨rfl, rfl⟩) (h.consistent.full i hi)

/-- No inode of the image is a device. -/
theorem HostImage.type_ne_tDev (h : HostImage d files)
    (hi : Allocated (superOf d) (dinodeAt d) i) :
    (dinodeAt d i).type ≠ tDev := by
  obtain ⟨hpos, hlt⟩ := (h.inodes i).1 hi
  rcases Nat.lt_or_ge i 2 with h2 | h2
  · obtain rfl : i = rootIno := by
      rw [rootIno]
      omega
    rw [h.root.1]
    decide
  · obtain ⟨j, rfl⟩ := Nat.exists_eq_add_of_le' h2
    rw [(h.file j _ (List.getElem?_eq_getElem (by omega))).1]
    decide

theorem HostImage.intact (h : HostImage d files) (hfits : HostFits files)
    (hmod : (files.length + 2) % 32 ≠ 0) :
    Intact (mounted d) (dinodeAt d) :=
  ⟨⟨h.calm.tracks, fun _ hi => h.full hfits hmod hi⟩, entries_mounted,
    fun _ _ he => absurd (mounted_valid.symm.trans he.valid) nofun⟩

/-- A read of an image without holes changes nothing. -/
theorem HostImage.vwp_readAt (h : HostImage d files) (hfits : HostFits files)
    (hmod : (files.length + 2) % 32 ≠ 0) (hi : Allocated (superOf d) (dinodeAt d) i)
    (trans : Bool) :
    vwp A pid (readAt trans i off n) (fun _ c => c.bufs.data = d ∧ c.log.n = 0) (mounted d) := by
  have hintact := h.intact hfits hmod
  have hfree : ∃ e < nInode, ((mounted d).inode e).ref = 0 := ⟨1, by decide, rfl⟩
  cases trans with
  | false =>
    refine vwp_mono (hintact.vwp_read h.calm.unlocked rfl rfl hfree hi (h.type_ne_tDev hi)) ?_
    rintro _ c ⟨hbufs, hlog⟩
    exact ⟨by rw [hbufs]; rfl, by rw [hlog]; rfl⟩
  | true =>
    refine vwp_bind (vwp_beginTrans nofun fun _ => ?_)
    refine vwp_mono (hintact.begun.vwp_read h.calm.unlocked rfl rfl hfree hi (h.type_ne_tDev hi))
      ?_
    rintro _ c ⟨hbufs, hlog⟩
    exact ⟨by rw [hbufs]; rfl, by rw [hlog]; rfl⟩

end

/-- **The images of `mkfs` have no holes if and only if the entries of the root directory do not
fill its last block.** For files that fit, this is when each inode of the image has a block for
each part of its contents, the blocks of the inodes are distinct data blocks, marked as used, and
every other data block is marked as free; and a read of any inode after the boot, in a transaction
or not, returns with the volume and the log as they were: `bmap` allocates no block. -/
theorem mkfs_no_holes (files : List (List Byte × List Byte)) (hfits : HostFits files)
    (hslash : ∀ file ∈ files, slash ∉ file.1)
    (hsize : ∀ file ∈ files, file.2.length ≤ maxFile * bSize) :
    ∃ d, mkfs files = some d ∧ ((NoHoles d ∧
      ∀ pid trans i off n, Allocated (superOf d) (dinodeAt d) i →
        ∃ r s a, (fsHandler BufCache.layer pid).run (readAt trans i off n)
          (.bootFrom d) = .ok r s ∧
          s.View a ∧ a.bufs.data = d ∧ a.log.n = 0) ↔ (files.length + 2) % 32 ≠ 0) := by
  obtain ⟨m, D, hd, h⟩ := mkfs_holding hfits hslash hsize
  have himage := h.hostImage hfits
  refine ⟨_, hd, fun hholes hmod => h.not_noHoles hfits hmod hholes.1, fun hmod => ?_⟩
  refine ⟨h.noHoles hfits hmod, fun pid trans i off n hi => ?_⟩
  have hread : vwp ⟨fun _ => False, False⟩ pid (readAt trans i off n) _ (mounted _) :=
    himage.vwp_readAt hfits hmod hi trans
  obtain ⟨r, s, hrun, a, hs, hdata, hlog⟩ := (hread.run himage.view id).returns
  exact ⟨r, s, a, hrun, hs, hdata, hlog⟩

/-- The image with one file has no holes, and its root directory can be read. -/
theorem mkfs_no_holes_one :
    ∃ d, mkfs [([95, 97], [104, 105])] = some d ∧ NoHoles d ∧
      ∃ r s a, (fsHandler BufCache.layer 0).run (readAt false rootIno 0 512)
        (.bootFrom d) = .ok r s ∧
        s.View a ∧ a.bufs.data = d ∧ a.log.n = 0 := by
  have halloc : ((mkfs [([95, 97], [104, 105])]).all fun d =>
      decide (Allocated (superOf d) (dinodeAt d) rootIno)) = true := by decide +kernel
  obtain ⟨d, hd, hiff⟩ := mkfs_no_holes [([95, 97], [104, 105])] ⟨by decide, by decide⟩
    (List.forall_mem_singleton.2 (by decide)) (List.forall_mem_singleton.2 (by decide))
  obtain ⟨hholes, hread⟩ := hiff.2 (by decide)
  rw [hd, Option.all_some] at halloc
  exact ⟨d, hd, hholes, hread 0 false rootIno 0 512 (of_decide_eq_true halloc)⟩

/-- With 30 files the size of the root directory is two blocks, but the pointer to the second one
is zero. A read there allocates it: outside of a transaction `log_write` panics, and inside of one
the log is no longer empty. -/
theorem mkfs_hole_thirty :
    ∃ d, mkfs ((List.range 30).map fun k => ([BitVec.ofNat 8 (k + 97)], [])) = some d ∧
      Allocated (superOf d) (dinodeAt d) rootIno ∧
      1 < ((dinodeAt d rootIno).size.toNat + (bSize - 1)) / bSize ∧
      blockAt d (dinodeAt d rootIno) 1 = 0 ∧
      (∃ s, (fsHandler BufCache.layer 0).run (readAt false rootIno 512 16) (.bootFrom d) =
        .panic .outsideTrans s) ∧
      ∃ r s, (fsHandler BufCache.layer 0).run (readAt true rootIno 512 16) (.bootFrom d) =
        .ok r s ∧ s.log.n ≠ 0 := by
  have hrun : ((mkfs ((List.range 30).map fun k => ([BitVec.ofNat 8 (k + 97)], []))).any
    fun d => decide (
      (Allocated (superOf d) (dinodeAt d) rootIno ∧
        1 < ((dinodeAt d rootIno).size.toNat + (bSize - 1)) / bSize ∧
        blockAt d (dinodeAt d rootIno) 1 = 0) ∧
      ((fsHandler BufCache.layer 0).run (readAt false rootIno 512 16) (.bootFrom d)).Sat
        (fun _ _ => False) (fun e _ => e = .outsideTrans) (fun _ => False) ∧
      ((fsHandler BufCache.layer 0).run (readAt true rootIno 512 16) (.bootFrom d)).Sat
        (fun _ s => s.log.n ≠ 0) (fun _ _ => False) fun _ => False)) = true := by decide +kernel
  obtain ⟨d, hd, hrun⟩ := Option.any_eq_true _ _ |>.1 hrun
  obtain ⟨⟨halloc, hsize, hblock⟩, hpanic, hlog⟩ := of_decide_eq_true hrun
  obtain ⟨e, s, hs, rfl⟩ := hpanic.panics
  exact ⟨d, hd, halloc, hsize, hblock, ⟨s, hs⟩, hlog.returns⟩

end

end MCertikos
