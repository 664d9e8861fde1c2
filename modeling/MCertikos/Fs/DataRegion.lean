import MCertikos.Fs.MkfsImage
import MCertikos.Fs.Mount
import MCertikos.Fs.Outside

/-!
# The data region

`block_alloc` takes the first block whose bit in the bitmap is clear, among all blocks below
`sb.size`. `mkfs` sets the bits of the blocks before the data region, but nothing sets those of the
log, which are the last blocks. The first free block is therefore a data block as long as a data
block is free, and when all are in use it is the first block of the log.
-/

namespace MCertikos

open Program Transition

/-- The calls, and the transactions that they are in. -/
inductive BlockAct where
  /-- `begin_trans`. -/
  | begin
  /-- `commit_trans`. -/
  | commit
  /-- `block_alloc`. -/
  | alloc
  /-- `block_free`. -/
  | free (b : Nat)

namespace BlockAct

/-- The code, with the block number that `block_alloc` returns. -/
def code : BlockAct → Fs (Option Nat)
  | .begin => do
    beginTrans
    return none
  | .commit => do
    commitTrans
    return none
  | .alloc => do
    let b ← blockAlloc
    return some b
  | .free b => do
    blockFree b
    return none

/-- A data block is free when one is allocated, and only data blocks are freed. -/
def Valid (d : Disk) : BlockAct → Prop
  | .begin | .commit => True
  | .alloc => ∃ b, (superOf d).InData b ∧ Free d b
  | .free b => (superOf d).InData b

end BlockAct

/-- Threads allocate and free blocks, from the boot on. The state has the block numbers that
`block_alloc` has returned. -/
def blockMachine (d : Disk) : Machine (FsState BufCache × List Nat) (Nat × BlockAct) where
  Init s := s = (.bootFrom d, [])
  step s act :=
    match (fsHandler BufCache.layer act.1).run act.2.code s.1 with
    | .ok r t => some (t, r.toList ++ s.2)
    | _ => none

/-- The regions are where the super block says, and all blocks before the data region are in
use. -/
structure Regions (sb : Superblock) (a : FsState Vol) : Prop where
  geo : Geometry a.bufs.data a.log
  super : superOf a.bufs.data = sb
  reserved : ∀ b < sb.dataStart, ¬ Free a.bufs.data b
  held : a.bufs.held = ∅

section
variable {α : Type} {A : Allow} {pid x b : Nat} {sb : Superblock} {a : FsState Vol}
  {s t : FsState BufCache}

namespace Regions

section
variable (h : Regions sb a)
include h

theorem fits : sb.dataStart ≤ sb.logStart := by
  rw [← h.super, ← h.geo.start]
  exact h.geo.fits

theorem logStart_le : sb.logStart ≤ sb.size.toNat := by
  rw [← h.super, ← h.geo.start, ← h.geo.size]
  omega

theorem notMem : x ∉ a.bufs.held := by
  rw [h.held]
  exact Finset.notMem_empty x

theorem home (hx : x < sb.dataStart) : ¬ InLog a.log.start a.log.size x := fun hin => by
  have := hin.1
  have := h.geo.fits
  rw [h.super] at this
  omega

theorem alloc (hb : sb.InData b) : Regions sb (a.alloc b) := by
  have hle := h.logStart_le
  have hfits := h.fits
  obtain ⟨hgeo, rfl, hres, hheld⟩ := h
  have hsuper := superOf_alloc hb.1
  refine ⟨hgeo.congr hsuper rfl rfl, hsuper, fun c hc hfree => ?_, hheld⟩
  exact hres c hc ((free_alloc hb.1 (by omega)).1 hfree).2

theorem freeBlock (hb : sb.InData b) : Regions sb (a.freeBlock b) := by
  obtain ⟨hgeo, rfl, hres, hheld⟩ := h
  refine ⟨hgeo.congr superOf_mark rfl rfl, superOf_mark, fun c hc hfree => ?_, hheld⟩
  rw [FsState.freeBlock_data, free_mark, if_neg (hc.trans_le hb.1).ne] at hfree
  exact hres c hc hfree

theorem begun : Regions sb a.begun := ⟨h.geo.congr rfl rfl rfl, h.super, h.reserved, h.held⟩

theorem committed : Regions sb a.committed :=
  ⟨h.geo.congr rfl rfl rfl, h.super, h.reserved, h.held⟩

end

end Regions

/-! ## Calls -/

theorem Regions.outside (h : Regions sb a) (hbusy : a.log.busy = false)
    (hA : ∀ e, e ≠ .unsaved → A.panic e) :
    Outside A a := ⟨h.geo, hbusy, fun _ hx => absurd hx h.notMem, hA⟩

/-- `block_alloc` takes a data block, if one is free. -/
theorem Regions.vwp_blockAlloc (h : Regions sb a) (hfree : ∃ b, sb.InData b ∧ Free a.bufs.data b)
    (hA : ∀ e, e ≠ .unsaved → A.panic e) :
    vwp A pid blockAlloc (fun b a' => sb.InData b ∧ Regions sb a') a := by
  have hlax : A.Lax := ⟨hA _ nofun, hA _ nofun⟩
  cases hbusy : a.log.busy with
  | true =>
    obtain ⟨c, hc, hfree⟩ := hfree
    have hle := h.logStart_le
    obtain ⟨f, rest, hf, hin, -⟩ : ∃ f rest, frees a.bufs.data = f :: rest ∧ _ :=
      first_free (h.super.symm ▸ h.reserved)
        (mem_frees.2 ⟨by rw [h.super]; exact hc.2.trans_le hle, hfree⟩) (h.super.symm ▸ hc.2)
    have hactive : Active a := ⟨h.geo, hbusy, fun x hx => absurd hx h.notMem⟩
    have hin' : sb.InData f := h.super ▸ hin
    exact MCertikos.vwp_blockAlloc hactive hf hin (.inl hlax) (fun _ => .inl hlax)
      ⟨hin', h.alloc hin'⟩
  | false => exact (h.outside hbusy hA).vwp_blockAlloc

/-- `block_free` of a data block keeps the regions. -/
theorem Regions.vwp_blockFree (h : Regions sb a) (hb : sb.InData b)
    (hA : ∀ e, e ≠ .unsaved → A.panic e) :
    vwp A pid (blockFree b) (fun _ a' => Regions sb a') a := by
  have hlax : A.Lax := ⟨hA _ nofun, hA _ nofun⟩
  have hlt : bblock b sb.ninodes.toNat < sb.dataStart := bblock_lt (hb.2.trans_le h.logStart_le)
  refine vwp_readSuperblock (.inl hlax.1) h.geo h.notMem ?_
  rw [h.super]
  refine vwp_bind (vwp_bufcacheRead (.inl hlax.1) h.notMem (h.home hlt)
    (vwp_ite (fun _ => ?_) fun _ => ?_))
  · exact vwp_bind (vwp_kernPanic (hA _ nofun))
  · cases hbusy : a.log.busy with
    | true =>
      refine vwp_store (k := pure ()) hbusy (Finset.mem_insert_self _ _) (.inl hlax) (vwp_pure ?_)
      rw [FsState.release_store_hold h.notMem]
      have hfreed := h.freeBlock hb
      rwa [FsState.freeBlock, h.super] at hfreed
    | false => exact (h.outside hbusy hA).vwp_logged

theorem Regions.vwp_blockAct (h : Regions sb a) {act : BlockAct} (hvalid : act.Valid a.bufs.data)
    (hA : ∀ e, e ≠ .unsaved → A.panic e) (hblock : A.block) :
    vwp A pid act.code (fun r a' => (∀ b ∈ r, sb.InData b) ∧ Regions sb a') a := by
  cases act with
  | begin => exact vwp_bind (vwp_beginTrans (fun _ => hblock) fun _ => vwp_pure ⟨nofun, h.begun⟩)
  | commit =>
    exact vwp_bind (vwp_commitTrans h.held (.inl (hA _ nofun)) (vwp_pure ⟨nofun, h.committed⟩))
  | alloc =>
    rw [BlockAct.Valid, h.super] at hvalid
    refine vwp_bind (vwp_mono (h.vwp_blockAlloc hvalid hA) fun b a' hb => vwp_pure ⟨?_, hb.2⟩)
    rintro c ⟨⟩
    exact hb.1
  | free b =>
    rw [BlockAct.Valid, h.super] at hvalid
    exact vwp_bind (vwp_mono (h.vwp_blockFree hvalid hA) fun _ a' h' => vwp_pure ⟨nofun, h'⟩)

/-! ## Runs -/

/-- The bitmap, as the buffers have it. -/
theorem Regions.valid (h : Regions sb a) (hs : s.View a) {act : BlockAct}
    (hvalid : act.Valid s.bufs.current) :
    act.Valid a.bufs.data := by
  have hlow : ∀ x < sb.dataStart, s.bufs.current x = a.bufs.data x :=
    fun x hx => hs.current (h.home hx)
  have hsuper : superOf s.bufs.current = superOf a.bufs.data :=
    superOf_congr fun x hx =>
      hlow x (by rw [h.super] at hx; exact hx.trans bitmapStart_lt_dataStart)
  cases act with
  | begin => trivial
  | commit => trivial
  | alloc =>
    obtain ⟨b, hb, hfree⟩ := hvalid
    rw [hsuper] at hb
    refine ⟨b, hb, (free_congr hsuper (fun x _ hx => hlow x (by rwa [h.super] at hx)) ?_).1 hfree⟩
    rw [h.super] at hb ⊢
    exact hb.2.trans_le h.logStart_le
  | free b =>
    rw [BlockAct.Valid, hsuper] at hvalid
    exact hvalid

theorem blockStep (hs : s.View a) (h : Regions sb a) {act : BlockAct}
    (hvalid : act.Valid s.bufs.current) (pid : Nat) :
    ((fsHandler BufCache.layer pid).run act.code s).Sat
      (fun r t => (∀ b ∈ r, sb.InData b) ∧ ∃ a', t.View a' ∧ Regions sb a') (fun _ _ => True)
      fun _ => True := by
  have hwp : vwp ⟨fun e => e ≠ .unsaved, True⟩ pid act.code _ a :=
    h.vwp_blockAct (h.valid hs hvalid) (fun _ he => he) trivial
  refine (hwp.run hs fun he => he rfl).mono ?_ (fun _ _ _ => trivial) fun _ _ => trivial
  rintro r t ⟨a', hv, hr, h'⟩
  exact ⟨hr, a', hv, h'⟩

/-- The blocks that a run allocates are data blocks. -/
theorem blockRun {d : Disk} {r : List Nat} (hs : s.View a) (h : Regions sb a)
    (hrun : (blockMachine d).Runs (fun s act => act.2.Valid s.1.bufs.current) (s, []) (t, r)) :
    ∀ b ∈ r, sb.InData b := by
  refine (hrun.invariant (I := fun u => (∀ b ∈ u.2, sb.InData b) ∧ ∃ a, u.1.View a ∧
    Regions sb a) ?_ ⟨List.forall_mem_nil _, a, hs, h⟩).1
  rintro ⟨t, r⟩ ⟨pid, act⟩ u ⟨hr, a, ht, hin⟩ hok hstep
  have hsat := blockStep ht hin hok pid
  simp only [blockMachine] at hstep
  cases hrun : (fsHandler BufCache.layer pid).run act.code t with
  | ok r' v =>
    rw [hrun] at hstep hsat
    cases hstep
    refine ⟨fun b hb => ?_, hsat.2⟩
    rcases List.mem_append.1 hb with hb | hb
    · exact hsat.1 b (Option.mem_toList.1 hb)
    · exact hr b hb
  | panic e v =>
    rw [hrun] at hstep
    cases hstep
  | blocked v =>
    rw [hrun] at hstep
    cases hstep

end

/-! ## Images of `mkfs` -/

section
variable {files : List (List Byte × List Byte)} {d : Disk}

theorem HostImage.regions (h : HostImage d files) : Regions (superOf d) (mounted d) where
  geo := h.geometry
  super := rfl
  reserved b hb hfree := by
    rw [h.super] at hb
    replace hb : b < 29 := hb
    have hle : Mkfs.metaBlocks + hostBlocks files ≤ b := (h.free b (by omega)).1 hfree
    rw [show Mkfs.metaBlocks = 29 from rfl] at hle
    omega
  held := rfl

/-- **The allocator stays inside the data region.** From an image of `mkfs`, in every sequence of
calls in which a data block is free when `block_alloc` is called and only data blocks are freed,
`block_alloc` returns data blocks: none is the boot block, the super block, or a block of the
inodes, of the bitmap or of the log. -/
theorem alloc_in_data_region (hfits : HostFits files) (hslash : ∀ file ∈ files, slash ∉ file.1)
    (hsize : ∀ file ∈ files, file.2.length ≤ maxFile * bSize) (hd : mkfs files = some d)
    {t : FsState BufCache} {r : List Nat}
    (hrun : (blockMachine d).Runs (fun s act => act.2.Valid s.1.bufs.current)
      (.bootFrom d, []) (t, r)) :
    ∀ b ∈ r, (superOf d).dataStart ≤ b ∧ b < (superOf d).size.toNat - (superOf d).nlog.toNat := by
  obtain ⟨d', hd', himage⟩ := mkfs_hostImage hfits hslash hsize
  obtain rfl : d' = d := Option.some.inj (hd'.symm.trans hd)
  intro b hb
  have hin := blockRun himage.view himage.regions hrun b hb
  refine ⟨hin.1, hin.2.trans_eq ?_⟩
  rw [himage.super]
  decide

/-- In the empty file system a block is allocated; it is the second data block. -/
theorem alloc_in_data_region_emptyImage :
    ∃ t, (blockMachine emptyImage).Reachable (t, [30]) ∧ (superOf emptyImage).dataStart ≤ 30 ∧
      30 < (superOf emptyImage).size.toNat - (superOf emptyImage).nlog.toNat := by
  have hbegin : ((blockMachine emptyImage).step (.bootFrom emptyImage, []) (0, .begin)).any
    (fun s =>
      decide ((superOf s.1.bufs.current).InData 30 ∧ Free s.1.bufs.current 30) &&
        ((blockMachine emptyImage).step s (0, .alloc)).any fun t => decide (t.2 = [30])) =
        true := by
    decide +kernel
  obtain ⟨s, hs, hrest⟩ := Option.any_eq_true _ _ |>.1 hbegin
  rw [Bool.and_eq_true, decide_eq_true_eq] at hrest
  obtain ⟨⟨t, r⟩, ht, hr⟩ := Option.any_eq_true _ _ |>.1 hrest.2
  obtain rfl : r = [30] := of_decide_eq_true hr
  have hfits : HostFits [] := ⟨by decide, by decide⟩
  have hd : mkfs [] = some emptyImage := by
    obtain ⟨d, hd, -⟩ := mkfs_hostImage hfits (List.forall_mem_nil _) (List.forall_mem_nil _)
    rw [emptyImage, hd, Option.getD_some]
  have hvalid : BlockAct.Valid s.1.bufs.current .alloc := ⟨30, hrest.1⟩
  have hruns : (blockMachine emptyImage).Runs (fun s act => act.2.Valid s.1.bufs.current)
      (.bootFrom emptyImage, []) (t, [30]) :=
    .tail (.tail .refl (show BlockAct.Valid _ .begin from trivial) hs) hvalid ht
  exact ⟨t, .step (.step (.init rfl) hs) ht, alloc_in_data_region hfits (List.forall_mem_nil _)
    (List.forall_mem_nil _) hd hruns 30 List.mem_cons_self⟩

end

/-! ## A full disk -/

section
variable {pid : Nat} {files : List (List Byte × List Byte)} {d : Disk}

/-- When all data blocks are in use, the first free block is the first one of the log. -/
theorem HostImage.frees_full (h : HostImage d files) (hfull : hostBlocks files = Mkfs.nblocks) :
    ∃ rest, frees d = 1014 :: rest := by
  have hiff : ∀ b < 1024, (Free d b ↔ 1014 ≤ b) := fun b hb => by
    rw [h.free b hb, hfull]
    rfl
  have hmem : 1014 ∈ frees d :=
    mem_frees.2 ⟨by rw [h.super]; decide, (hiff 1014 (by decide)).2 le_rfl⟩
  cases hfr : frees d with
  | nil =>
    rw [hfr] at hmem
    cases hmem
  | cons f rest =>
    obtain ⟨hlt, hfree⟩ := mem_frees.1 (hfr ▸ List.mem_cons_self : f ∈ frees d)
    rw [h.super] at hlt
    have hle : f ≤ 1014 := Nat.not_lt.1 fun hlt => notFree_of_lt hfr hlt (mem_frees.1 hmem).2
    have hge : 1014 ≤ f := (hiff f hlt).1 hfree
    exact ⟨rest, by rw [Nat.le_antisymm hle hge]⟩

/-- `block_zero` of the first block of the log, when one sector is logged: nothing keeps it from
logging that block too. -/
theorem wp_blockZero_log {s : FsState Store} {a : FsState Vol} (hs : s.Shows a)
    (hheld : a.bufs.held = ∅) (hn : a.log.n = 1) (hsize : a.log.size = 10)
    (hbusy : a.log.busy = true) :
    wp pid (blockZero a.log.start >>= fun _ => pure a.log.start) (fun r _ => r = a.log.start)
    (fun _ _ => False)
      (fun _ => False) s := by
  obtain ⟨b, rfl⟩ : ∃ b, s = a.withBufs b := ⟨_, hs.1⟩
  have hb : b.Shows a.log a.bufs := hs.2
  have hempty : b.busy = ∅ := hb.busy.trans hheld
  have hcard : b.dirty.card = 1 := by rw [hb.dirty, hb.distinct.card_sectors, hn]
  have hbuf : nBuf = 10 := rfl
  refine Handler.wp_bind.2 (Handler.wp_bind.2
    (wp_bufcacheRead (fun hx => ?_) (fun _ hfull => ?_) fun _ => ?_))
  · exact absurd (hempty ▸ hx) (Finset.notMem_empty _)
  · replace hfull : nBuf ≤ (b.busy ∪ b.dirty).card := hfull
    rw [hempty, Finset.empty_union] at hfull
    omega
  have hmem : a.log.start ∈ insert a.log.start b.busy := Finset.mem_insert_self _ _
  refine Handler.wp_bind.2 (wp_bufSet (fun hx => absurd hmem hx) fun _ => ?_)
  refine Handler.wp_bind.2 (wp_logWrite hmem (fun hbig => ?_) (fun hout => ?_)
    (fun _ hslot _ => ?_) (fun _ hfull _ => ?_) fun _ _ _ _ => ?_)
  · replace hbig : 10 ≤ a.log.n ∨ a.log.size ≤ a.log.n + 1 := hbig
    omega
  · exact absurd (hbusy.symm.trans hout) nofun
  · replace hslot : a.log.start + a.log.slotOf a.log.start + 1 ∈ insert a.log.start b.busy := hslot
    rw [hempty, Finset.mem_insert] at hslot
    rcases hslot with heq | hslot
    · omega
    · exact absurd hslot (Finset.notMem_empty _)
  · replace hfull : nBuf ≤ (insert a.log.start b.busy ∪ b.dirty).card := hfull
    have hle := Finset.card_union_le (insert a.log.start b.busy) b.dirty
    rw [hempty, Finset.card_insert_of_notMem (Finset.notMem_empty _), Finset.card_empty] at hle
    rw [hempty] at hfull
    omega
  · exact wp_bufcacheRelease (fun hx => absurd hmem hx) (fun _ => Finset.notMem_erase _ _) fun _ =>
      rfl

/-- On an image without a free data block, `block_alloc` returns the first block of the log. -/
theorem HostImage.block_alloc_full (h : HostImage d files)
    (hfull : hostBlocks files = Mkfs.nblocks) :
    ∃ t, (blockMachine d).Reachable (t, [1014]) := by
  obtain ⟨rest, hfrees⟩ := h.frees_full hfull
  have hgeo : Geometry (mounted d).begun.bufs.data (mounted d).begun.log :=
    h.geometry.congr rfl rfl rfl
  have hstart : (mounted d).begun.log.start = 1014 := by
    rw [hgeo.start]
    exact (congrArg Superblock.logStart h.super).trans (by decide)
  have hsize : (mounted d).begun.log.size = 10 :=
    congrArg (fun sb : Superblock => sb.nlog.toNat) h.super
  -- The bit is set in a transaction, and then the block is filled with zeros.
  have hbegin : vwp ⟨fun _ => False, False⟩ 0 (BlockAct.code .begin)
    (fun r a => r = none ∧ a = (mounted d).begun)
      (mounted d) :=
    vwp_bind (vwp_beginTrans (fun hb => by cases hb) fun _ => vwp_pure ⟨rfl, rfl⟩)
  obtain ⟨_, s, hrun, _, ⟨u, hrep, hshows⟩, rfl, rfl⟩ := (hbegin.run h.view id).returns
  have hmark : vwp ⟨fun _ => False, False⟩ 0 blockMark
      (fun r a => r = 1014 ∧ a = (mounted d).begun.markUsed 1014) (mounted d).begun := by
    refine vwp_blockMark ⟨hgeo, rfl, fun x hx => absurd hx (Finset.notMem_empty x)⟩ hfrees
      (.inr ⟨Nat.zero_le 7, ?_, Nat.zero_le 1⟩) ⟨rfl, rfl⟩
    rw [hsize]
    exact Nat.le_add_left 2 8
  have halloc : wp 0 (BlockAct.code .alloc) (fun r _ => r = some 1014) (fun _ _ => False)
      (fun _ => False) u := by
    refine Handler.wp_bind.2 ?_
    rw [blockAlloc_eq]
    refine Handler.wp_bind.2 ((hmark u hshows).mono ?_ (fun _ _ he => he) fun _ hb => hb)
    rintro _ v ⟨_, hv, rfl, rfl⟩
    have hn : ((mounted d).begun.markUsed 1014).log.n = 1 := by
      rw [FsState.markUsed, FsState.store, Log.record_of_notMem (Finset.notMem_empty _)]
      rfl
    have hzero : wp 0 _ _ _ _ v := wp_blockZero_log hv rfl hn hsize rfl
    rw [show ((mounted d).begun.markUsed 1014).log.start = 1014 from hstart] at hzero
    exact hzero.mono (fun r _ hr => congrArg some hr) (fun _ _ he => he) fun _ hb => hb
  obtain ⟨_, t, hrun', rfl⟩ :
    ∃ r t, (fsHandler BufCache.layer 0).run (BlockAct.code .alloc) s = .ok r t ∧
      r = some 1014 :=
    (((hrep.run 0 (BlockAct.code .alloc)).sat halloc fun _ _ he => he.elim).mono
      (fun _ _ hr => hr.choose_spec.2)
      (fun _ _ he => he.choose_spec.2) fun _ hb => hb.choose_spec.2).returns
  have hstep : (blockMachine d).step (.bootFrom d, []) (0, .begin) = some (s, []) := by
    simp only [blockMachine, hrun, Option.toList_none, List.append_nil]
  have hstep' : (blockMachine d).step (s, []) (0, .alloc) = some (t, [1014]) := by
    simp only [blockMachine, hrun', Option.toList_some, List.append_nil]
  exact ⟨t, .step (.step (.init rfl) hstep) hstep'⟩

/-- Seven files that fill the disk: one of 137 blocks, and six of the largest size. -/
def fullFiles : List (List Byte × List Byte) :=
  ([97], List.replicate 70144 0) :: (List.range 6).map fun k =>
    ([BitVec.ofNat 8 (98 + k)], List.replicate 71680 0)

theorem hostBlocks_fullFiles : hostBlocks fullFiles = Mkfs.nblocks := by
  have hsum : (fullFiles.map fun file => nBlocks file.2.length) =
      nBlocks 70144 :: (List.range 6).map fun _ => nBlocks 71680 := by
    simp only [fullFiles, List.map_cons, List.map_map, List.length_replicate, Function.comp_def]
  have hlen : fullFiles.length = 7 := by
    simp only [fullFiles, List.length_cons, List.length_map, List.length_range]
  rw [hostBlocks, hsum, hlen]
  decide

/-- Then `block_alloc` returns the first block of the log. -/
theorem alloc_in_log_region :
    ∃ d t, HostFits fullFiles ∧ (∀ file ∈ fullFiles, slash ∉ file.1 ∧
      file.2.length ≤ maxFile * bSize) ∧
      mkfs fullFiles = some d ∧ (blockMachine d).Reachable (t, [1014]) ∧
      (superOf d).size.toNat - (superOf d).nlog.toNat ≤ 1014 ∧ 1014 < (superOf d).size.toNat := by
  have hfits : HostFits fullFiles := by
    refine ⟨?_, hostBlocks_fullFiles.le⟩
    simp only [fullFiles, List.length_cons, List.length_map, List.length_range]
    decide
  have hfiles : ∀ file ∈ fullFiles, slash ∉ file.1 ∧ file.2.length ≤ maxFile * bSize := by
    intro file hfile
    rcases List.mem_cons.1 hfile with rfl | hfile
    · exact ⟨by decide, by rw [List.length_replicate]; decide⟩
    · obtain ⟨k, hk, rfl⟩ := List.mem_map.1 hfile
      have hk' : ∀ k ∈ List.range 6, slash ∉ [BitVec.ofNat 8 (98 + k)] := by decide
      exact ⟨hk' k hk, by rw [List.length_replicate]; decide⟩
  obtain ⟨d, hd, himage⟩ := mkfs_hostImage hfits (fun file hfile => (hfiles file hfile).1)
    fun file hfile => (hfiles file hfile).2
  obtain ⟨t, ht⟩ := himage.block_alloc_full hostBlocks_fullFiles
  refine ⟨d, t, hfits, hfiles, hd, ht, ?_⟩
  rw [himage.super]
  decide

end

end MCertikos
