import MCertikos.Fs.DirMap
import MCertikos.Fs.File
import Mathlib.Algebra.GroupWithZero.Nat

/-!
# Reading and writing open files

`file_write` cuts what it has to write into parts of at most 1536 bytes, and writes each of them in
a transaction of its own, at the offset of the open file, which it advances. Such a part fits into
the log wherever it lies: it is in at most four blocks, and with the block of indirect pointers,
the block of the inode and the bitmap it logs at most seven sectors. Together the parts are the
whole (`FileWritten.append`), so the file is as after one `inode_write`. `file_read` returns the
bytes at the offset and advances it, so a sequence of calls returns the contents piece by piece.
-/

namespace MCertikos

open Program BitField Function

/-! ## The log -/

section
variable {A : Allow} {pid f ip i : Nat} {a a' a'' : FsState Vol} {g g' : Ghost}
  {D D' D'' : Nat → Dinode} {off : BitVec 32} {src src' c : List Byte}
  {Q : Option Nat → FsState Vol → Prop}

/-- The blocks of the contents that a transaction of `file_write` touches, with that of the
indirect pointers. -/
theorem card_slotsIn_le {off n : Nat} (h : n ≤ fileWriteMax) : (slotsIn off n).card ≤ 5 := by
  have hsub : slotsIn off n ⊆
      insert nDirect ((Finset.Ico (off / bSize) (off / bSize + 4)).image slotOf) := by
    intro k hk
    obtain ⟨bn, hbn, hk⟩ := Finset.mem_biUnion.1 hk
    obtain ⟨o, ho, rfl⟩ := Finset.mem_image.1 hbn
    have hrange : o / bSize ∈ Finset.Ico (off / bSize) (off / bSize + 4) := by
      rw [Finset.mem_Ico] at ho ⊢
      rw [show fileWriteMax = 1536 from rfl] at h
      rw [show bSize = 512 from rfl]
      omega
    have hslot : k = nDirect ∨ k = slotOf (o / bSize) := by
      rw [slotsOf] at hk
      rw [slotOf]
      split_ifs at hk ⊢ with hlt
      · exact .inr (Finset.mem_singleton.1 hk)
      · simpa using hk
    rcases hslot with rfl | rfl
    · exact Finset.mem_insert_self _ _
    · exact Finset.mem_insert_of_mem (Finset.mem_image_of_mem _ hrange)
  calc (slotsIn off n).card
      ≤ ((Finset.Ico (off / bSize) (off / bSize + 4)).image slotOf).card + 1 :=
        (Finset.card_le_card hsub).trans (Finset.card_insert_le _ _)
    _ ≤ (Finset.Ico (off / bSize) (off / bSize + 4)).card + 1 :=
      Nat.succ_le_succ Finset.card_image_le
    _ = 5 := by rw [Nat.card_Ico]; omega

theorem card_presentIn_add_missing_le {d : Disk} {K : Finset Nat} :
    (presentIn d D i K).card + missing d D i K ≤ K.card := by
  have hsplit := K.card_filter_add_card_filter_not fun k => owner d D (i, k) = none
  have himage : (presentIn d D i K).card ≤ (K.filter fun k => ¬ owner d D (i, k) = none).card :=
    Finset.card_image_le
  rw [missing]
  omega

/-- A log of the size that `mkfs` gives it, and a single bitmap block. -/
structure Standard (a : FsState Vol) : Prop where
  size : 9 ≤ a.log.size
  single : (superOf a.bufs.data).size.toNat ≤ bpb

/-- `inode_write` at the start of a transaction, of not more than `file_write` writes in one. -/
theorem vwp_inodeWrite_part (h : Consistent a D) (hip : a.Opens ip i)
    (hi : Allocated (superOf a.bufs.data) D i) (htype : (D i).type ≠ tDev)
    (hbusy : a.log.busy = true) (hempty : a.log.n = 0) (hheld : a.bufs.held = ∅)
    (hoff : off.toNat ≤ (D i).size.toNat) (hmax : off.toNat + src.length ≤ maxFile * bSize)
    (hspare : missing a.bufs.data D i (slotsIn off.toNat src.length) ≤ spare a.bufs.data)
    (hroom : A.Lax ∨ Standard a ∧ src.length ≤ fileWriteMax)
    (hok : ∀ a' g g', g.D = D → Written A ip i off src a g a' g' → Q (some src.length) a') :
    vwp A pid (inodeWrite ip src off) Q a := by
  have hbig : maxFile * bSize = 71680 := rfl
  refine vwp_inodeWrite_written h hip hi htype hbusy hheld (by omega) (fun _ => hspare)
    (hroom.imp id fun hsmall =>
      ⟨fun k hk => absurd hk (by omega), ?_, hsmall.1.size, hsmall.1.single⟩)
    (fun hbad => by omega) fun _ _ => hok
  have hsum := card_presentIn_add_missing_le (d := a.bufs.data) (D := D) (i := i)
    (K := slotsIn off.toNat src.length)
  have hslots : (slotsIn off.toNat src.length).card ≤ 5 := card_slotsIn_le hsmall.2
  have hcard : (touched a.bufs.data D i off.toNat src.length).card ≤
      (presentIn a.bufs.data D i (slotsIn off.toNat src.length)).card + 2 :=
    (Finset.card_insert_le _ _).trans (Nat.succ_le_succ (Finset.card_insert_le _ _))
  rw [Log.sectors, hempty, Finset.range_zero, Finset.image_empty, Finset.empty_union]
  omega

/-- The blocks that an inode lacks, as slots. -/
theorem missing_eq_card {d : Disk} {K : Finset Nat} :
    missing d D i K = ((K.image (Prod.mk i)).filter fun s => owner d D s = none).card := by
  rw [Finset.filter_image, Finset.card_image_of_injective _ (Prod.mk_right_injective i), missing]

section
variable (h : Written A ip i off src a g a' g') (hi : Allocated (superOf a.bufs.data) g.D i)
  (hmax : off.toNat + src.length ≤ maxFile * bSize)
include h hi hmax

/-- As many of the slots get a block as blocks are used. -/
theorem Written.card_missing_add_le {W : Finset (Nat × Nat)}
    (hW : (slotsIn off.toNat src.length).image (Prod.mk i) ⊆ W) :
    (W.filter fun s => owner a'.bufs.data g'.D s = none).card + (g.m - g'.m) ≤
      (W.filter fun s => owner a.bufs.data g.D s = none).card := by
  have hzero : missing a'.bufs.data g'.D i (slotsIn off.toNat src.length) = 0 :=
    h.full.missing_eq_zero (h.allocated_iff.2 hi) ((h.size_toNat hmax).symm ▸ Nat.le_max_right _ _)
  rw [missing_eq_card, Finset.card_eq_zero, Finset.filter_eq_empty_iff] at hzero
  have hsub : (W.filter fun s => owner a'.bufs.data g'.D s = none) ⊆
      (W.filter fun s => owner a.bufs.data g.D s = none) \
        ((slotsIn off.toNat src.length).image (Prod.mk i)).filter fun s =>
        owner a.bufs.data g.D s = none := by
    intro s hs
    obtain ⟨hsW, hnone⟩ := Finset.mem_filter.1 hs
    have hold : owner a.bufs.data g.D s = none := by
      rw [Option.eq_none_iff_forall_ne_some]
      intro b hb
      rw [h.kept _ b hb] at hnone
      cases hnone
    exact Finset.mem_sdiff.2 ⟨Finset.mem_filter.2 ⟨hsW, hold⟩, fun hin =>
      hzero (Finset.mem_filter.1 hin).1 hnone⟩
  have hcard := Finset.card_le_card hsub
  rw [Finset.card_sdiff_of_subset (Finset.filter_subset_filter _ hW)] at hcard
  have hle := Finset.card_le_card
    (Finset.filter_subset_filter (fun s => owner a.bufs.data g.D s = none) hW)
  have hneed := h.need
  rw [missing_eq_card] at hneed
  omega

/-- The blocks that are left are enough for what is left to write. -/
theorem Written.missing_le_spare {L : Finset Nat} (hL : slotsIn off.toNat src.length ⊆ L)
    (hspare : missing a.bufs.data g.D i L ≤ MCertikos.spare a.bufs.data) :
    missing a'.bufs.data g'.D i L ≤ MCertikos.spare a'.bufs.data := by
  have hle := h.card_missing_add_le hi hmax (Finset.image_subset_image hL)
  have hsum := h.spare
  rw [missing_eq_card] at hspare ⊢
  omega

end

/-! ## Open files -/

/-- The open file `f` is of the file `i`, which is in the entry `ip` of the inode cache. No thread
is at work. -/
structure IdleFile (a : FsState Vol) (D : Nat → Dinode) (f ip i : Nat) : Prop where
  consistent : Consistent a D
  isInode : (a.file f).type = .inode
  entry : (a.file f).ip = ip
  ref : 0 < (a.inode ip).ref
  inum : (a.inode ip).inum = i
  alloc : Allocated (superOf a.bufs.data) D i
  type : (D i).type = tFile
  held : a.bufs.held = ∅
  unlocked : (a.inode ip).busy = false
  idle : a.log.busy = false
  empty : a.log.n = 0

/-- The state with another offset of the open file. -/
def FsState.seek (a : FsState Vol) (f : Nat) (off : BitVec 32) : FsState Vol :=
  { a with file := update a.file f { a.file f with off } }

theorem FsState.seek_zero : a.seek f ((a.file f).off + BitVec.ofNat 32 0) = a := by
  simp only [FsState.seek, BitVec.add_zero, update_eq_self]

theorem FsState.View.seek {s : FsState BufCache} (h : s.View a) (f : Nat) (off : BitVec 32) :
    ∃ t : FsState BufCache, t.View (a.seek f off) := by
  obtain ⟨u, ⟨-, hrep⟩, -, hshows⟩ := h
  exact ⟨(a.seek f off).withBufs s.bufs, (a.seek f off).withBufs u.bufs, ⟨rfl, hrep⟩, rfl, hshows⟩

theorem Tracks.seek (h : Tracks a D) : Tracks (a.seek f off) D :=
  ⟨h.geo, h.owned, h.disk, fun e j he => h.cached e j ⟨he.ref, he.valid, he.inum⟩, h.unique⟩

theorem Consistent.seek (h : Consistent a D) : Consistent (a.seek f off) D :=
  ⟨h.toTracks.seek, h.full⟩

theorem IdleFile.seek (h : IdleFile a D f ip i) : IdleFile (a.seek f off) D f ip i := by
  have hfile : (a.seek f off).file f = { a.file f with off } := update_self _ _ _
  exact ⟨h.consistent.seek, (congrArg File.type hfile).trans h.isInode,
    (congrArg File.ip hfile).trans h.entry, h.ref, h.inum, h.alloc, h.type, h.held, h.unlocked,
    h.idle, h.empty⟩

/-- `src` is written to the file at the offset of `f`, which is advanced; nothing else is
changed. -/
structure FileWritten (f ip i : Nat) (src : List Byte) (a : FsState Vol) (D : Nat → Dinode)
    (a' : FsState Vol) (D' : Nat → Dinode) : Prop where
  contents : contents a'.bufs.data (D' i) =
    spliceAt (contents a.bufs.data (D i)) (a.file f).off.toNat src
  size : (D' i).size.toNat = max (D i).size.toNat ((a.file f).off.toNat + src.length)
  fields : ∃ size addrs, D' i = { D i with size, addrs }
  inodes : ∀ j ≠ i, D' j = D j
  others : ∀ j ≠ i, Allocated (superOf a.bufs.data) D j →
    MCertikos.contents a'.bufs.data (D' j) = MCertikos.contents a.bufs.data (D j)
  file : a'.file = (a.seek f ((a.file f).off + BitVec.ofNat 32 src.length)).file
  cache : ∀ e ≠ ip, a'.inode e = a.inode e
  openfiles : a'.openfiles = a.openfiles
  cwd : a'.cwd = a.cwd
  super : superOf a'.bufs.data = superOf a.bufs.data
  log : a'.log.size = a.log.size
  blocks : ∀ L, slotsIn (a.file f).off.toNat src.length ⊆ L →
    missing a.bufs.data D i L ≤ spare a.bufs.data → missing a'.bufs.data D' i L ≤
    spare a'.bufs.data

theorem spliceAt_append {o : Nat} (h : o ≤ c.length) :
    spliceAt (spliceAt c o src) (o + src.length) src' = spliceAt c o (src ++ src') := by
  have hlen : (c.take o ++ src).length = o + src.length := by
    rw [List.length_append, List.length_take, Nat.min_eq_left h]
  rw [spliceAt, spliceAt, spliceAt, List.take_append_of_le_length hlen.ge,
    List.take_of_length_le hlen.le, List.drop_append, hlen, List.drop_eq_nil_of_le (by omega),
    List.drop_drop, List.length_append, List.nil_append, List.append_assoc (c.take o)]
  congr 2
  omega

namespace FileWritten

section
variable (h : FileWritten f ip i src a D a' D')
include h

theorem standard (hs : Standard a) : Standard a' :=
  ⟨h.log ▸ hs.size, h.super ▸ hs.single⟩

theorem file_self :
    a'.file f = { a.file f with off := (a.file f).off + BitVec.ofNat 32 src.length } := by
  rw [h.file]
  exact update_self _ _ _

theorem off_toNat (hmax : (a.file f).off.toNat + src.length ≤ maxFile * bSize) :
    (a'.file f).off.toNat = (a.file f).off.toNat + src.length := by
  rw [h.file_self]
  exact toNat_add_ofNat (hmax.trans_lt (by decide))

theorem allocated {j : Nat} (hj : Allocated (superOf a.bufs.data) D j) :
    Allocated (superOf a'.bufs.data) D' j := by
  rw [Allocated, h.super]
  rcases eq_or_ne j i with rfl | hne
  · obtain ⟨size, addrs, hd⟩ := h.fields
    rw [hd]
    exact hj
  · rw [h.inodes j hne]
    exact hj

end

theorem nil (hoff : (a.file f).off.toNat ≤ (D i).size.toNat) : FileWritten f ip i [] a D a D where
  contents := by rw [spliceAt, List.append_nil, List.length_nil, Nat.add_zero,
    List.take_append_drop]
  size := (Nat.max_eq_left hoff).symm
  fields := ⟨_, _, rfl⟩
  inodes _ _ := rfl
  others _ _ _ := rfl
  file := by simp only [List.length_nil, FsState.seek_zero]
  cache _ _ := rfl
  openfiles := rfl
  cwd := rfl
  super := rfl
  log := rfl
  blocks _ _ h := h

/-- Two parts are the whole. -/
theorem append (h : FileWritten f ip i src a D a' D') (h' : FileWritten f ip i src' a' D' a'' D'')
    (hoff : (a.file f).off.toNat ≤ (D i).size.toNat)
    (hmax : (a.file f).off.toNat + src.length ≤ maxFile * bSize) :
    FileWritten f ip i (src ++ src') a D a'' D'' where
  contents := by
    rw [h'.contents, h.contents, h.off_toNat hmax, spliceAt_append]
    rwa [MCertikos.contents, List.length_map, List.length_range]
  size := by
    rw [h'.size, h.size, h.off_toNat hmax, List.length_append]
    omega
  fields := by
    obtain ⟨size, addrs, hd⟩ := h.fields
    obtain ⟨size', addrs', hd'⟩ := h'.fields
    exact ⟨size', addrs', by rw [hd', hd]⟩
  inodes j hne := (h'.inodes j hne).trans (h.inodes j hne)
  others j hne hj := (h'.others j hne (h.allocated hj)).trans (h.others j hne hj)
  file := by
    simp only [h'.file, h.file, FsState.seek, update_self, update_idem, List.length_append,
      BitVec.ofNat_add, BitVec.add_assoc]
  cache e hne := (h'.cache e hne).trans (h.cache e hne)
  openfiles := h'.openfiles.trans h.openfiles
  cwd := h'.cwd.trans h.cwd
  super := h'.super.trans h.super
  log := h'.log.trans h.log
  blocks L hL hle := by
    rw [List.length_append] at hL
    refine h'.blocks L ((slotsIn_subset ?_ ?_).trans hL)
      (h.blocks L ((slotsIn_subset le_rfl ?_).trans hL) hle)
    all_goals have := h.off_toNat hmax; omega

end FileWritten

/-! ## Writing -/

theorem vwp_readFile {Q : File → FsState Vol → Prop} (hQ : Q (a.file f) a) :
    vwp A pid (readFile f) Q a :=
  vwp_mem (o := .fileGet f) trivial hQ

theorem vwp_fileAdvance {n : BitVec 32} {Q : Unit → FsState Vol → Prop}
    (hQ : Q () (a.seek f ((a.file f).off + n))) : vwp A pid (fileAdvance f n) Q a :=
  vwp_mem (o := .fileAdvance f n) trivial hQ

/-- `file_read` and `file_write` advance the offset if there are bytes. -/
theorem vwp_advance {β : Type} {n : Nat} {k : Unit → Fs β} {Q : β → FsState Vol → Prop}
    (hQ : vwp A pid (k ()) Q (a.seek f ((a.file f).off + BitVec.ofNat 32 n))) :
    vwp A pid (if 0 < n then fileAdvance f (BitVec.ofNat 32 n) >>= k else k ()) Q a := by
  refine vwp_ite (fun _ => vwp_bind (vwp_fileAdvance hQ)) fun hn => ?_
  obtain rfl : n = 0 := by omega
  rwa [FsState.seek_zero] at hQ

/-- A turn of the loop of `file_write`: `src` is written in a transaction, and `k` is done with the
result. Reference: `file_write` (`kern/fs/file.c:154`). -/
def writeTurn {β : Type} (f : Nat) (src : List Byte) (k : Option Nat → Fs β) : Fs β := do
  beginTrans
  let file ← readFile f
  inodeLock file.ip
  let file ← readFile f
  let r ← inodeWrite file.ip src file.off
  match r with
  | some r =>
    if 0 < r then
      fileAdvance f (BitVec.ofNat 32 r)
  | none => pure ()
  inodeUnlock file.ip
  commitTrans
  k r

/-- The part of a turn up to `inode_lock`. -/
def writeLock (f : Nat) : Fs Unit := do
  beginTrans
  let file ← readFile f
  inodeLock file.ip

/-- The part of a turn from after `inode_lock`. -/
def writeLocked {β : Type} (f : Nat) (src : List Byte) (k : Option Nat → Fs β)
    (file : File) : Fs β := do
  let r ← inodeWrite file.ip src file.off
  match r with
  | some r =>
    if 0 < r then
      fileAdvance f (BitVec.ofNat 32 r)
  | none => pure ()
  inodeUnlock file.ip
  commitTrans
  k r

theorem writeTurn_eq {β : Type} {k : Option Nat → Fs β} : writeTurn f src k = (do
      writeLock f
      let file ← readFile f
      writeLocked f src k file) := rfl

/-- What `file_write` does after a turn, with its result. -/
def writeNext (f turns : Nat) (addr : List Byte) : Option Nat → Fs Bool
  | none => return false
  | some r => do
    if r ≠ min addr.length fileWriteMax then
      kernPanic .shortWrite
    fileWriteFrom f turns (addr.drop r)

theorem fileWriteFrom_succ {turns : Nat} {addr : List Byte} :
    fileWriteFrom f (turns + 1) addr =
      if addr.length = 0 then pure true
      else writeTurn f (addr.take (min addr.length fileWriteMax)) (writeNext f turns addr) := rfl

/-- The turn locks the inode. -/
theorem IdleFile.vwp_writeLock (h : IdleFile a D f ip i) {Q : Unit → FsState Vol → Prop}
    (hQ : Q () (a.begun.lockInode ip (D i))) : vwp A pid (writeLock f) Q a := by
  refine vwp_bind (vwp_beginTrans (fun hb => absurd (h.idle.symm.trans hb) nofun) fun _ => ?_)
  refine vwp_bind (vwp_readFile ?_)
  rw [show (a.begun.file f).ip = ip from h.entry]
  exact vwp_inodeLock_free h.consistent.toTracks.begun h.ref h.inum h.alloc h.unlocked
    h.empty h.held hQ

/-- The state after a turn, from that after `inode_write`. -/
def FsState.turned (b : FsState Vol) (f ip : Nat) (off : BitVec 32) : FsState Vol :=
  ((b.seek f off).setEntry ip { b.inode ip with busy := false }).committed

section
variable {b : FsState Vol} {off' : BitVec 32}

/-- The file stays open. -/
theorem IdleFile.turned (h : IdleFile a D f ip i) (hc : Consistent b D')
    (hframe : (a.begun.lockInode ip (D i)).Frame ip b)
    (halloc : Allocated (superOf b.bufs.data) D' i) (htype : (D' i).type = tFile) :
    IdleFile (b.turned f ip off') D' f ip i := by
  have hset : Consistent (b.setEntry ip { b.inode ip with busy := false }) D' :=
    hc.keepEntry rfl (fun hv => ⟨rfl, hv⟩) fun hr => hr
  obtain ⟨din, hentry⟩ := hframe.entry
  have hfile : (b.turned f ip off').file f = { a.file f with off := off' } := by
    simp only [FsState.turned, FsState.committed, FsState.setEntry, FsState.seek, update_self,
      hframe.file]
    rfl
  have hinode : (b.turned f ip off').inode ip =
      { a.inode ip with busy := false, valid := true, din } := by
    simp only [FsState.turned, FsState.committed, FsState.setEntry, update_self, hentry,
      FsState.lockInode, FsState.begun]
  refine ⟨⟨hset.toTracks.seek.committed, hset.full⟩, ?_, ?_, ?_, ?_, halloc, htype,
    hframe.held.trans h.held, ?_, rfl, rfl⟩
  · rw [hfile]
    exact h.isInode
  · rw [hfile]
    exact h.entry
  · rw [hinode]
    exact h.ref
  · rw [hinode]
    exact h.inum
  · rw [hinode]

/-- What was written is what `inode_write` wrote. -/
theorem IdleFile.written (h : IdleFile a D f ip i)
    (hw : Written A ip i (a.file f).off src (a.begun.lockInode ip (D i)) g b g') (hg : g.D = D)
    (hoff : (a.file f).off.toNat ≤ (D i).size.toNat)
    (hmax : (a.file f).off.toNat + src.length ≤ maxFile * bSize) :
    FileWritten f ip i src a D
      (b.turned f ip ((a.file f).off + BitVec.ofNat 32 src.length)) g'.D := by
  subst hg
  have hfull : Full (a.begun.lockInode ip (g.D i)).bufs.data g.D i := h.consistent.full i h.alloc
  obtain ⟨addrs, hd⟩ := hw.fields
  refine ⟨hw.contents_self h.alloc hfull hoff hmax, hw.size_toNat hmax, ⟨_, addrs, hd⟩, hw.other,
    fun j hne hj => hw.contents_other hne hj (h.consistent.full j hj), ?_, fun e hne => ?_,
    hw.frame.openfiles, hw.frame.cwd, hw.super, hw.frame.size, fun L hL =>
    hw.missing_le_spare h.alloc hmax hL⟩
  · simp only [FsState.turned, FsState.committed, FsState.setEntry, FsState.seek, hw.frame.file]
    rfl
  · simp only [FsState.turned, FsState.committed, FsState.setEntry, update_of_ne hne, FsState.seek,
      hw.frame.inode e hne, FsState.lockInode, FsState.begun]

end

section
variable (h : IdleFile a D f ip i) (hoff : (a.file f).off.toNat ≤ (D i).size.toNat)
  (hmax : (a.file f).off.toNat + src.length ≤ maxFile * bSize)
  (hspare : missing a.bufs.data D i (slotsIn (a.file f).off.toNat src.length) ≤ spare a.bufs.data)
include h hoff hmax hspare

/-- A turn writes its part. -/
theorem vwp_writeTurn {β : Type} {k : Option Nat → Fs β} {Q : β → FsState Vol → Prop}
    (hroom : A.Lax ∨ Standard a ∧ src.length ≤ fileWriteMax)
    (hk : ∀ a' D', IdleFile a' D' f ip i → FileWritten f ip i src a D a' D' →
      vwp A pid (k (some src.length)) Q a') :
    vwp A pid (writeTurn f src k) Q a := by
  rw [writeTurn_eq]
  refine vwp_bind (h.vwp_writeLock (vwp_bind (vwp_readFile ?_)))
  rw [writeLocked, show ((a.begun.lockInode ip (D i)).file f).ip = ip from h.entry]
  have hopens : (a.begun.lockInode ip (D i)).Opens ip i := FsState.opens_lockInode h.ref h.inum
  refine vwp_bind (vwp_inodeWrite_part (h.consistent.begun.lockInode h.inum) hopens
    h.alloc (h.type ▸ nofun) rfl h.empty h.held hoff hmax
    hspare (hroom.imp id fun ⟨hs, hl⟩ => ⟨⟨hs.size, hs.single⟩, hl⟩) fun b g g' hg hw => ?_)
  obtain ⟨din, hentry⟩ := hw.frame.entry
  have hbusy : (b.inode ip).busy = true := by
    rw [hentry, FsState.lockInode, FsState.setEntry_self]
  have href : 0 < (b.inode ip).ref := by
    rw [hentry, FsState.lockInode, FsState.setEntry_self]
    exact h.ref
  have hlog : A.panic .noBuffers ∨ b.log.n + 1 < nBuf := by
    refine hw.fit.budget.imp (fun hlax => hlax.1) fun hfits => ?_
    have hcard := Finset.card_le_card hfits.sectors
    rw [hfits.distinct.card_sectors] at hcard
    have := hfits.card
    rw [show nBuf = 10 from rfl]
    omega
  refine vwp_advance ?_
  refine vwp_bind (vwp_inodeUnlock hbusy href ?_)
  refine vwp_bind (vwp_commitTrans (hw.frame.held.trans h.held) hlog ?_)
  rw [hw.frame.file]
  refine hk _ _ (h.turned ?_ hw.frame ?_ ?_) (h.written hw hg hoff hmax)
  · subst hg
    exact hw.consistent (h.consistent.begun.lockInode h.inum)
  · subst hg
    exact hw.allocated_iff.2 h.alloc
  · rw [hw.type_eq i, hg, h.type]

/-- The loop of `file_write` writes all of it. -/
theorem vwp_fileWriteFrom {turns : Nat} {Q : Bool → FsState Vol → Prop} (hstd : A.Lax ∨ Standard a)
    (hturns : src.length ≤ turns)
    (hQ : ∀ a' D', IdleFile a' D' f ip i → FileWritten f ip i src a D a' D' → Q true a') :
    vwp A pid (fileWriteFrom f turns src) Q a := by
  induction turns generalizing src a D with
  | zero =>
    obtain rfl : src = [] := List.eq_nil_of_length_eq_zero (by omega)
    exact vwp_pure (hQ a D h (.nil hoff))
  | succ turns ih =>
    rw [fileWriteFrom_succ]
    refine vwp_ite (fun hnil => vwp_pure ?_) fun hne => ?_
    · obtain rfl : src = [] := List.eq_nil_of_length_eq_zero hnil
      exact hQ a D h (.nil hoff)
    -- The part that this turn writes, and the rest.
    obtain ⟨n1, hn1⟩ : ∃ n1, min src.length fileWriteMax = n1 := ⟨_, rfl⟩
    have hpos : 0 < n1 ∧ n1 ≤ src.length ∧ n1 ≤ fileWriteMax := by
      rw [show fileWriteMax = 1536 from rfl] at hn1 ⊢
      omega
    have htake : (src.take n1).length = n1 := by rw [List.length_take]; omega
    have hdrop : (src.drop n1).length = src.length - n1 := List.length_drop
    have hpart : slotsIn (a.file f).off.toNat (src.take n1).length ⊆
        slotsIn (a.file f).off.toNat src.length := slotsIn_subset le_rfl (by omega)
    rw [hn1]
    refine vwp_writeTurn h hoff (by omega) ((missing_mono hpart).trans hspare)
      (hstd.imp id fun hs => ⟨hs, by omega⟩) fun a' D' h' hw => ?_
    have hoff' := hw.off_toNat (by omega)
    refine vwp_ite (fun hlt => absurd (htake.trans hn1.symm) hlt) fun _ => ?_
    rw [htake]
    refine ih h' ?_ ?_ ?_ (hstd.imp id hw.standard) (by omega) fun a'' D'' h'' hw' => ?_
    · rw [hoff', hw.size]
      exact Nat.le_max_right _ _
    · omega
    · exact (missing_mono (slotsIn_subset (by omega) (by omega))).trans (hw.blocks _ hpart hspare)
    · have hall := hw.append hw' hoff (by omega)
      rw [List.take_append_drop] at hall
      exact hQ a'' D'' h'' hall

end

/-- `file_write` writes all of it. -/
theorem vwp_fileWrite (h : IdleFile a D f ip i) (hwritable : (a.file f).writable = true)
    (hoff : (a.file f).off.toNat ≤ (D i).size.toNat)
    (hmax : (a.file f).off.toNat + src.length ≤ maxFile * bSize)
    (hspare : missing a.bufs.data D i (slotsIn (a.file f).off.toNat src.length) ≤
      spare a.bufs.data) (hstd : A.Lax ∨ Standard a)
    (hQ : ∀ a' D', IdleFile a' D' f ip i → FileWritten f ip i src a D a' D' →
      Q (some src.length) a') :
    vwp A pid (fileWrite f src) Q a := by
  refine vwp_bind (vwp_readFile ?_)
  refine vwp_ite (fun hw => ?_) fun _ => vwp_ite (fun _ => ?_) fun ht => absurd h.isInode ht
  · rw [hwritable] at hw
    cases hw
  · refine vwp_bind (vwp_fileWriteFrom h hoff hmax hspare hstd le_rfl
      fun a' D' h' hw => vwp_pure ?_)
    exact hQ a' D' h' hw

/-! ## Reading -/

/-- The file stays open. -/
theorem IdleFile.read (h : IdleFile a D f ip i) {b : FsState Vol}
    (hb : b = (a.lockInode ip (D i)).seek f off) :
    IdleFile (b.setEntry ip { b.inode ip with busy := false }) D f ip i := by
  subst hb
  have hseek : Consistent ((a.lockInode ip (D i)).seek f off) D :=
    (h.consistent.lockInode h.inum).seek
  have hfile : ((a.lockInode ip (D i)).seek f off).file f = { a.file f with off } :=
    update_self _ _ _
  have hinode : ((a.lockInode ip (D i)).seek f off).inode ip =
      { a.inode ip with busy := true, valid := true, din := D i } := FsState.setEntry_self
  refine ⟨hseek.keepEntry rfl (fun hv => ⟨rfl, hv⟩) fun hr => hr, ?_, ?_, ?_, ?_, h.alloc,
    h.type, h.held, ?_, h.idle, h.empty⟩
  · exact (congrArg File.type hfile).trans h.isInode
  · exact (congrArg File.ip hfile).trans h.entry
  · rw [FsState.setEntry_self, hinode]
    exact h.ref
  · rw [FsState.setEntry_self, hinode]
    exact h.inum
  · rw [FsState.setEntry_self]

/-- `file_read` returns the bytes at the offset, up to the end of the file, and advances it. -/
theorem vwp_fileRead {n : BitVec 32} {Q : Option (List Byte) → FsState Vol → Prop}
    (h : IdleFile a D f ip i) (hreadable : (a.file f).readable = true)
    (hoff : (a.file f).off.toNat ≤ (D i).size.toNat)
    (hsum : (a.file f).off.toNat + n.toNat < 2 ^ 32)
    (hQ : ∀ a', IdleFile a' D f ip i → a'.bufs = a.bufs → a'.file = (a.seek f ((a.file f).off +
        BitVec.ofNat 32 (((contents a.bufs.data (D i)).drop (a.file f).off.toNat).take
          n.toNat).length)).file →
      Q (some (((contents a.bufs.data (D i)).drop (a.file f).off.toNat).take n.toNat)) a') :
    vwp A pid (fileRead f n) Q a := by
  refine vwp_bind (vwp_readFile ?_)
  refine vwp_ite (fun hr => ?_) fun _ => vwp_ite (fun _ => ?_) fun ht => absurd h.isInode ht
  · rw [hreadable] at hr
    cases hr
  rw [h.entry]
  refine vwp_bind (vwp_inodeLock_free h.consistent.toTracks h.ref h.inum h.alloc h.unlocked
    h.empty h.held ?_)
  refine vwp_bind (vwp_readFile ?_)
  rw [show ((a.lockInode ip (D i)).file f).ip = ip from h.entry]
  have hlocked : Consistent (a.lockInode ip (D i)) D := h.consistent.lockInode h.inum
  have hfit : Fit ⟨fun _ => True, True⟩ (a.lockInode ip (D i)) ⟨D, ∅, 0⟩ :=
    hlocked.fit (Nat.zero_le _) (.inl ⟨trivial, trivial⟩)
  have hreads : A.Reads (a.lockInode ip (D i)) := by
    refine .inr ?_
    rw [show (a.lockInode ip (D i)).log.n = 0 from h.empty,
      show (a.lockInode ip (D i)).bufs.held = ∅ from h.held]
    decide
  refine vwp_bind (vwp_inodeRead hfit (FsState.opens_lockInode h.ref h.inum) hreads
    h.held (h.type ▸ nofun) (fun hbad => ?_) (fun _ _ => ?_) (hlocked.full i h.alloc))
  · exact absurd hbad (not_or.2 ⟨Nat.not_lt.2 hoff, Nat.not_le.2 hsum⟩)
  rw [← take_drop_contents]
  refine vwp_advance ?_
  refine vwp_bind (vwp_inodeUnlock ?_ ?_ (vwp_pure ?_))
  · exact congrArg Inode.busy FsState.setEntry_self
  · exact (FsState.opens_lockInode h.ref h.inum).ref
  · exact hQ _ (h.read rfl) rfl rfl

/-- Successive calls of `file_read`, with their results. -/
def fileReads (f : Nat) : List (BitVec 32) → Fs (List (Option (List Byte)))
  | [] => return []
  | n :: ns => do
    let r ← fileRead f n
    let rs ← fileReads f ns
    return r :: rs

/-- The pieces of `c` from `o` on, of the given lengths as long as there is something left. -/
def pieces (c : List Byte) : (o : Nat) → List Nat → List (List Byte)
  | _, [] => []
  | o, n :: ns => (c.drop o).take n :: pieces c (o + ((c.drop o).take n).length) ns

/-- The pieces follow each other. -/
theorem flatten_pieces {o : Nat} {ns : List Nat} :
    (pieces c o ns).flatten = (c.drop o).take ns.sum := by
  induction ns generalizing o with
  | nil => rfl
  | cons n ns ih =>
    rw [pieces, List.flatten_cons, ih, List.sum_cons, List.take_add, ← List.drop_drop]
    congr 2
    rw [List.length_take]
    rcases Nat.le_total n (c.drop o).length with hle | hle
    · rw [Nat.min_eq_left hle]
    · rw [Nat.min_eq_right hle, List.drop_length, List.drop_eq_nil_of_le hle]

/-- Each of them is as long as it can be. -/
theorem length_pieces_getElem? {o : Nat} {ns : List Nat} (k : Nat) :
    (pieces c o ns)[k]?.map List.length =
      ns[k]?.map fun n => min n (c.length - (o + ((pieces c o ns).take k).flatten.length)) := by
  induction ns generalizing o k with
  | nil => rfl
  | cons n ns ih =>
    cases k with
    | zero => simp [pieces]
    | succ k =>
      rw [pieces, List.getElem?_cons_succ, List.getElem?_cons_succ, ih, List.take_succ_cons,
        List.flatten_cons, List.length_append, Nat.add_assoc]

/-- Reads one after the other return the pieces of the contents. -/
theorem vwp_fileReads {ns : List (BitVec 32)} {Q : List (Option (List Byte)) → FsState Vol → Prop}
    (h : IdleFile a D f ip i) (hreadable : (a.file f).readable = true)
    (hoff : (a.file f).off.toNat ≤ (D i).size.toNat) (hns : ∀ n ∈ ns, n.toNat < 2 ^ 31)
    (hQ : ∀ a', IdleFile a' D f ip i → a'.bufs = a.bufs →
      a'.file = (a.seek f ((a.file f).off + BitVec.ofNat 32 (pieces (contents a.bufs.data (D i))
        (a.file f).off.toNat (ns.map BitVec.toNat)).flatten.length)).file →
      Q ((pieces (contents a.bufs.data (D i)) (a.file f).off.toNat (ns.map BitVec.toNat)).map some)
      a') :
    vwp A pid (fileReads f ns) Q a := by
  induction ns generalizing a Q with
  | nil => exact vwp_pure (hQ a h rfl (congrArg FsState.file FsState.seek_zero).symm)
  | cons n ns ih =>
    have hmax : (D i).size.toNat ≤ 71680 := (h.consistent.full i h.alloc).1
    have hn : n.toNat < 2 ^ 31 := hns n List.mem_cons_self
    refine vwp_bind (vwp_fileRead h hreadable hoff (by omega) fun a' h' hbufs hfile => ?_)
    obtain ⟨p, hp⟩ : ∃ p, ((contents a.bufs.data (D i)).drop (a.file f).off.toNat).take
      n.toNat = p := ⟨_, rfl⟩
    rw [hp] at hfile ⊢
    have hlen : p.length ≤ (D i).size.toNat - (a.file f).off.toNat := by
      rw [← hp, List.length_take, List.length_drop, contents, List.length_map, List.length_range]
      exact Nat.min_le_right _ _
    have hentry : a'.file f = { a.file
        f with off := (a.file f).off + BitVec.ofNat 32 p.length } := by
      rw [hfile]
      exact update_self _ _ _
    have hoff' : (a'.file f).off.toNat = (a.file f).off.toNat + p.length := by
      rw [hentry]
      exact toNat_add_ofNat (by omega)
    refine vwp_bind (ih h' (by rw [hentry]; exact hreadable) (by omega)
      (fun m hm => hns m (List.mem_cons_of_mem _ hm)) fun a'' h'' hbufs' hfile' => vwp_pure ?_)
    have hcons : pieces (contents a.bufs.data (D i)) (a.file f).off.toNat
      ((n :: ns).map BitVec.toNat) =
        p :: pieces (contents a'.bufs.data (D i)) (a'.file f).off.toNat (ns.map BitVec.toNat) := by
      rw [List.map_cons, pieces, hp, hoff', hbufs]
    rw [hcons] at hQ
    refine hQ a'' h'' (hbufs'.trans hbufs) ?_
    simp only [hfile', FsState.seek, hentry, hfile, update_idem, List.flatten_cons,
      List.length_append, BitVec.ofNat_add, BitVec.add_assoc]

/-- **Chunked input and output is transparent.** `file_write` in a file with enough free blocks
returns the number of bytes, advances the offset by it and leaves the file as one `inode_write` in
one transaction, if the log had room for that. Successive calls of `file_read` return the contents
from the offset on, piece by piece, each as long as asked for until the end of the file. -/
theorem chunked_io_transparent {s : FsState BufCache} (hs : s.View a) (h : IdleFile a D f ip i)
    (hreadable : (a.file f).readable = true) (hwritable : (a.file f).writable = true)
    (hstd : Standard a) (hoff : (a.file f).off.toNat ≤ (D i).size.toNat) :
    (∀ src : List Byte, (a.file f).off.toNat + src.length ≤ maxFile * bSize →
      missing a.bufs.data D i (slotsIn (a.file f).off.toNat src.length) ≤ spare a.bufs.data →
      ∃ s' a' D', (fsHandler BufCache.layer pid).run (fileWrite f src) s =
        .ok (some src.length) s' ∧
        s'.View a' ∧ IdleFile a' D' f ip i ∧ FileWritten f ip i src a D a' D' ∧
        ((fsHandler BufCache.layer pid).run (writeTurn f src pure) s).Sat
          (fun r t => r = some src.length ∧ ∃ b E, t.View b ∧ IdleFile b E f ip i ∧
            FileWritten f ip i src a D b E ∧
            contents b.bufs.data (E i) = contents a'.bufs.data (D' i) ∧ (E i).size = (D' i).size)
          (fun e _ => e = .tooBig ∨ e = .noBuffers) (fun _ => False)) ∧
    ∀ ns : List (BitVec 32), (∀ n ∈ ns, n.toNat < 2 ^ 31) →
      ∃ (s' : FsState BufCache) (a' : FsState Vol) (ps : List (List Byte)),
        (fsHandler BufCache.layer pid).run (fileReads f ns) s = .ok (ps.map some) s' ∧
        s'.View a' ∧ IdleFile a' D f ip i ∧ a'.bufs = a.bufs ∧
        a'.file = (a.seek f ((a.file f).off + BitVec.ofNat 32 ps.flatten.length)).file ∧
        ps.flatten = ((contents a.bufs.data (D i)).drop (a.file f).off.toNat).take
        (ns.map BitVec.toNat).sum ∧ ∀ k : Nat, ps[k]?.map List.length = ns[k]?.map fun n =>
          min n.toNat ((D i).size.toNat -
            ((a.file f).off.toNat + (ps.take k).flatten.length)) := by
  constructor
  · intro src hmax hspare
    have hwp : vwp ⟨fun _ => False, False⟩ pid (fileWrite f src) (fun r a' => r = some src.length ∧
        ∃ D', IdleFile a' D' f ip i ∧ FileWritten f ip i src a D a' D') a :=
      vwp_fileWrite h hwritable hoff hmax hspare (.inr hstd) fun a' D' h' hw => ⟨rfl, D', h', hw⟩
    obtain ⟨_, s', hrun, a', hs', rfl, D', h', hw⟩ := (hwp.run hs nofun).returns
    refine ⟨s', a', D', hrun, hs', h', hw, ?_⟩
    have hone : vwp ⟨fun e => e = .tooBig ∨ e = .noBuffers, False⟩
      pid (writeTurn f src pure) (fun r b =>
        r = some src.length ∧ ∃ E, IdleFile b E f ip i ∧ FileWritten f ip i src a D b E) a :=
      vwp_writeTurn h hoff hmax hspare (.inl ⟨.inr rfl, .inl rfl⟩) fun b E h' hw =>
        vwp_pure ⟨rfl, E, h', hw⟩
    refine (hone.run hs (by rintro (he | he) <;> cases he)).mono ?_ (fun _ _ he => he)
      fun _ hb => hb
    rintro r t ⟨b, hb, rfl, E, hE, hwE⟩
    exact ⟨rfl, b, E, hb, hE, hwE, hwE.contents.trans hw.contents.symm,
      BitVec.eq_of_toNat_eq (hwE.size.trans hw.size.symm)⟩
  · intro ns hns
    have hwp : vwp ⟨fun _ => False, False⟩ pid (fileReads f ns)
      (fun r a' => ∃ ps : List (List Byte),
        r = ps.map some ∧
        IdleFile a' D f ip i ∧ a'.bufs = a.bufs ∧
        a'.file = (a.seek f ((a.file f).off + BitVec.ofNat 32 ps.flatten.length)).file ∧
        ps = pieces (contents a.bufs.data (D i)) (a.file f).off.toNat (ns.map BitVec.toNat)) a :=
      vwp_fileReads h hreadable hoff hns fun a' h' hbufs hfile => ⟨_, rfl, h', hbufs, hfile, rfl⟩
    obtain ⟨_, s', hrun, a', hs', ps, rfl, h', hbufs, hfile, hps⟩ := (hwp.run hs nofun).returns
    refine ⟨s', a', ps, hrun, hs', h', hbufs, hfile, by rw [hps, flatten_pieces], fun k => ?_⟩
    rw [hps, length_pieces_getElem?, List.getElem?_map, Option.map_map, contents, List.length_map,
      List.length_range]
    rfl

end

/-! ## An open file -/

/-- The image with an empty file `f`. -/
def fileImage : Disk := (mkfs [([102], [])]).getD fun _ => 0

theorem rootOnly_fileImage : RootOnly fileImage where
  super := by decide +kernel
  header := by decide +kernel
  root := by decide +kernel
  ptr := by decide +kernel
  empty := by decide +kernel
  used := by decide +kernel

theorem fileImage_file : (dinodeAt fileImage 2).type = tFile ∧
    (dinodeAt fileImage 2).size = 0 := by
  decide +kernel

theorem spare_fileImage : nSlots ≤ spare fileImage := by decide +kernel

/-- After the boot, the file with the inode 2 is opened. -/
def opened (d : Disk) : FsState Vol :=
  { (mounted d).setEntry 1 { (mounted d).inode 1 with inum := 2, ref := 1 } with
    file := update (mounted d).file 0
      { type := .inode, ref := 1, readable := true, writable := true, ip := 1, off := 0,
        holdingFlock := 0 } }

theorem opened_data {d : Disk} : (opened d).bufs.data = d := rfl

theorem opened_view {d : Disk} (h : d.Consistent) : ∃ s : FsState BufCache, s.View (opened d) := by
  obtain ⟨t, ⟨hc, hrep⟩, ht, hshows⟩ := bootFrom_view h.log h.header
  refine ⟨(opened d).withBufs (FsState.bootFrom d).bufs, (opened d).withBufs t.bufs,
    ⟨rfl, hrep⟩, rfl, hshows⟩

theorem idleFile_opened {d : Disk} (h : d.Consistent) (hi : Allocated (superOf d) (dinodeAt d) 2)
    (htype : (dinodeAt d 2).type = tFile) : IdleFile (opened d) (dinodeAt d) 0 1 2 := by
  have hc : Consistent ((mounted d).setEntry 1 { (mounted d).inode 1 with inum := 2, ref := 1 })
      (dinodeAt d) := by
    refine h.mounted.setEntry (fun _ hv => ?_) fun e _ _ he => ?_
    · exact absurd (mounted_valid.symm.trans hv) nofun
    · rw [mounted_ref he]
      exact fun hinum => absurd (show rootIno = 2 from hinum) (by decide)
  have hcons : Consistent (opened d) (dinodeAt d) :=
    ⟨⟨hc.geo, hc.owned, hc.disk, fun e j he => hc.cached e j ⟨he.ref, he.valid, he.inum⟩,
      hc.unique⟩, hc.full⟩
  exact ⟨hcons, rfl, rfl, Int.one_pos, rfl, hi, htype, rfl, rfl, rfl, rfl⟩

theorem idleFile_fileImage : IdleFile (opened fileImage) (dinodeAt fileImage) 0 1 2 := by
  refine idleFile_opened rootOnly_fileImage.consistent ?_ fileImage_file.1
  rw [Allocated, rootOnly_fileImage.super, fileImage_file.1]
  decide

theorem standard_fileImage : Standard (opened fileImage) := by
  have hkey : ∀ d : Disk, superOf d = ⟨1024, 985, 200, 10⟩ → Standard (opened d) := by
    intro d hd
    refine ⟨?_, ?_⟩
    · rw [show (opened d).log.size = (superOf d).nlog.toNat from rfl, hd]
      decide
    · rw [show superOf (opened d).bufs.data = superOf d from rfl, hd]
      decide
  exact hkey _ rootOnly_fileImage.super

/-- 2000 bytes are written to the empty file, in two transactions. From the start of the file they
are read again, by a call that gets all it asks for and one that gets the rest. -/
theorem chunked_io_transparent_fileImage :
    ∃ s s' a' D', s.View (opened fileImage) ∧
      (fsHandler BufCache.layer 0).run (fileWrite 0 (List.replicate 2000 7)) s =
        .ok (some 2000) s' ∧ s'.View a' ∧
      FileWritten 0 1 2 (List.replicate 2000 7) (opened fileImage) (dinodeAt fileImage) a' D' ∧
      ∃ t t', ∃ ps : List (List Byte), t.View (a'.seek 0 0) ∧
        (fsHandler BufCache.layer 0).run (fileReads 0 [1500, 1000]) t = .ok (ps.map some) t' ∧
        ps.flatten = List.replicate 2000 7 ∧ ps[0]?.map List.length = some 1500 ∧
        ps[1]?.map List.length = some 500 := by
  obtain ⟨s, hs⟩ := opened_view rootOnly_fileImage.consistent
  obtain ⟨hwrite, -⟩ := @chunked_io_transparent 0 _ _ _ _ _ _ hs idleFile_fileImage rfl rfl
    standard_fileImage (Nat.zero_le _)
  have hoff : ((opened fileImage).file 0).off.toNat + (List.replicate 2000 (7 : Byte)).length ≤
      maxFile * bSize := by
    rw [List.length_replicate]
    decide
  have hspare : nSlots ≤ spare (opened fileImage).bufs.data := by
    rw [opened_data]
    exact spare_fileImage
  obtain ⟨s', a', D', hrun, hs', h', hw, -⟩ :=
    hwrite _ hoff ((missing_le_nSlots hoff).trans hspare)
  obtain ⟨t, ht⟩ := hs'.seek 0 0
  have hfile : (a'.seek 0 0).file 0 = { (opened fileImage).file 0 with off := 0 } := by
    simp only [FsState.seek, hw.file, update_self]
  have hstd : Standard a' := hw.standard standard_fileImage
  -- the file was empty, and holds the 2000 bytes
  have hempty : contents (opened fileImage).bufs.data (dinodeAt fileImage 2) = [] := by
    rw [contents, fileImage_file.2]
    rfl
  have hcontents : contents a'.bufs.data (D' 2) = List.replicate 2000 7 := by
    rw [hw.contents, hempty, spliceAt, List.take_nil, List.nil_append, List.drop_nil,
      List.append_nil]
  have hsize : (D' 2).size.toNat = 2000 := by
    rw [← List.length_replicate (n := 2000) (a := (7 : Byte)), ← hcontents, contents,
      List.length_map, List.length_range]
  have hstart : ((a'.seek 0 0).file 0).off.toNat = 0 := by
    rw [hfile]
    rfl
  obtain ⟨-, hread⟩ :=
    @chunked_io_transparent 0 _ _ _ _ _ _ ht h'.seek (by rw [hfile]; rfl) (by rw [hfile]; rfl)
      ⟨hstd.size, hstd.single⟩ (hstart.trans_le (Nat.zero_le _))
  obtain ⟨t', b, ps, hreads, -, -, -, -, hflat, hlen⟩ := hread [1500, 1000] (by simp)
  rw [List.length_replicate] at hrun
  have hfirst : ps[0]?.map List.length = some 1500 := by
    rw [hlen 0, hstart, hsize]
    rfl
  refine ⟨s, s', a', D', hs, hrun, hs', hw, t, t', ps, ht, hreads, ?_, hfirst, ?_⟩
  · rw [hflat, hstart, List.drop_zero, show (a'.seek 0 0).bufs = a'.bufs from rfl, hcontents,
      List.take_of_length_le (by rw [List.length_replicate]; decide)]
  · rw [hlen 1, hstart, hsize]
    cases ps with
    | nil => cases hfirst
    | cons p ps =>
      have hp : p.length = 1500 := Option.some.inj hfirst
      rw [List.take_succ_cons, List.take_zero, List.flatten_singleton, hp]
      rfl

end MCertikos
