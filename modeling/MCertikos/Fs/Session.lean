import MCertikos.Fs.FileIo
import MCertikos.Fs.Nodes
import MCertikos.Fs.Sysfile

/-!
# Sessions

What a thread does to the file system between two points of rest, in terms of nodes. A `Session`
from the state `a` has reached the state `b`. It says which nodes the thread sees, which references
to inodes it has taken, and which of them it has locked. It also says what the thread may still do
to the disk, its budget. The sectors and the blocks in the budget are at most seven, so that the
transaction fits into the log, and there are free blocks for those that are not allocated yet.
Under this condition no operation stops and none waits, and there is a rule for each of them that
says what it does to the nodes.
-/

namespace MCertikos

open Program Ownership Function

/-- Neither panics nor waiting are accepted. -/
def Allow.strict : Allow := ⟨fun _ => False, False⟩

/-- What a thread may do to the disk. -/
structure Budget where
  /-- The sectors that it may log, apart from blocks of inodes. -/
  sectors : Finset Nat
  /-- The blocks that it may log or allocate, as inodes and slots. -/
  slots : Finset (Nat × Nat)
  /-- The number of free blocks that it does not use. -/
  reserve : Nat
  /-- Is it in a transaction? -/
  trans : Bool

/-- The entry `ip` of the inode cache is in use for the inode `i`. -/
structure FsState.Refers {B : Type} (b : FsState B) (ip i : Nat) : Prop where
  ref : 0 < (b.inode ip).ref
  inum : (b.inode ip).inum = i

/-- A thread has come from `a` to `b`, and has the references `xs` to inodes, which are pairs of an
entry of the inode cache and the number of an inode, and the locks of the entries in `L`. -/
structure SessionAt (a b : FsState Vol) (g : Ghost) (B : Budget) (xs : List (Nat × Nat))
    (L : Finset Nat) : Prop where
  nonneg : ∀ e, 0 ≤ (a.inode e).ref
  handles : Handles a b (xs.map Prod.fst) L
  names : ∀ x ∈ xs, (b.inode x.1).inum = x.2
  locked : ∀ e ∈ L, 0 < (b.inode e).ref ∧ (b.inode e).valid = true
  intact : Intact b g.D
  fits : g.Fits b
  sectors : B.sectors ⊆ g.U
  slots : ∀ s ∈ B.slots, ∀ x, owner b.bufs.data g.D s = some x → x ∈ g.U
  missing : (B.slots.filter fun s => owner b.bufs.data g.D s = none).card ≤ g.m
  reserve : B.reserve + g.m ≤ spare b.bufs.data
  trans : b.log.busy = B.trans
  idle : B.trans = false → b.log.n = 0
  held : b.bufs.held = ∅
  super : superOf b.bufs.data = superOf a.bufs.data

/-- It sees the nodes `N`. -/
def Session (a b : FsState Vol) (N : Nat → Option Node) (B : Budget) (xs : List (Nat × Nat))
    (L : Finset Nat) :
    Prop := ∃ g, SessionAt a b g B xs L ∧ nodesOf b.bufs.data g.D = N

/-- The number of slots that are not for blocks of the contents. -/
def lacking (N : Nat → Option Node) (W : Finset (Nat × Nat)) : Nat :=
  (W.filter fun s => ∀ n ∈ N s.1, s.2 ∉ slotsIn 0 n.bytes.length).card

section
variable {A : Allow} {pid ip dp i j k : Nat} {a b b' : FsState Vol} {g : Ghost}
  {N : Nat → Option Node} {B : Budget} {xs xs' : List (Nat × Nat)} {L L' : Finset Nat} {n : Node}
  {x : Inode} {name : List Byte}

theorem Handles.perm {xs xs' : List Nat} (h : Handles a b xs L) (hp : xs.Perm xs') :
    Handles a b xs' L :=
  ⟨h.entries, h.file, h.openfiles, h.cwd, fun e => (h.ref e).trans (by rw [hp.count_eq]), h.inum,
    h.valid, h.busy⟩

/-- The number of free entries of the inode cache. -/
def freeEntries (a : FsState Vol) : Nat :=
  ((Finset.range nInode).filter fun e => (a.inode e).ref = 0).card

/-- There is a free entry, unless there are as many references. -/
theorem Handles.exists_free_of_lt {xs : List Nat} (h : Handles a b xs L)
    (hlt : xs.length < freeEntries a) :
    ∃ e < nInode, (b.inode e).ref = 0 := by
  obtain ⟨e, he, hnot⟩ :=
    Finset.exists_mem_notMem_of_card_lt_card ((List.toFinset_card_le xs).trans_lt hlt)
  obtain ⟨hlt, hzero⟩ := Finset.mem_filter.1 he
  refine ⟨e, Finset.mem_range.1 hlt, ?_⟩
  rw [h.ref, hzero, List.count_eq_zero_of_not_mem fun hin => hnot (List.mem_toFinset.2 hin)]
  rfl

namespace SessionAt

section
variable (h : SessionAt a b g B xs L)
include h

theorem fit : Fit .strict b g := by
  have := h.reserve
  exact h.intact.consistent.fit (by omega) (.inr h.fits)

theorem log_n_le : b.log.n ≤ 7 := by
  have hle := Finset.card_le_card h.fits.sectors
  rw [h.fits.distinct.card_sectors] at hle
  have := h.fits.card
  omega

theorem reads : A.Reads b := by
  have := h.log_n_le
  refine .inr ?_
  rw [h.held, Finset.card_empty, nBuf]
  omega

theorem refers (hx : (ip, i) ∈ xs) : b.Refers ip i :=
  ⟨h.handles.ref_pos (h.nonneg ip) (List.mem_map_of_mem hx), h.names _ hx⟩

theorem opens (hip : b.Refers ip i) (hL : ip ∈ L) : b.Opens ip i :=
  ⟨hip.ref, (h.locked ip hL).2, hip.inum⟩

/-- An entry of the inode cache is changed. -/
theorem setEntry (hh : Handles a (b.setEntry ip x) (xs'.map Prod.fst) L')
    (hi : Intact (b.setEntry ip x) g.D)
    (hnames : ∀ y ∈ xs', ((b.setEntry ip x).inode y.1).inum = y.2)
    (hlocked : ∀ e ∈ L', 0 < ((b.setEntry ip x).inode e).ref ∧
      ((b.setEntry ip x).inode e).valid = true) :
    SessionAt a (b.setEntry ip x) g B xs' L' :=
  ⟨h.nonneg, hh, hnames, hlocked, hi, ⟨h.fits.1, h.fits.2, h.fits.3, h.fits.4, h.fits.5, h.fits.6⟩,
    h.sectors, h.slots, h.missing, h.reserve, h.trans, h.idle, h.held, h.super⟩

/-- An entry stays for the same inode. -/
theorem names_setEntry (hinum : x.inum = (b.inode ip).inum) {y : Nat × Nat} (hy : y ∈ xs) :
    ((b.setEntry ip x).inode y.1).inum = y.2 := by
  rw [← h.names y hy]
  rcases eq_or_ne y.1 ip with heq | hne
  · rw [heq, FsState.setEntry_self, hinum]
  · rw [FsState.setEntry_of_ne hne]

theorem lockInode (hip : b.Refers ip i) (hi : Allocated (superOf b.bufs.data) g.D i) :
    SessionAt a (b.lockInode ip (g.D i)) g B xs (insert ip L) := by
  refine h.setEntry (h.handles.lockInode ip _) (h.intact.lock hip.inum hi.1 hi.2.1 fun _ => hi.2.2)
    (fun _ => h.names_setEntry (by rfl)) fun e he => ?_
  rcases eq_or_ne e ip with rfl | hne
  · rw [FsState.setEntry_self]
    exact ⟨hip.ref, rfl⟩
  · rw [FsState.setEntry_of_ne hne]
    exact h.locked e (Finset.mem_of_mem_insert_of_ne he hne)

theorem unlock (ip : Nat) :
    SessionAt a (b.setEntry ip { b.inode ip with busy := false }) g B xs (L.erase ip) := by
  refine h.setEntry (h.handles.unlock ip) h.intact.unlock (fun _ => h.names_setEntry (by rfl))
    fun e he => ?_
  obtain ⟨hne, he⟩ := Finset.mem_erase.1 he
  rw [FsState.setEntry_of_ne hne]
  exact h.locked e he

theorem gets (hg : Gets b i ip x) : SessionAt a (b.setEntry ip x) g B ((ip, i) :: xs) L := by
  have hold : ∀ {e}, 0 < (b.inode e).ref → ((b.setEntry ip x).inode e).inum = (b.inode e).inum ∧
      0 < ((b.setEntry ip x).inode e).ref ∧ ((b.setEntry ip x).inode e).valid =
      (b.inode e).valid := by
    intro e he
    rcases eq_or_ne e ip with rfl | hne
    · rw [FsState.setEntry_self, (hg.old he).1]
      exact ⟨rfl, by dsimp only; omega, rfl⟩
    · rw [FsState.setEntry_of_ne hne]
      exact ⟨rfl, he, rfl⟩
  refine h.setEntry (h.handles.gets hg fun e he => (h.locked e he).1) (h.intact.gets hg)
    (fun y hy => ?_) fun e he => ?_
  · rcases List.mem_cons.1 hy with rfl | hy
    · rw [FsState.setEntry_self, hg.inum]
    · rw [(hold (h.refers hy).ref).1, h.names y hy]
  · obtain ⟨hpos, hvalid⟩ := h.locked e he
    rw [(hold hpos).2.2]
    exact ⟨(hold hpos).2.1, hvalid⟩

end

theorem perm_erase (hx : (ip, i) ∈ xs) :
    ((xs.map Prod.fst).erase ip).Perm ((xs.erase (ip, i)).map Prod.fst) :=
  (((List.perm_cons_erase (List.mem_map_of_mem (f := Prod.fst) hx)).symm.trans
    ((List.perm_cons_erase hx).map Prod.fst)).cons_inv)

theorem put (h : SessionAt a b g B xs L) (hx : (ip, i) ∈ xs) (hL : ip ∈ L → 1 < (b.inode ip).ref) :
    SessionAt a (b.setEntry ip { b.inode ip with ref := (b.inode ip).ref - 1 }) g
    B (xs.erase (ip, i)) L := by
  have hpos := (h.refers hx).ref
  refine h.setEntry ((h.handles.put hpos (List.mem_map_of_mem hx)).perm (perm_erase hx))
    (h.intact.drop hpos) (fun _ hy => h.names_setEntry (by rfl) (List.mem_of_mem_erase hy))
    fun e he => ?_
  rcases eq_or_ne e ip with rfl | hne
  · rw [FsState.setEntry_self]
    exact ⟨by have := hL he; dsimp only; omega, (h.locked e he).2⟩
  · rw [FsState.setEntry_of_ne hne]
    exact h.locked e he

theorem lists (h : SessionAt a b g B xs L) (hip : b.Refers dp i) (hL : dp ∈ L)
    (hi : Allocated (superOf b.bufs.data) g.D i) (htype : (g.D i).type = tDir)
    (hw : (nodeOf b.bufs.data (g.D i)).Whole) : Lists .strict b g dp i := by
  have hfull := h.intact.consistent.full i hi
  exact ⟨h.opens hip hL, h.reads, h.held, htype, hfull, (nodeOf_whole hfull.1).1 hw⟩

/-- An inode has been changed. -/
theorem of_frame {g' : Ghost} (h : SessionAt a b g B xs L) (hf : b.Frame ip b')
    (htrans : B.trans = true) (hi : Intact b' g'.D) (hfits : g'.Fits b') (hsub : g.U ⊆ g'.U)
    (hslots : ∀ s ∈ B.slots, ∀ x, owner b'.bufs.data g'.D s = some x → x ∈ g'.U)
    (hmissing : (B.slots.filter fun s => owner b'.bufs.data g'.D s = none).card ≤ g'.m)
    (hreserve : B.reserve + g'.m ≤ spare b'.bufs.data)
    (hsuper : superOf b'.bufs.data = superOf b.bufs.data) :
    SessionAt a b' g' B xs L where
  nonneg := h.nonneg
  handles := h.handles.frame hf
  names x hx := (hf.same x.1).2.2.trans (h.names x hx)
  locked e he := by
    rw [(hf.same e).1, (hf.same e).2.1]
    exact h.locked e he
  intact := hi
  fits := hfits
  sectors := h.sectors.trans hsub
  slots := hslots
  missing := hmissing
  reserve := hreserve
  trans := hf.busy.trans h.trans
  idle hf := absurd (htrans.symm.trans hf) nofun
  held := hf.held.trans h.held
  super := hsuper.trans h.super

theorem not_lax : ¬ Allow.strict.Lax := fun h => h.1

section
variable (h : SessionAt a b g B xs L)
include h

/-- The inode is changed in memory and on disk. -/
theorem setInode {din : Dinode} (hop : b.Opens ip i) (htrans : B.trans = true)
    (hU : iblock i ∈ B.sectors) (haddrs : din.addrs = (g.D i).addrs)
    (htype : din.type = (g.D i).type) (hsize : din.size = (g.D i).size) :
    SessionAt a (b.setInode ip i din) { g with D := update g.D i din } B xs L := by
  have hi := (h.intact.live ip i hop).2.1
  have hown : owner (b.setInode ip i din).bufs.data (update g.D i din) = owner b.bufs.data g.D :=
    owner_setInode h.intact.consistent.owned hi haddrs htype
  have hspare : spare (b.setInode ip i din).bufs.data = spare b.bufs.data :=
    spare_congr superOf_putInode fun x hx _ => Disk.putInode_of_ge hi hx
  refine h.of_frame FsState.frame_setInode htrans (h.intact.setInode hop haddrs htype hsize)
    ((h.fit.setInode hop hi haddrs htype (h.sectors hU)).budget.resolve_left not_lax)
    subset_rfl ?_ ?_ ?_ superOf_putInode
  · rw [hown]
    exact h.slots
  · rw [hown]
    exact h.missing
  · rw [hspare]
    exact h.reserve

/-- A part of an inode is written. -/
theorem written {off : BitVec 32} {src : List Byte} {g' : Ghost}
    (hi : Allocated (superOf b.bufs.data) g.D i) (htrans : B.trans = true)
    (hmax : off.toNat + src.length ≤ maxFile * bSize)
    (hW : (slotsIn off.toNat src.length).image (Prod.mk i) ⊆ B.slots)
    (hw : Written .strict ip i off src b g b' g') :
    SessionAt a b' g' B xs L := by
  have hmissing := hw.card_missing_add_le hi hmax hW
  have hreserve := h.reserve
  have hspare := hw.spare
  have hle := hw.le
  have := h.missing
  refine h.of_frame hw.frame htrans (h.intact.written hw)
    (hw.fit.budget.resolve_left not_lax) hw.sub (fun s hs x hx => ?_) (by omega)
    (by omega) hw.super
  cases hold : owner b.bufs.data g.D s with
  | none => exact (hw.new s x hold hx).2.2
  | some y =>
    obtain rfl : y = x := Option.some.inj ((hw.kept s y hold).symm.trans hx)
    exact hw.sub (h.slots s hs y hold)

/-- An entry of a directory is written. -/
theorem writtenEntry {g' : Ghost} {de : Dirent} (hn : nodesOf b.bufs.data g.D i = some n)
    (hw : n.Whole) (hk : k ≤ n.count) (hde : de.name.length = dirSiz)
    (hmax : Dirent.size * k + Dirent.size ≤ maxFile * bSize) (htrans : B.trans = true)
    (hW : (slotsOf (Dirent.size * k / bSize)).image (Prod.mk i) ⊆ B.slots)
    (hwr : Written .strict dp i (BitVec.ofNat 32 (Dirent.size * k)) de.toBytes b g b' g') :
    Session a b' (update (nodesOf b.bufs.data g.D) i (some (n.setEntry k de))) B xs L := by
  have hlen := Dirent.length_toBytes hde
  have hlt : maxFile * bSize < 2 ^ 32 := by decide
  have hoff : (BitVec.ofNat 32 (Dirent.size * k)).toNat = Dirent.size * k :=
    toNat_ofNat_of_lt (by omega)
  refine ⟨g', h.written (nodesOf_eq_some.1 hn).1 htrans (by rwa [hoff, hlen]) ?_ hwr, ?_⟩
  · rwa [hoff, hlen, slotsIn_entry]
  · rw [hwr.nodes h.intact.consistent hn (by rw [hoff]; exact Node.setEntry_off hw hk)
      (by rwa [hoff, hlen]), hoff, Node.setEntry]

/-- The blocks that are missing are not among those of the contents. -/
theorem card_missing_le (W : Finset (Nat × Nat)) :
    (W.filter fun s => owner b.bufs.data g.D s = none).card ≤
    lacking (nodesOf b.bufs.data g.D) W := by
  refine Finset.card_le_card fun s hs => ?_
  obtain ⟨hsW, hnone⟩ := Finset.mem_filter.1 hs
  refine Finset.mem_filter.2 ⟨hsW, fun n hn hin => ?_⟩
  obtain ⟨hi, rfl⟩ := nodesOf_eq_some.1 hn
  have hfull := h.intact.consistent.full s.1 hi
  rw [nodeOf_length] at hin
  have hzero : MCertikos.missing b.bufs.data g.D s.1 (slotsIn 0 (g.D s.1).size.toNat) = 0 :=
    missing_slotsIn hi (by rw [Nat.zero_add]; exact hfull.1) fun o _ ho => hfull.2 o (by omega)
  rw [MCertikos.missing, Finset.card_eq_zero, Finset.filter_eq_empty_iff] at hzero
  exact hzero hin hnone

/-- The thread takes another budget. -/
theorem regrow {B' : Budget} (hsec : b.log.sectors ⊆ B'.sectors)
    (hbitmap : (superOf a.bufs.data).bitmapStart ∈ B'.sectors)
    (hcard : B'.sectors.card + B'.slots.card ≤ 7)
    (hneed : B'.reserve + lacking (nodesOf b.bufs.data g.D) B'.slots ≤ B.reserve)
    (htrans : B'.trans = B.trans) :
    ∃ U m, SessionAt a b ⟨g.D, U, m⟩ B' xs L := by
  have hmissing := h.card_missing_le B'.slots
  have hreserve := h.reserve
  have hsum := Finset.card_filter_add_card_filter_not (s := B'.slots)
    (p := fun s => owner b.bufs.data g.D s = none)
  let blocks : Finset Nat :=
    (B'.slots.filter fun s => ¬ owner b.bufs.data g.D s = none).image fun s =>
      (owner b.bufs.data g.D s).getD 0
  have hunion := Finset.card_union_le B'.sectors blocks
  have himage : blocks.card ≤ _ := Finset.card_image_le
  refine ⟨B'.sectors ∪ blocks, (B'.slots.filter fun s => owner b.bufs.data g.D s = none).card,
    h.nonneg, h.handles, h.names, h.locked, h.intact,
    ⟨h.fits.distinct, hsec.trans Finset.subset_union_left, by dsimp only; omega,
      h.fits.size, h.fits.single, ?_⟩, Finset.subset_union_left, fun s hs x hx => ?_, le_rfl, by
      dsimp only; omega, h.trans.trans htrans.symm,
    fun ht => h.idle (htrans.symm.trans ht), h.held, h.super⟩
  · rw [h.super]
    exact Finset.mem_union_left _ hbitmap
  · refine Finset.mem_union_right _ (Finset.mem_image.2 ⟨s, Finset.mem_filter.2 ⟨hs, ?_⟩, ?_⟩)
    · rw [hx]
      exact nofun
    · rw [hx, Option.getD_some]

/-- An inode is allocated, as the first thing in a transaction. -/
theorem alloc {type : BitVec 16} (htrans : B.trans = true) (hempty : b.log.n = 0)
    (hi : i < (superOf b.bufs.data).ninodes.toNat) (h0 : (g.D i).type = 0) :
    ∃ g', g'.D = update g.D i (.fresh type) ∧ SessionAt a (b.putInode i (.fresh type)) g'
      ⟨{(superOf a.bufs.data).bitmapStart, iblock i}, ∅, B.reserve, true⟩ xs L := by
  have hsec : b.log.sectors = ∅ := by
    rw [Log.sectors, hempty, Finset.range_zero, Finset.image_empty]
  have hcard := Finset.card_le_two (a := (superOf a.bufs.data).bitmapStart) (b := iblock i)
  have hspare : spare (b.putInode i (.fresh type)).bufs.data = spare b.bufs.data :=
    spare_congr superOf_putInode fun x hx _ => Disk.putInode_of_ge hi hx
  obtain ⟨U, m, h'⟩ : ∃ U m, SessionAt a b ⟨g.D, U, m⟩
      ⟨{(superOf a.bufs.data).bitmapStart, iblock i}, ∅, B.reserve, true⟩ xs L :=
    h.regrow (hsec ▸ Finset.empty_subset _) (Finset.mem_insert_self _ _) (hcard.trans (by decide))
      le_rfl htrans.symm
  have hfits : Ghost.Fits ⟨update g.D i (.fresh type), U, m⟩ b :=
    ⟨h'.fits.1, h'.fits.2, h'.fits.3, h'.fits.4, h'.fits.5, h'.fits.6⟩
  have hU : iblock i ∈ U := h'.sectors (Finset.mem_insert_of_mem (Finset.mem_singleton_self _))
  have hframe : b.Frame 0 (b.putInode i (.fresh type)) := .store
  exact ⟨⟨update g.D i (.fresh type), U, m⟩, rfl, h'.of_frame hframe rfl (h.intact.alloc hi h0)
    (hfits.store hU superOf_putInode) subset_rfl (by simp) (Nat.zero_le _) (hspare ▸ h'.reserve)
    superOf_putInode⟩

/-- An inode is freed with the last reference to it. -/
theorem reclaimed {D' : Nat → Dinode} (hx : (ip, i) ∈ xs) (hL : ip ∉ L) (hlast : b.inode.Last ip)
    (htrans : B.trans = true) (hslots : ∀ s ∈ B.slots, s.1 ≠ i)
    (hr : Reclaimed .strict ip i b g b' D') :
    SessionAt a b' { g with D := D' } B (xs.erase (ip, i)) L := by
  have hip := h.refers hx
  have hop : b.Opens ip i := ⟨hip.ref, hlast.2.1, hip.inum⟩
  have hcount := h.handles.ref ip
  have hpos := List.count_pos_iff.2 (List.mem_map_of_mem (f := Prod.fst) hx)
  have hnonneg := h.nonneg ip
  have hone := hlast.1
  have hperm := perm_erase hx
  have herase : ((xs.erase (ip, i)).map Prod.fst).count ip = 0 := by
    rw [← hperm.count_eq, List.count_erase_self]
    dsimp only at hpos
    omega
  have howner : ∀ s ∈ B.slots, owner b'.bufs.data D' s = owner b.bufs.data g.D s := fun s hs =>
    hr.owner_other (hslots s hs) s.2
  have hne : ∀ {e}, 0 < (a.inode e).ref → e ≠ ip := by
    rintro e he rfl
    dsimp only at hpos
    omega
  refine ⟨h.nonneg, ⟨hr.entries h.intact.entries, hr.file.trans h.handles.file,
    hr.openfiles.trans h.handles.openfiles, hr.cwd.trans h.handles.cwd, fun e => ?_,
    fun e he => ?_, fun e he hv => ?_, fun e he => ?_⟩, fun y hy => ?_, fun e he => ?_,
    h.intact.reclaimed hop hr, hr.fit.budget.resolve_left not_lax, h.sectors,
    fun s hs x hsx => ?_, ?_, ?_, hr.busy.trans h.trans, fun hf =>
    absurd (htrans.symm.trans hf) nofun, hr.held.trans h.held, hr.super.trans h.super⟩
  · rcases eq_or_ne e ip with rfl | he
    · rw [hr.entry, herase]
      dsimp only at hpos
      omega
    · rw [hr.inode e he, h.handles.ref, ← hperm.count_eq, List.count_erase_of_ne he]
  · rw [hr.inode e (hne he), h.handles.inum e he]
  · rw [hr.inode e (hne he), h.handles.valid e he hv]
  · have hep : e ≠ ip := by
      rintro rfl
      rw [hr.entry] at he
      omega
    rw [hr.inode e hep] at he ⊢
    exact h.handles.busy e he
  · have hyp : y.1 ≠ ip := fun heq => by
      have := List.count_pos_iff.2 (List.mem_map_of_mem (f := Prod.fst) hy)
      rw [heq] at this
      omega
    rw [hr.inode _ hyp]
    exact h.names y (List.mem_of_mem_erase hy)
  · rw [hr.inode e (ne_of_mem_of_not_mem he hL)]
    exact h.locked e he
  · exact h.slots s hs x ((howner s hs).symm.trans hsx)
  · rw [Finset.filter_congr fun s hs => by rw [howner s hs]]
    exact h.missing
  · exact h.reserve.trans hr.spare

end

end SessionAt

namespace Session

section
variable (h : Session a b N B xs L) {Q : Unit → FsState Vol → Prop}
include h

theorem refers (hx : (ip, i) ∈ xs) : b.Refers ip i := by
  obtain ⟨g, h, -⟩ := h
  exact h.refers hx

theorem opens (hip : b.Refers ip i) (hL : ip ∈ L) : b.Opens ip i := by
  obtain ⟨g, h, -⟩ := h
  exact h.opens hip hL

/-- The references from before. -/
theorem refers_of_base (hpos : 0 < (a.inode ip).ref) : b.Refers ip (a.inode ip).inum := by
  obtain ⟨g, h, -⟩ := h
  refine ⟨?_, h.handles.inum ip hpos⟩
  rw [h.handles.ref]
  omega

/-- The copy of an inode in memory. -/
theorem din (hip : b.Refers ip i) (hL : ip ∈ L) (hn : N i = some n) :
    (b.inode ip).din.type = n.type ∧ (b.inode ip).din.nlink = n.nlink ∧
      (b.inode ip).din.size.toNat = n.bytes.length ∧ (b.inode ip).dev = rootDev := by
  obtain ⟨g, h, rfl⟩ := h
  obtain ⟨hi, rfl⟩ := nodesOf_eq_some.1 hn
  rw [h.intact.consistent.cached ip i (h.opens hip hL)]
  exact ⟨rfl, rfl, nodeOf_length.symm, h.intact.entries.dev ip hip.ref⟩

/-! ### References and locks -/

theorem lock (hip : b.Refers ip i) (hL : ip ∉ L) (hi : N i ≠ none)
    (hQ : ∀ b', Session a b' N B xs (insert ip L) → b'.log = b.log → Q () b') :
    vwp .strict pid (inodeLock ip) Q b := by
  obtain ⟨g, h, rfl⟩ := h
  have halloc : Allocated (superOf b.bufs.data) g.D i := not_not.1 (mt nodesOf_eq_none.2 hi)
  refine vwp_inodeLock h.fit hip.ref hip.inum halloc.2.1 h.reads (h.held ▸ Finset.notMem_empty _)
    (fun hbusy => ?_) (fun _ => h.intact.consistent.disk i halloc.2.1)
    (fun _ h0 => absurd h0 halloc.2.2) fun _ => hQ _ ⟨g, h.lockInode hip halloc, rfl⟩ rfl
  rw [h.handles.busy ip hip.ref] at hbusy
  exact absurd (of_decide_eq_true hbusy) hL

theorem unlock (hL : ip ∈ L)
    (hQ : ∀ b', Session a b' N B xs (L.erase ip) → b'.inode.Last ip = b.inode.Last ip →
      (∀ i, b.Opens ip i → b'.Opens ip i) → Q () b') :
    vwp .strict pid (inodeUnlock ip) Q b := by
  obtain ⟨g, h, rfl⟩ := h
  have hpos := (h.locked ip hL).1
  refine vwp_inodeUnlock ?_ hpos (hQ _ ⟨g, h.unlock ip, rfl⟩ ?_ fun i ho => ?_)
  · rw [h.handles.busy ip hpos]
    exact decide_eq_true hL
  · rw [InodeCache.Last, FsState.setEntry_self, InodeCache.Last]
  · refine ⟨?_, ?_, ?_⟩ <;> rw [FsState.setEntry_self]
    · exact ho.ref
    · exact ho.valid
    · exact ho.inum

theorem put (hx : (ip, i) ∈ xs) (hL : ip ∉ L) (hlast : ¬ b.inode.Last ip)
    (hQ : ∀ b', Session a b' N B (xs.erase (ip, i)) L → Q () b') :
    vwp .strict pid (inodePut ip) Q b := by
  obtain ⟨g, h, rfl⟩ := h
  exact vwp_inodePut_keep hlast (hQ _ ⟨g, h.put hx fun hin => absurd hin hL, rfl⟩)

/-- A reference is not the last one to an inode that has links or that was in use before. -/
theorem not_last (hx : (ip, i) ∈ xs) (hn : N i = some n)
    (hlive : n.nlink ≠ 0 ∨ ∃ e, a.Refers e i) :
    ¬ b.inode.Last ip := by
  obtain ⟨g, h, rfl⟩ := h
  have hip := h.refers hx
  rintro ⟨hone, hvalid, hnlink⟩
  rcases hlive with hlinks | ⟨e, he, hinum⟩
  · obtain ⟨-, rfl⟩ := nodesOf_eq_some.1 hn
    rw [h.intact.consistent.cached ip i ⟨hip.ref, hvalid, hip.inum⟩] at hnlink
    exact hlinks hnlink
  · have hbe : 0 < (b.inode e).ref := by
      rw [h.handles.ref]
      omega
    obtain rfl := h.intact.consistent.unique e ip hbe
      hip.ref (((h.handles.inum e he).trans hinum).trans hip.inum.symm)
    have := List.count_pos_iff.2 (List.mem_map_of_mem (f := Prod.fst) hx)
    rw [h.handles.ref] at hone
    dsimp only at this
    omega

theorem unlockput (hx : (ip, i) ∈ xs) (hL : ip ∈ L) (hn : N i = some n)
    (hlive : n.nlink ≠ 0 ∨ ∃ e, a.Refers e i)
    (hQ : ∀ b', Session a b' N B (xs.erase (ip, i)) (L.erase ip) → Q () b') :
    vwp .strict pid (inodeUnlockput ip) Q b :=
  vwp_bind (h.unlock hL fun _ h' hlast _ => h'.put hx (Finset.notMem_erase ip L)
    (hlast ▸ h.not_last hx hn hlive) hQ)

/-! ### Transactions -/

theorem begin (htrans : B.trans = false)
    (hQ : ∀ b', Session a b' N { B with trans := true } xs L → b'.log.n = 0 →
      b'.inode = b.inode → Q () b') :
    vwp .strict pid beginTrans Q b := by
  obtain ⟨g, h, rfl⟩ := h
  have hn := h.idle htrans
  refine vwp_beginTrans (fun hbusy => ?_) fun _ => hQ _ ⟨g, ?_, rfl⟩ hn rfl
  · rw [h.trans, htrans] at hbusy
    cases hbusy
  · exact ⟨h.nonneg, h.handles.congr rfl rfl rfl rfl, h.names, h.locked, h.intact.begun,
      ⟨h.fits.1, h.fits.2, h.fits.3, h.fits.4, h.fits.5, h.fits.6⟩, h.sectors, h.slots, h.missing,
      h.reserve, rfl, nofun, h.held, h.super⟩

theorem commit (hQ : ∀ b', Session a b' N { B with trans := false } xs L → Q () b') :
    vwp .strict pid commitTrans Q b := by
  obtain ⟨g, h, rfl⟩ := h
  have hn := h.log_n_le
  have hnone : b.committed.log.sectors = ∅ := rfl
  refine vwp_commitTrans h.held (.inr ?_) (hQ _ ⟨g, ?_, rfl⟩)
  · rw [nBuf]
    omega
  · exact ⟨h.nonneg, h.handles.congr rfl rfl rfl rfl, h.names, h.locked, h.intact.committed,
      ⟨fun i hi => absurd hi (Nat.not_lt_zero i), hnone ▸ Finset.empty_subset _, h.fits.3,
        h.fits.4, h.fits.5, h.fits.6⟩,
      h.sectors, h.slots, h.missing, h.reserve, rfl, fun _ => rfl, h.held, h.super⟩

/-! ### Directories -/

/-- `dir_lookup` finds the first entry with the name. -/
theorem lookup {Q : Option (Nat × Nat) → FsState Vol → Prop} (hip : b.Refers dp i) (hL : dp ∈ L)
    (hn : N i = some n) (htype : n.type = tDir) (hw : n.Whole) (hfree : xs.length < freeEntries a)
    (hmiss : n.find name = none → Q none b)
    (hhit : ∀ k ip b', n.find name = some k →
      Session a b' N B ((ip, (n.entry k).inum.toNat) :: xs) L →
      b'.log = b.log → Q (some (ip, Dirent.size * k)) b') :
    vwp .strict pid (dirLookup dp name) Q b := by
  obtain ⟨g, h, rfl⟩ := h
  obtain ⟨hi, rfl⟩ := nodesOf_eq_some.1 hn
  have hroom : ∃ e < nInode, (b.inode e).ref = 0 :=
    h.handles.exists_free_of_lt (by rwa [List.length_map])
  refine vwp_dirLookup h.fit (h.lists hip hL hi htype hw).listsTo h.intact.entries (.inr hroom)
    (.inl le_rfl) (fun hno => hmiss ?_) fun k hk hnames hbefore ip x hg =>
    hhit k ip _ ?_ ⟨g, h.gets hg, rfl⟩ rfl
  · exact Node.find_eq_none.2 fun k hk => hno k (nodeOf_count ▸ hk)
  · exact Node.find_eq_some.2 ⟨nodeOf_count.symm ▸ hk, hnames, hbefore⟩

section
variable (hip : b.Refers ip i) (hL : ip ∈ L) (hn : N i = some n)
include hip hL hn

/-- The assignments to fields of an inode, but for its pointers, its type and its size, with
`inode_update` after them. -/
theorem setInode {β : Type} {q : Fs β} {Q : β → FsState Vol → Prop} {din : Dinode}
    (htrans : B.trans = true) (hU : iblock i ∈ B.sectors)
    (haddrs : din.addrs = (b.inode ip).din.addrs) (htype : din.type = (b.inode ip).din.type)
    (hsize : din.size = (b.inode ip).din.size)
    (hq : ∀ b', Session a b' (update N i (some { n with nlink := din.nlink })) B xs L →
      vwp .strict pid q Q b') :
    vwp .strict pid (do
      setDinode ip din
      inodeUpdate ip
      q) Q b := by
  obtain ⟨g, h, rfl⟩ := h
  have hop := h.opens hip hL
  rw [h.intact.consistent.cached ip i hop] at haddrs htype hsize
  have hset : vwp .strict pid _ (fun _ b' => vwp .strict pid q Q b') b := vwp_setInode h.fit hop
    (h.intact.live ip i hop).2.1 haddrs htype (h.trans.trans htrans) h.held
    (hq _ ⟨_, h.setInode hop htrans hU haddrs htype hsize,
      FsState.nodes_setInode h.intact.consistent hn haddrs htype hsize⟩)
  have hbind := vwp_bind hset
  rwa [Prog.bind_assoc] at hbind

/-- `inode_read` returns a part of the contents. -/
theorem read {Q : Option (List Byte) → FsState Vol → Prop} {off len : BitVec 32}
    (htype : n.type ≠ tDev) (hoff : off.toNat ≤ n.bytes.length)
    (hlen : off.toNat + len.toNat < 2 ^ 32)
    (hQ : Q (some ((n.bytes.drop off.toNat).take len.toNat)) b) :
    vwp .strict pid (inodeRead ip off len) Q b := by
  obtain ⟨g, h, rfl⟩ := h
  obtain ⟨hi, rfl⟩ := nodesOf_eq_some.1 hn
  rw [nodeOf_length] at hoff
  refine vwp_inodeRead h.fit (h.opens hip hL) h.reads h.held htype (fun hbad => by omega)
    (fun _ _ => ?_) (h.intact.consistent.full i hi)
  rw [← take_drop_contents]
  exact hQ

/-- `inode_write` replaces a part of the contents. -/
theorem write {Q : Option Nat → FsState Vol → Prop} {off : BitVec 32} {src : List Byte}
    (htype : n.type ≠ tDev) (hoff : off.toNat ≤ n.bytes.length)
    (hmax : off.toNat + src.length ≤ maxFile * bSize) (htrans : B.trans = true)
    (hU : iblock i ∈ B.sectors) (hW : (slotsIn off.toNat src.length).image (Prod.mk i) ⊆ B.slots)
    (hQ : ∀ b', Session a b' (update N i (some { n with bytes := spliceAt n.bytes off.toNat src }))
      B xs L →
      Q (some src.length) b') :
    vwp .strict pid (inodeWrite ip src off) Q b := by
  obtain ⟨g, h, rfl⟩ := h
  obtain ⟨hi, hnode⟩ := nodesOf_eq_some.1 hn
  have hlt : maxFile * bSize < 2 ^ 32 := by decide
  have hsize : (g.D i).size.toNat = n.bytes.length := by rw [← hnode, nodeOf_length]
  refine vwp_inodeWrite h.fit (h.opens hip hL) hi (h.trans.trans htrans) h.held
    (fun hdev => htype ((congrArg Node.type hnode).symm.trans hdev))
    (h.intact.consistent.full i hi) (by omega) (fun _ => ?_) (fun s hs x => ?_) (h.sectors hU)
    (fun hbad => by omega) fun _ _ b' g' hw =>
    hQ b' ⟨g', h.written hi htrans hmax hW hw, hw.nodes h.intact.consistent hn hoff hmax⟩
  · exact (missing_eq_card.trans_le (Finset.card_le_card (Finset.filter_subset_filter _ hW))).trans
      h.missing
  · exact h.slots _ (hW (Finset.mem_image_of_mem _ hs)) x

end

/-- `dir_link` of a name that is not there writes the first free entry. -/
theorem link {Q : Bool → FsState Vol → Prop} {inum : Nat} (hip : b.Refers dp i) (hL : dp ∈ L)
    (hn : N i = some n) (htype : n.type = tDir) (hw : n.Whole) (hname : n.find name = none)
    (hfree : xs.length < freeEntries a)
    (hmax : Dirent.size * n.free + Dirent.size ≤ maxFile * bSize) (htrans : B.trans = true)
    (hU : iblock i ∈ B.sectors) (hW : (slotsOf (Dirent.size * n.free / bSize)).image (Prod.mk i) ⊆
      B.slots) (hQ : ∀ b', Session a b' (update N i (some (n.setEntry n.free
      { inum := BitVec.ofNat 16 inum, name := padName name }))) B xs L → Q true b') :
    vwp .strict pid (dirLink dp name inum) Q b := by
  obtain ⟨g, h, rfl⟩ := h
  obtain ⟨hi, hnode⟩ := nodesOf_eq_some.1 hn
  have hroom : ∃ e < nInode, (b.inode e).ref = 0 :=
    h.handles.exists_free_of_lt (by rwa [List.length_map])
  have hcount : n.count = nDirents (g.D i) := hnode ▸ nodeOf_count
  have hentry : ∀ j, n.entry j = dirent b.bufs.data (g.D i) j := fun j => hnode ▸ nodeOf_entry
  have hfirst := n.isFirst_free
  simp only [hcount, hentry] at hfirst
  have hl : Lists .strict b g dp i :=
    h.lists hip hL hi ((congrArg Node.type hnode).trans htype) (hnode.symm ▸ hw)
  refine vwp_dirLink h.fit hl h.intact.entries hi (h.trans.trans htrans) (.inr hroom)
    (h.sectors hU) (fun k hk => ?_) (fun k hk hnames => ?_) fun _ k hk b' g' hw' _ => ?_
  · obtain rfl := hk.unique hfirst
    refine ⟨fun s hs x => h.slots _ (hW (Finset.mem_image_of_mem _ hs)) x,
      fun hbig => ?_, fun _ => ?_⟩
    · exact absurd hmax (Nat.not_le.2 hbig)
    · exact (missing_eq_card.trans_le
        (Finset.card_le_card (Finset.filter_subset_filter _ hW))).trans h.missing
  · exact absurd (hentry k ▸ hnames) (Node.find_eq_none.1 hname k (hcount ▸ hk))
  · obtain rfl := hk.unique hfirst
    exact hQ b' (h.writtenEntry hn hw n.isFirst_free.le length_padName hmax htrans hW hw')

/-- The thread takes another budget. -/
theorem regrow {B' : Budget} (hsec : b.log.sectors ⊆ B'.sectors)
    (hbitmap : (superOf a.bufs.data).bitmapStart ∈ B'.sectors)
    (hcard : B'.sectors.card + B'.slots.card ≤ 7)
    (hneed : B'.reserve + lacking N B'.slots ≤ B.reserve) (htrans : B'.trans = B.trans) :
    Session a b N B' xs L := by
  obtain ⟨g, h, rfl⟩ := h
  obtain ⟨U, m, h'⟩ := h.regrow hsec hbitmap hcard hneed htrans
  exact ⟨_, h', rfl⟩

/-- `inode_alloc`, as the first thing in a transaction. -/
theorem alloc {Q : Nat → FsState Vol → Prop} {type : BitVec 16} (htrans : B.trans = true)
    (hempty : b.log.n = 0) (hfree : xs.length < freeEntries a) (htype : type ≠ 0)
    (hinode : ∃ i, 0 < i ∧ i < (superOf a.bufs.data).ninodes.toNat ∧ N i = none)
    (hQ : ∀ i ip b', 0 < i → i < (superOf a.bufs.data).ninodes.toNat → N i = none →
      Session a b' (update N i (some ⟨type, 0, []⟩))
        ⟨{(superOf a.bufs.data).bitmapStart, iblock i}, ∅, B.reserve, true⟩ ((ip, i) :: xs) L →
        b'.log.sectors = {iblock i} → Q ip b') :
    vwp .strict pid (inodeAlloc rootDev type) Q b := by
  obtain ⟨g, h, rfl⟩ := h
  have hroom : ∃ e < nInode, (b.inode e).ref = 0 :=
    h.handles.exists_free_of_lt (by rwa [List.length_map])
  have htype0 : ∀ {i}, 0 < i → i < (superOf b.bufs.data).ninodes.toNat →
      (nodesOf b.bufs.data g.D i = none ↔ (g.D i).type = 0) := fun hpos hi => by
    rw [nodesOf_eq_none, Allocated, and_iff_right hpos, and_iff_right hi, not_not]
  refine vwp_inodeAlloc h.intact.consistent.geo h.intact.entries (h.trans.trans htrans) h.held
    (h.fit.room (by rw [h.held]; decide)) (.inr ?_) (.inr hroom) fun i hpos hi h0 ip x hg => ?_
  · obtain ⟨i, hpos, hi, hnone⟩ := hinode
    rw [← h.super] at hi
    exact ⟨i, hpos, hi, by rw [h.intact.consistent.disk i hi, (htype0 hpos hi).1 hnone]⟩
  · rw [h.intact.consistent.disk i hi] at h0
    obtain ⟨g', (hD : g'.D = update g.D i (.fresh type)), h'⟩ := h.alloc htrans hempty hi h0
    refine hQ i ip _ hpos (h.super ▸ hi) ((htype0 hpos hi).2 h0) ⟨g', h'.gets hg, ?_⟩ ?_
    · rw [hD]
      exact FsState.nodes_alloc h.intact.consistent hpos hi h0 htype
    · have hsec : (b.putInode i (.fresh type)).log.sectors = insert (iblock i) b.log.sectors :=
        Log.sectors_record
      refine hsec.trans ?_
      rw [Log.sectors, hempty, Finset.range_zero, Finset.image_empty, insert_empty_eq]

/-- `inode_put` of the last reference to an inode without links frees it. -/
theorem putLast (hx : (ip, i) ∈ xs) (hL : ip ∉ L) (hlast : b.inode.Last ip)
    (htrans : B.trans = true) (hU : iblock i ∈ B.sectors) (hslots : ∀ s ∈ B.slots, s.1 ≠ i)
    (hQ : ∀ b', Session a b' (update N i none) B (xs.erase (ip, i)) L → Q () b') :
    vwp .strict pid (inodePut ip) Q b := by
  obtain ⟨g, h, rfl⟩ := h
  have hip := h.refers hx
  refine vwp_inodePut_last h.fit hlast hip.inum (h.intact.live ip i ⟨hip.ref, hlast.2.1, hip.inum⟩)
    (fun hbusy => ?_) (h.trans.trans htrans) h.held (h.sectors hU) fun b' D' hr =>
      hQ b' ⟨_, h.reclaimed hx hL hlast htrans hslots hr, hr.nodes h.intact.consistent⟩
  rw [h.handles.busy ip hip.ref] at hbusy
  exact absurd (of_decide_eq_true hbusy) hL

/-- `inode_put` of an inode that has been read from the disk. -/
theorem release (hx : (ip, i) ∈ xs) (hL : ip ∉ L) (hn : N i = some n)
    (hvalid : (b.inode ip).valid = true) (htrans : B.trans = true) (hU : iblock i ∈ B.sectors)
    (hslots : ∀ s ∈ B.slots, s.1 ≠ i)
    (hQ : ∀ b', Session a b' (if (b.inode ip).ref = 1 ∧ n.nlink = 0 then update N i none else N)
      B (xs.erase (ip, i)) L → Q () b') :
    vwp .strict pid (inodePut ip) Q b := by
  have hip := h.refers hx
  have hnlink : (b.inode ip).din.nlink = n.nlink := by
    obtain ⟨g, h, rfl⟩ := h
    obtain ⟨-, rfl⟩ := nodesOf_eq_some.1 hn
    rw [h.intact.consistent.cached ip i ⟨hip.ref, hvalid, hip.inum⟩]
    rfl
  by_cases hlast : b.inode.Last ip
  · rw [if_pos ⟨hlast.1, hnlink ▸ hlast.2.2⟩] at hQ
    exact h.putLast hx hL hlast htrans hU hslots hQ
  · rw [if_neg fun hc => hlast ⟨hc.1, hvalid, hnlink.trans hc.2⟩] at hQ
    exact h.put hx hL hlast hQ

theorem tables_eq : b.file = a.file ∧ b.openfiles = a.openfiles := by
  obtain ⟨g, h, -⟩ := h
  exact ⟨h.handles.file, h.handles.openfiles⟩

/-- Other tables of the kernel. -/
theorem tables (file : Nat → File) (openfiles : Nat → Nat → Option Nat) :
    Session { a with file, openfiles } { b with file, openfiles } N B xs L := by
  obtain ⟨g, h, rfl⟩ := h
  have hc := h.intact.consistent
  refine ⟨g, ⟨h.nonneg, ⟨h.intact.entries.of_eq fun _ => ⟨rfl, rfl⟩, rfl, rfl, h.handles.cwd,
    h.handles.ref, h.handles.inum, h.handles.valid, h.handles.busy⟩, h.names, h.locked, ?_,
    ⟨h.fits.1, h.fits.2, h.fits.3, h.fits.4, h.fits.5, h.fits.6⟩, h.sectors, h.slots, h.missing,
    h.reserve, h.trans, h.idle, h.held, h.super⟩, rfl⟩
  have ht : Tracks { b with file, openfiles } g.D :=
    ⟨hc.geo, hc.owned, hc.disk, fun e i ho => hc.cached e i ⟨ho.ref, ho.valid, ho.inum⟩, hc.unique⟩
  exact ⟨⟨ht, hc.full⟩,
    h.intact.entries.of_eq fun _ => ⟨rfl, rfl⟩, fun e i ho =>
    h.intact.live e i ⟨ho.ref, ho.valid, ho.inum⟩⟩

end

end Session

end

end MCertikos
