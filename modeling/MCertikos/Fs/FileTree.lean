import MCertikos.Fs.Session
import MCertikos.Lib.Table

/-!
# The file system as a graph of nodes

What the processes see of the file system between system calls: the nodes, and the open files and
descriptors. A `FileTree` leaves out where anything is on the disk and in the inode cache, and
counts only what may run out, the free blocks and the entries of the inode cache. `Resting` relates
it to a state in which no call is under way. A path leads from one node to another along the
entries of directories (`Leads`), and `namex` follows it.

`swp` is the weakest precondition of a program over file trees: from every state that shows the
tree, the program ends in one that shows a tree with `Q`. It neither panics nor waits.
-/

namespace MCertikos

open Program Ownership Function

/-! ## Paths -/

section
variable (N : Nat → Option Node) (R : Nat → Prop)

/-- The node is there, and has links or references to it. -/
def Alive (i : Nat) : Prop := ∃ n, N i = some n ∧ (n.nlink ≠ 0 ∨ R i)

/-- The names lead from one node to another. -/
def Leads : (i : Nat) → List (List Byte) → (j : Nat) → Prop
  | i, [], j => i = j
  | i, c :: cs, j =>
    ∃ n k, N i = some n ∧ n.type = tDir ∧ n.Whole ∧ n.lookup c = some k ∧
      Alive N R k ∧ Leads k cs j

end

section
variable {pid i j ip : Nat} {a b b' : FsState Vol} {D : Nat → Dinode} {N : Nat → Option Node}
  {R : Nat → Prop} {B : Budget} {g : Ghost} {cs : List (List Byte)} {c path : List Byte} {n : Node}

theorem Leads.alive (h : Leads N R i cs j) (hi : Alive N R i) : Alive N R j := by
  induction cs generalizing i with
  | nil => exact (show i = j from h) ▸ hi
  | cons c cs ih =>
    obtain ⟨n, k, -, -, -, -, hk, hlead⟩ := h
    exact ih hlead hk

namespace SessionAt

variable {xs : List (Nat × Nat)} {L : Finset Nat}

section
variable (h : SessionAt a b g B xs L) (hR : ∀ i, R i → ∃ e, a.Refers e i)
include h hR

theorem live (hi : Alive (nodesOf b.bufs.data g.D) R i) : Live b g.D i := by
  obtain ⟨n, hn, hlinks⟩ := hi
  obtain ⟨halloc, rfl⟩ := nodesOf_eq_some.1 hn
  refine ⟨halloc, hlinks.imp id fun hr => ?_⟩
  obtain ⟨e, he⟩ := hR i hr
  have hbe := Session.refers_of_base ⟨g, h, rfl⟩ he.ref
  exact ⟨e, hbe.ref, hbe.inum.trans he.inum⟩

omit hR in
/-- The lookup in a directory can be done. -/
theorem lookupName (hn : nodesOf b.bufs.data g.D i = some n) (hw : n.Whole)
    (hj : n.lookup c = some j) :
    Lookup b g.D i c ∧ lookupName b.bufs.data (g.D i) c = some j := by
  obtain ⟨hi, rfl⟩ := nodesOf_eq_some.1 hn
  have hfull := h.intact.consistent.full i hi
  have hsize := (nodeOf_whole hfull.1).1 hw
  have heq : MCertikos.lookupName b.bufs.data (g.D i) c = some j := nodeOf_lookup.symm.trans hj
  refine ⟨⟨hsize, nDirents (g.D i), fun k hk _ => hfull.2 _ ?_, .inl le_rfl⟩, heq⟩
  have := hsize.entry_le hk
  rw [Dirent.size] at this ⊢
  omega

/-- `namex` can follow a path, and gets where it leads. -/
theorem walk (hi : Alive (nodesOf b.bufs.data g.D) R i)
    (hlead : Leads (nodesOf b.bufs.data g.D) R i cs j) :
    Passable b g.D false i cs ∧ ((g.D j).type = tDir → Passable b g.D true i (cs ++ [c])) ∧
      walk b.bufs.data g.D i cs = some j := by
  have halloc := h.live hR hi
  induction cs generalizing i with
  | nil =>
    obtain rfl : i = j := hlead
    exact ⟨trivial, fun htype => ⟨halloc.1, fun hend => absurd ⟨rfl, rfl, htype⟩ hend⟩, rfl⟩
  | cons c' cs ih =>
    obtain ⟨n, k, hn, htype, hw, hk, hlive, hlead⟩ := hlead
    obtain ⟨hlookup, heq⟩ := h.lookupName hn hw hk
    obtain ⟨hpass, hparent, hwalk⟩ := ih hlive hlead (h.live hR hlive)
    have hdir : (g.D i).type = tDir := by
      obtain ⟨-, rfl⟩ := nodesOf_eq_some.1 hn
      exact htype
    refine ⟨⟨halloc.1, fun _ => ⟨fun _ => hlookup, .inl halloc.2, fun _ l hl => ?_⟩⟩,
      fun ht => ⟨halloc.1, fun _ => ⟨fun _ => hlookup, .inl halloc.2, fun _ l hl => ?_⟩⟩, ?_⟩
    · obtain rfl : k = l := Option.some.inj (heq.symm.trans hl)
      exact hpass
    · obtain rfl : k = l := Option.some.inj (heq.symm.trans hl)
      exact hparent ht
    · rw [MCertikos.walk, if_pos hdir, heq, Option.bind_some, hwalk]

end

/-- The thread has taken a reference on its way along a path. -/
theorem walked (h : SessionAt a b g B [] ∅)
    (hall : ∀ e i, a.Refers e i → nodesOf b.bufs.data g.D i ≠ none) (hw : Walking b b' g.D [ip] ∅)
    (hi : nodesOf b.bufs.data g.D (b'.inode ip).inum ≠ none) :
    SessionAt a b' g B [(ip, (b'.inode ip).inum)] ∅ := by
  have hh : Handles a b' [ip] ∅ := by
    refine ⟨hw.handles.entries, hw.handles.file.trans h.handles.file,
      hw.handles.openfiles.trans h.handles.openfiles, hw.handles.cwd.trans h.handles.cwd,
      fun e => ?_, fun e he => ?_, fun e he hv => ?_, hw.handles.busy⟩
    · rw [hw.handles.ref, h.handles.ref]
      simp
    · have hbe := Session.refers_of_base ⟨g, h, rfl⟩ he
      rw [hw.handles.inum e hbe.ref, hbe.inum]
    · exact hw.handles.valid e (Session.refers_of_base ⟨g, h, rfl⟩ he).ref
        (h.handles.valid e he hv)
  -- The entries in use are the one of `ip` and those from before.
  have halloc : ∀ e, 0 < (b'.inode e).ref →
      Allocated (superOf b.bufs.data) g.D (b'.inode e).inum := by
    intro e he
    rw [hh.ref] at he
    rcases (h.nonneg e).lt_or_eq with hpos | hzero
    · rw [hh.inum e hpos]
      exact not_not.1 (mt nodesOf_eq_none.2 (hall e _ ⟨hpos, rfl⟩))
    · have hmem : e ∈ [ip] := List.count_pos_iff.1 (by omega)
      rw [List.mem_singleton.1 hmem]
      exact not_not.1 (mt nodesOf_eq_none.2 hi)
  have hc : Consistent b' g.D := ⟨hw.tracks, hw.bufs ▸ h.intact.consistent.full⟩
  refine ⟨h.nonneg, hh, fun x hx => ?_, nofun, ⟨hc, hh.entries, fun e i ho => ?_⟩, ?_,
    h.sectors, ?_, ?_, ?_, ?_, ?_, ?_, ?_⟩
  · rw [List.mem_singleton.1 hx]
  · rw [hw.bufs, ← ho.inum]
    exact halloc e ho.ref
  · obtain ⟨h1, h2, h3, h4, h5, h6⟩ := h.fits
    refine ⟨?_, ?_, h3, ?_, ?_, ?_⟩ <;> first | rwa [hw.log] | rwa [hw.bufs]
  · rw [hw.bufs]
    exact h.slots
  · rw [hw.bufs]
    exact h.missing
  · rw [hw.bufs]
    exact h.reserve
  · rw [hw.log]
    exact h.trans
  · rw [hw.log]
    exact h.idle
  · rw [hw.bufs]
    exact h.held
  · rw [hw.bufs]
    exact h.super

theorem calm (h : SessionAt a b g B [] ∅) : Calm b g.D := by
  have hn := h.log_n_le
  refine ⟨h.intact.consistent.toTracks, h.intact.entries, fun e he => ?_, h.held, ?_⟩
  · rw [h.handles.busy e he]
    rfl
  · rw [nBuf]
    omega

theorem twoFree (h : SessionAt a b g B [] ∅) (hroom : 2 ≤ freeEntries a) : TwoFree b := by
  obtain ⟨e₁, h₁, e₂, h₂, hne⟩ := Finset.one_lt_card.1 hroom
  rw [Finset.mem_filter, Finset.mem_range] at h₁ h₂
  have hsame : ∀ e, (b.inode e).ref = (a.inode e).ref := fun e => (h.handles.ref e).trans (by simp)
  exact ⟨e₁, h₁.1, e₂, h₂.1, hne, (hsame e₁).trans h₁.2, (hsame e₂).trans h₂.2⟩

end SessionAt

/-- The inode at which the lookup of a path starts. -/
def startOf (cwd : Nat) (path : List Byte) : Nat :=
  if path.head? = some slash then rootIno else cwd

section
variable {cwd : Nat} (h : Session a b N B [] ∅) (hR : ∀ i, R i → ∃ e, a.Refers e i)
  (hall : ∀ e i, a.Refers e i → N i ≠ none) (hroom : 2 ≤ freeEntries a)
  (hcwd : a.Refers (a.cwd pid) cwd) (hstart : Alive N R (startOf cwd path))
  {Q : Option (Nat × List Byte) → FsState Vol → Prop}
include h hR hall hroom hcwd hstart

/-- What `namex` looks for. -/
theorem Session.namex {parent : Bool} {r : Nat × List Byte}
    (hpath : ∀ g, SessionAt a b g B [] ∅ → nodesOf b.bufs.data g.D = N →
      Passable b g.D parent (startOf cwd path) (components path) ∧
        resolve parent b.bufs.data g.D (startOf cwd path) [] (components path) = some r)
    (hr : N r.1 ≠ none) (hQ : ∀ ip b', Session a b' N B [(ip, r.1)] ∅ → b'.log = b.log →
      Q (some (ip, r.2)) b') :
    vwp .strict pid (MCertikos.namex path parent) Q b := by
  have hpwd := h.refers_of_base hcwd.ref
  obtain ⟨g, h, rfl⟩ := h
  have hcwd' : (b.inode (b.cwd pid)).inum = cwd := by
    rw [h.handles.cwd, hpwd.inum, hcwd.inum]
  have hwalk : walkStart b pid path = startOf cwd path := by rw [walkStart, startOf, hcwd']
  obtain ⟨hpass, hres⟩ := hpath g h rfl
  rw [← hwalk] at hpass hres hstart
  refine vwp_namex h.calm (.inr (h.twoFree hroom)) (fun _ => ?_) (fun _ => (h.live hR hstart).2)
    (fun hno => absurd hpass hno) (fun b' _ hnone => ?_) fun b' ip' name' _ hsome hwalking => ?_
  · rw [h.handles.cwd]
    exact hpwd.ref
  · rw [hres] at hnone
    cases hnone
  · obtain rfl := Option.some.inj (hres.symm.trans hsome)
    exact hQ ip' b' ⟨g, h.walked hall hwalking hr, by rw [hwalking.bufs]⟩ hwalking.log

/-- `namei` gets where the path leads. -/
theorem Session.namei {Q : Option Nat → FsState Vol → Prop}
    (hlead : Leads N R (startOf cwd path) (components path) i)
    (hQ : ∀ ip b', Session a b' N B [(ip, i)] ∅ → b'.log = b.log → Q (some ip) b') :
    vwp .strict pid (MCertikos.namei path) Q b := by
  have hi := hlead.alive hstart
  refine vwp_bind (h.namex hR hall hroom hcwd
    hstart (r := (i, ((components path).getLast?.getD []))) ?_ ?_ fun ip b' h' hlog =>
    vwp_pure (hQ ip b' h' hlog))
  · rintro g hg rfl
    obtain ⟨hpass, -, hwalk⟩ := hg.walk (c := []) hR hstart hlead
    exact ⟨hpass, by rw [resolve, if_neg (by simp), hwalk]; rfl⟩
  · obtain ⟨n, hn, -⟩ := hi
    rw [hn]
    exact Option.some_ne_none n

/-- `nameiparent` gets where the path without its last component leads. -/
theorem Session.nameiparent (hcs : components path = cs ++ [c])
    (hlead : Leads N R (startOf cwd path) cs i) (hn : N i = some n) (htype : n.type = tDir)
    (hQ : ∀ ip b', Session a b' N B [(ip, i)] ∅ → b'.log = b.log → Q (some (ip, c)) b') :
    vwp .strict pid (MCertikos.nameiparent path) Q b := by
  refine h.namex hR hall hroom hcwd hstart (r := (i, c)) ?_ (by rw [hn]; exact nofun) hQ
  rintro g hg rfl
  obtain ⟨-, hpass, hwalk⟩ := hg.walk (c := c) hR hstart hlead
  obtain ⟨-, rfl⟩ := nodesOf_eq_some.1 hn
  rw [hcs]
  refine ⟨hpass htype, ?_⟩
  rw [resolve, if_pos rfl, walkParent_append, hwalk, Option.bind_some]
  exact if_pos htype

end

end

/-! ## File trees -/

/-- An open file. -/
structure OpenFile where
  ino : Nat
  off : BitVec 32
  readable : Bool
  writable : Bool
  /-- The lock that it holds, or 0. -/
  flock : BitVec 32

/-- What the processes see of the file system. -/
structure FileTree where
  node : Nat → Option Node
  file : Nat → Option OpenFile
  /-- The open files of each process. -/
  openfiles : Nat → Nat → Option Nat
  /-- The number of working directories, for each inode. -/
  base : Nat → Nat
  /-- The working directory of the process. -/
  cwd : Nat
  /-- The number of inodes. -/
  ninodes : Nat
  /-- A number of free blocks. -/
  spare : Nat

namespace FileTree

variable (t : FileTree)

/-- The number of open files of an inode. -/
def opens (i : Nat) : Nat := ∑ f ∈ Finset.range nFile, if (t.file f).map OpenFile.ino =
    some i then 1 else 0

/-- The number of references to an inode. -/
def ref (i : Nat) : Nat := t.base i + t.opens i

/-- There is room for `k` more inodes in the inode cache. -/
def Room (k : Nat) : Prop := ∃ S : Finset Nat, (∀ i, t.ref i ≠ 0 → i ∈ S) ∧ S.card + k ≤ nInode

/-- The node is there, and has links or references to it. -/
abbrev Alive (i : Nat) : Prop := MCertikos.Alive t.node (t.ref · ≠ 0) i

/-- The names lead from one node to another. -/
abbrev Leads (i : Nat) (cs : List (List Byte)) (j : Nat) : Prop :=
  MCertikos.Leads t.node (t.ref · ≠ 0) i cs j

/-- Another open file in the table. -/
def setFile (f : Nat) (o : Option OpenFile) : FileTree := { t with file := update t.file f o }

/-- Another descriptor of a process. -/
def setDesc (pid fd : Nat) (f : Option Nat) : FileTree :=
  { t with openfiles := update t.openfiles pid (update (t.openfiles pid) fd f) }

/-- The descriptor `fd` of the process and the entry `f` of the file table are the first ones that
are free. -/
structure Free (pid fd f : Nat) : Prop where
  desc : (List.range nOFile).find? (fun d => t.openfiles pid d = none) = some fd
  file : (List.range nFile).find? (fun f => t.file f = none) = some f

/-- The descriptor `fd` of the process is for the entry `f` of the file table. -/
structure Has (pid fd f : Nat) (o : OpenFile) : Prop where
  lt : fd < nOFile
  desc : t.openfiles pid fd = some f
  file : t.file f = some o

/-- The inode at which the lookup of a path starts. -/
abbrev start (path : List Byte) : Nat := startOf t.cwd path

end FileTree

namespace FileTree

variable {t : FileTree} {f i : Nat} {o : Option OpenFile}

@[simp] theorem setFile_self : (t.setFile f o).file f = o := update_self _ _ _

theorem setFile_of_ne {f' : Nat} (h : f' ≠ f) : (t.setFile f o).file f' = t.file f' :=
  update_of_ne h _ _

theorem opens_setFile (hf : f < nFile) : (t.setFile f o).opens i +
      (if (t.file f).map OpenFile.ino = some i then 1 else 0) =
    t.opens i + if o.map OpenFile.ino = some i then 1 else 0 :=
  Table.sum_range_update hf (fun x : Option OpenFile => if x.map OpenFile.ino = some i then
    1 else 0) t.file o

theorem ref_setFile (hf : f < nFile) : (t.setFile f o).ref i +
      (if (t.file f).map OpenFile.ino = some i then 1 else 0) =
    t.ref i + if o.map OpenFile.ino = some i then 1 else 0 := by
  have h := opens_setFile (t := t) (o := o) (i := i) hf
  rw [ref, ref, show (t.setFile f o).base = t.base from rfl]
  omega

/-- An inode with an open file has a reference. -/
theorem ref_pos {o : OpenFile} (hf : f < nFile) (ho : t.file f = some o) : t.ref o.ino ≠ 0 := by
  have hle : 1 ≤ t.opens o.ino := by
    refine (if_pos ?_).symm.trans_le (Finset.single_le_sum
      (f := fun f => if (t.file f).map OpenFile.ino = some o.ino then 1 else 0)
      (fun _ _ => Nat.zero_le _) (Finset.mem_range.2 hf))
    rw [ho, Option.map_some]
  rw [ref]
  omega

end FileTree

/-- The entries of the inode cache have as many references as there are to their inodes. -/
structure Counts (a : FsState Vol) (r : Nat → Nat) : Prop where
  ref : ∀ e, 0 < (a.inode e).ref → (a.inode e).ref = r (a.inode e).inum
  entry : ∀ i, r i ≠ 0 → ∃ e, a.Refers e i

/-- An entry of the file table is for an open file. -/
structure FsState.ShowsFile (a : FsState Vol) (x : File) (o : OpenFile) : Prop where
  type : x.type = .inode
  ref : x.ref = 1
  opens : a.Opens x.ip o.ino
  off : x.off = o.off
  readable : x.readable = o.readable
  writable : x.writable = o.writable
  flock : x.holdingFlock = o.flock

/-- No call is under way, and the process sees the file tree `t`. -/
structure RestingAt (pid : Nat) (a : FsState Vol) (D : Nat → Dinode) (t : FileTree) : Prop where
  intact : Intact a D
  node : nodesOf a.bufs.data D = t.node
  unlocked : ∀ e, 0 < (a.inode e).ref → (a.inode e).busy = false
  held : a.bufs.held = ∅
  idle : a.log.busy = false
  empty : a.log.n = 0
  standard : Standard a
  ninodes : (superOf a.bufs.data).ninodes.toNat = t.ninodes
  spare : t.spare ≤ spare a.bufs.data
  counts : Counts a t.ref
  alloc : ∀ i, t.ref i ≠ 0 → t.node i ≠ none
  closed : ∀ f, t.file f = none → (a.file f).ref = 0
  file : ∀ f o, t.file f = some o → f < nFile ∧ a.ShowsFile (a.file f) o
  openfiles : a.openfiles = t.openfiles
  cwd : a.Refers (a.cwd pid) t.cwd
  base : t.base t.cwd ≠ 0

/-- No call is under way, and the process sees the file tree `t`. -/
def Resting (pid : Nat) (a : FsState Vol) (t : FileTree) : Prop := ∃ D, RestingAt pid a D t

section
variable {pid i ip : Nat} {a b : FsState Vol} {D : Nat → Dinode} {t : FileTree}
  {N : Nat → Option Node} {B : Budget} {g : Ghost} {xs : List (Nat × Nat)} {L : Finset Nat}
  {r : Nat → Nat} {k : Nat}

/-! ### From rest to rest -/

section
variable (h : RestingAt pid a D t)
include h

theorem RestingAt.all {e : Nat} (he : a.Refers e i) : t.node i ≠ none := by
  refine h.alloc i fun h0 => ?_
  have hpos := he.ref
  rw [h.counts.ref e hpos, he.inum, h0] at hpos
  omega

/-- The free entries of the inode cache. -/
theorem RestingAt.le_freeEntries (hroom : t.Room k) : k ≤ freeEntries a := by
  obtain ⟨S, hS, hcard⟩ := hroom
  have hsum := Finset.card_filter_add_card_filter_not (s := Finset.range nInode)
    (p := fun e => (a.inode e).ref = 0)
  have hle : ((Finset.range nInode).filter fun e => ¬ (a.inode e).ref = 0).card ≤ S.card := by
    refine Finset.card_le_card_of_injOn (fun e => (a.inode e).inum) (fun e he => ?_)
      fun e he e' he' heq => ?_
    all_goals simp only [Finset.coe_filter, Set.mem_ofPred_eq] at he
    · have hpos : 0 < (a.inode e).ref := lt_of_le_of_ne (h.intact.entries.nonneg e) (Ne.symm he.2)
      refine hS _ fun h0 => ?_
      rw [h.counts.ref e hpos, h0] at hpos
      omega
    · simp only [Finset.coe_filter, Set.mem_ofPred_eq] at he'
      exact h.intact.consistent.unique e
        e' (lt_of_le_of_ne (h.intact.entries.nonneg e) (Ne.symm he.2))
        (lt_of_le_of_ne (h.intact.entries.nonneg e') (Ne.symm he'.2)) heq
  rw [Finset.card_range] at hsum
  rw [freeEntries]
  omega

theorem RestingAt.sectors : a.log.sectors = ∅ := by
  rw [Log.sectors, h.empty, Finset.range_zero, Finset.image_empty]

/-- The session at its start. -/
theorem RestingAt.start :
    Session a a t.node ⟨{(superOf a.bufs.data).bitmapStart}, ∅, t.spare, false⟩ [] ∅ :=
  ⟨⟨D, {(superOf a.bufs.data).bitmapStart}, 0⟩,
    ⟨h.intact.entries.nonneg, .refl h.intact.entries h.unlocked, nofun, nofun, h.intact,
      ⟨fun i hi => absurd (h.empty ▸ hi) (Nat.not_lt_zero i),
        h.sectors ▸ Finset.empty_subset _, by simp,
      h.standard.size, h.standard.single, Finset.mem_singleton_self _⟩, subset_rfl, nofun,
      Nat.zero_le _, h.spare,
    h.idle, fun _ => h.empty, h.held, rfl⟩, h.node⟩

/-- The session at its start, with a budget. -/
theorem RestingAt.session (hbitmap : (superOf a.bufs.data).bitmapStart ∈ B.sectors)
    (hcard : B.sectors.card + B.slots.card ≤ 7)
    (hneed : B.reserve + lacking t.node B.slots ≤ t.spare) (htrans : B.trans = false) :
    Session a a t.node B [] ∅ :=
  h.start.regrow (h.sectors ▸ Finset.empty_subset _) hbitmap hcard hneed htrans

end

/-- The entries of the inode cache after references have been taken. -/
theorem Counts.session (h : Counts a r) (hs : SessionAt a b g B xs L) :
    Counts b fun i => r i + (xs.map Prod.snd).count i := by
  have hold : ∀ e, 0 < (a.inode e).ref → b.Refers e (a.inode e).inum := fun e he =>
    Session.refers_of_base ⟨g, hs, rfl⟩ he
  have hcount : ∀ e, 0 < (b.inode e).ref → (xs.map Prod.fst).count e =
      (xs.map Prod.snd).count (b.inode e).inum := by
    intro e he
    rw [List.count, List.count, List.countP_map, List.countP_map]
    refine List.countP_congr fun x hx => ?_
    simp only [Function.comp_apply, beq_iff_eq]
    constructor
    · rintro rfl
      exact (hs.names x hx).symm
    · intro heq
      have hx' : b.Refers x.1 x.2 := hs.refers hx
      exact hs.intact.consistent.unique x.1 e hx'.ref he (hx'.inum.trans heq)
  refine ⟨fun e he => ?_, fun i hi => ?_⟩
  · have href := hs.handles.ref e
    rw [hcount e he] at href
    rw [href]
    rcases (hs.nonneg e).lt_or_eq with hpos | hzero
    · rw [h.ref e hpos, (hold e hpos).inum]
      push_cast
      rfl
    · have hr : r (b.inode e).inum = 0 := by
        by_contra hne
        obtain ⟨e', he'⟩ := h.entry _ hne
        have hb := hold e' he'.ref
        obtain rfl := hs.intact.consistent.unique e' e hb.ref he (hb.inum.trans he'.inum)
        have := he'.ref
        omega
      rw [← hzero, hr]
      push_cast
      rfl
  · by_cases hr : r i = 0
    · have hpos : 0 < (xs.map Prod.snd).count i := by omega
      obtain ⟨x, hx, rfl⟩ := List.mem_map.1 (List.count_pos_iff.1 hpos)
      exact ⟨x.1, hs.refers hx⟩
    · obtain ⟨e, he⟩ := h.entry i hr
      have hb := hold e he.ref
      exact ⟨e, hb.ref, hb.inum.trans he.inum⟩

theorem FsState.ShowsFile.tables {x : File} {o : OpenFile} (h : a.ShowsFile x o)
    (file : Nat → File) (openfiles : Nat → Nat → Option Nat) :
    FsState.ShowsFile { a with file, openfiles } x o :=
  { h with opens := ⟨h.opens.ref, h.opens.valid, h.opens.inum⟩ }

/-- The open files stay. -/
theorem FsState.ShowsFile.session {x : File} {o : OpenFile} (h : a.ShowsFile x o)
    (hs : Session a b N B xs L) :
    b.ShowsFile x o := by
  have hb := hs.refers_of_base h.opens.ref
  obtain ⟨g, hs, -⟩ := hs
  exact { h with
    opens := ⟨hb.ref, hs.handles.valid _ h.opens.ref h.opens.valid, hb.inum.trans h.opens.inum⟩ }

theorem RestingAt.ref_eq_zero_iff (h : RestingAt pid a D t) {f : Nat} :
    (a.file f).ref = 0 ↔ t.file f = none := by
  refine ⟨fun h0 => ?_, h.closed f⟩
  by_contra hne
  obtain ⟨o, ho⟩ := Option.ne_none_iff_exists'.1 hne
  have := (h.file f o ho).2.ref
  omega

/-- A session comes to rest. -/
theorem Session.resting (h : Session a b t.node B xs ∅) (htrans : B.trans = false)
    (hc : Counts a r) (href : ∀ i, t.ref i = r i + (xs.map Prod.snd).count i)
    (halloc : ∀ i, t.ref i ≠ 0 → t.node i ≠ none)
    (hninodes : (superOf a.bufs.data).ninodes.toNat = t.ninodes) (hspare : t.spare ≤ B.reserve)
    (hclosed : ∀ f, t.file f = none → (b.file f).ref = 0)
    (hfile : ∀ f o, t.file f = some o → f < nFile ∧ b.ShowsFile (b.file f) o)
    (hopen : b.openfiles = t.openfiles) (hcwd : a.Refers (a.cwd pid) t.cwd)
    (hbase : t.base t.cwd ≠ 0) : Resting pid b t := by
  have hpwd := h.refers_of_base hcwd.ref
  obtain ⟨g, h, hnode⟩ := h
  have hreserve := h.reserve
  refine ⟨g.D, h.intact, hnode, fun e he => ?_, h.held, h.trans.trans htrans, h.idle htrans,
    ⟨h.fits.size, h.fits.single⟩, h.super ▸ hninodes, by
    omega, ?_, halloc, hclosed, hfile, hopen, ?_, hbase⟩
  · rw [h.handles.busy e he]
    rfl
  · rw [funext href]
    exact hc.session h
  · rw [h.handles.cwd]
    exact ⟨hpwd.ref, hpwd.inum.trans hcwd.inum⟩

/-- A session comes to rest with the tables as before. -/
theorem Session.resting_same {s : Nat} (h : Session a b N B [] ∅) (h0 : RestingAt pid a D t)
    (htrans : B.trans = false) (halloc : ∀ i, t.ref i ≠ 0 → N i ≠ none) (hspare : s ≤ B.reserve) :
    Resting pid b { t with node := N, spare := s } := by
  have htab := h.tables_eq
  refine Session.resting (r := t.ref) h htrans h0.counts (fun i => (Nat.add_zero (t.ref i)).symm)
    halloc h0.ninodes hspare ?_ ?_ (htab.2.trans h0.openfiles) h0.cwd h0.base <;> rw [htab.1]
  · exact h0.closed
  · exact fun f o ho => ⟨(h0.file f o ho).1, (h0.file f o ho).2.session h⟩

end

end MCertikos
