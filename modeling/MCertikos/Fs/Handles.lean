import MCertikos.Fs.Mount

/-!
# References to inodes

What `inode_get`, `inode_dup`, `inode_unlock` and `inode_put` do to a volume: they change one entry
of the inode cache. An entry is in use while its reference count is positive. `inode_put` frees an
inode only with the last reference to a valid entry without links; the rule for the other case is
here.
-/

namespace MCertikos

open Program

/-- The entries in use are in the table, and are for the one disk. -/
structure Entries {B : Type} (a : FsState B) : Prop where
  nonneg : ∀ e, 0 ≤ (a.inode e).ref
  range : ∀ e, 0 < (a.inode e).ref → e < nInode
  dev : ∀ e, 0 < (a.inode e).ref → (a.inode e).dev = rootDev

/-- What `inode_get` for the inode `i` finds at `ip` becomes `x`: the entry for this inode, with
one more reference, or a free entry that is made one for it. -/
structure Gets {B : Type} (a : FsState B) (i ip : Nat) (x : Inode) : Prop where
  lt : ip < nInode
  inum : x.inum = i
  dev : x.dev = rootDev
  ref : x.ref = (a.inode ip).ref + 1
  old : 0 < (a.inode ip).ref →
    x = { a.inode ip with ref := (a.inode ip).ref + 1 } ∧ (a.inode ip).inum = i
  new : (a.inode ip).ref = 0 → x.busy = false ∧ x.valid = false ∧
    ∀ e, 0 < (a.inode e).ref → (a.inode e).inum ≠ i

section
variable {A : Allow} {pid ip i e : Nat} {a a' : FsState Vol} {D : Nat → Dinode} {x : Inode}
  {Q : Unit → FsState Vol → Prop}

/-! ## What stays -/

theorem Entries.of_eq (h : Entries a)
    (hsame : ∀ e, (a'.inode e).ref = (a.inode e).ref ∧ (a'.inode e).dev = (a.inode e).dev) :
    Entries a' :=
  ⟨fun e => (hsame e).1 ▸ h.nonneg e, fun e he => h.range e ((hsame e).1 ▸ he),
    fun e he => (hsame e).2.trans (h.dev e ((hsame e).1 ▸ he))⟩

/-- An entry that stays for the same inode, with as many references. -/
theorem FsState.setEntry_same (href : x.ref = (a.inode ip).ref)
    (hdev : x.dev = (a.inode ip).dev) (e : Nat) :
    ((a.setEntry ip x).inode e).ref = (a.inode e).ref ∧ ((a.setEntry ip x).inode e).dev =
    (a.inode e).dev := by
  rcases eq_or_ne e ip with rfl | hne
  · rw [setEntry_self]
    exact ⟨href, hdev⟩
  · rw [setEntry_of_ne hne]
    exact ⟨rfl, rfl⟩

theorem Entries.of_frame (h : Entries a) (hf : a.Frame ip a') : Entries a' := by
  refine h.of_eq fun e => ⟨(hf.same e).1, ?_⟩
  rcases eq_or_ne e ip with rfl | hne
  · obtain ⟨din, hd⟩ := hf.entry
    rw [hd]
  · rw [hf.inode e hne]

theorem Entries.setEntry (h : Entries a) (hn : 0 ≤ x.ref) (hr : 0 < x.ref → ip < nInode)
    (hd : 0 < x.ref → x.dev = rootDev) : Entries (a.setEntry ip x) := by
  refine ⟨fun e => ?_, fun e he => ?_, fun e he => ?_⟩ <;> rcases eq_or_ne e ip with rfl | hne
  · rwa [FsState.setEntry_self]
  · rw [FsState.setEntry_of_ne hne]
    exact h.nonneg e
  · rw [FsState.setEntry_self] at he
    exact hr he
  · rw [FsState.setEntry_of_ne hne] at he
    exact h.range e he
  · rw [FsState.setEntry_self] at he ⊢
    exact hd he
  · rw [FsState.setEntry_of_ne hne] at he ⊢
    exact h.dev e he

/-- An entry that stays for the same inode, with fewer or as many rights to be used. -/
theorem Tracks.keepEntry (h : Tracks a D) (hinum : x.inum = (a.inode ip).inum)
    (hdin : x.valid = true → x.din = (a.inode ip).din ∧ (a.inode ip).valid = true)
    (href : 0 < x.ref → 0 < (a.inode ip).ref) : Tracks (a.setEntry ip x) D := by
  refine h.setEntry (fun hr hv => ?_) fun e hne hr he hi => hne (h.unique e ip he (href hr) ?_)
  · obtain ⟨hd, hv'⟩ := hdin hv
    rw [hd, hinum]
    exact h.cached ip _ ⟨href hr, hv', rfl⟩
  · rw [hi, hinum]

theorem Consistent.keepEntry (h : Consistent a D) (hinum : x.inum = (a.inode ip).inum)
    (hdin : x.valid = true → x.din = (a.inode ip).din ∧ (a.inode ip).valid = true)
    (href : 0 < x.ref → 0 < (a.inode ip).ref) : Consistent (a.setEntry ip x) D :=
  ⟨h.toTracks.keepEntry hinum hdin href, h.full⟩

theorem Gets.tracks (hg : Gets a i ip x) (he : Entries a) (h : Tracks a D) :
    Tracks (a.setEntry ip x) D := by
  rcases (he.nonneg ip).lt_or_eq with hpos | hzero
  · obtain ⟨rfl, -⟩ := hg.old hpos
    exact h.keepEntry rfl (fun hv => ⟨rfl, hv⟩) fun _ => hpos
  · obtain ⟨-, hvalid, hno⟩ := hg.new hzero.symm
    refine h.setEntry (fun _ hv => absurd (hvalid.symm.trans hv) nofun) fun e _ _ hr => ?_
    rw [hg.inum]
    exact hno e hr

theorem Gets.consistent (hg : Gets a i ip x) (he : Entries a) (h : Consistent a D) :
    Consistent (a.setEntry ip x) D := ⟨hg.tracks he h.toTracks, h.full⟩

theorem Gets.entries (hg : Gets a i ip x) (he : Entries a) : Entries (a.setEntry ip x) := by
  refine he.setEntry ?_ (fun _ => hg.lt) fun _ => hg.dev
  have := he.nonneg ip
  rw [hg.ref]
  omega

/-- The entries after the boot. -/
theorem entries_mounted {d : Disk} : Entries (mounted d) := by
  refine ⟨fun e => ?_, fun e he => ?_, fun e he => ?_⟩
  · rcases eq_or_ne e 0 with rfl | hne
    · exact Int.natCast_nonneg _
    · simp [mounted, FsState.booted, FsState.zeroed, hne]
  · rw [mounted_ref he]
    decide
  · rw [mounted_ref he]
    rfl

/-! ## The rules -/

/-- `inode_get` finds the entry for the inode or makes one, unless the table is full. -/
theorem vwp_inodeGet {Q : Nat → FsState Vol → Prop} (he : Entries a)
    (hfull : A.panic .getNoInodes ∨ ∃ e < nInode, (a.inode e).ref = 0 ∨ 0 < (a.inode e).ref ∧
      (a.inode e).inum = i)
    (hQ : ∀ ip x, Gets a i ip x → Q ip (a.setEntry ip x)) :
    vwp A pid (inodeGet rootDev i) Q a := by
  refine vwp_mem (o := .inodeGet rootDev i) trivial ?_
  simp only [fsHandler, InodeCache.inodeGet]
  cases hscan : a.inode.scan rootDev i (List.range nInode) none with
  | hit ip =>
    obtain ⟨hmem, hpos, hdev, hinum⟩ := InodeCache.scan_hit hscan
    exact hQ ip _ ⟨List.mem_range.1 hmem, hinum, hdev, rfl, fun _ => ⟨rfl, hinum⟩,
      fun h0 => by omega⟩
  | empty ip =>
    obtain ⟨hno, hip⟩ := InodeCache.scan_empty hscan
    obtain ⟨hmem, hzero⟩ := hip.resolve_left (by simp)
    refine hQ ip _ ⟨List.mem_range.1 hmem, rfl, rfl, by
      rw [hzero]; rfl, fun hpos => by omega, fun _ =>
      ⟨rfl, rfl, fun e hr hi => hno e (List.mem_range.2 (he.range e hr)) ⟨hr, he.dev e hr, hi⟩⟩⟩
  | full =>
    refine hfull.resolve_right ?_
    rintro ⟨e, hlt, hzero | ⟨hpos, hinum⟩⟩
    · exact ((InodeCache.scan_full hscan).2 e (List.mem_range.2 hlt)).1 hzero
    · exact ((InodeCache.scan_full hscan).2 e (List.mem_range.2 hlt)).2
        ⟨hpos, he.dev e hpos, hinum⟩

theorem vwp_inodeDup (hQ : Q () (a.setEntry ip { a.inode ip with ref := (a.inode ip).ref + 1 })) :
    vwp A pid (inodeDup ip) Q a := vwp_mem (o := .inodeDup ip) trivial hQ

theorem vwp_inodeUnlock (hbusy : (a.inode ip).busy = true) (href : 0 < (a.inode ip).ref)
    (hQ : Q () (a.setEntry ip { a.inode ip with busy := false })) :
    vwp A pid (inodeUnlock ip) Q a := by
  refine vwp_mem (o := .inodeUnlock ip) trivial ?_
  simp only [fsHandler, FsState.inodeUnlock]
  rw [if_neg (by rw [hbusy]; simp; omega)]
  exact hQ

/-- `inode_put` with a reference that is not the last one to an inode without links. -/
theorem vwp_inodePut_keep (hlast : ¬ a.inode.Last ip)
    (hQ : Q () (a.setEntry ip { a.inode ip with ref := (a.inode ip).ref - 1 })) :
    vwp A pid (inodePut ip) Q a := by
  refine vwp_bind (vwp_mem (o := .inodePutTest ip) trivial ?_)
  simp only [fsHandler, FsState.inodePutTest]
  rw [if_neg hlast]
  exact vwp_pure hQ

/-! ## A reference that is taken and dropped again -/

/-- The states differ at most in the entries of the inode cache that are not in use. -/
structure FsState.Same (a a' : FsState Vol) : Prop where
  bufs : a'.bufs = a.bufs
  log : a'.log = a.log
  file : a'.file = a.file
  openfiles : a'.openfiles = a.openfiles
  cwd : a'.cwd = a.cwd
  ref : ∀ e, (a'.inode e).ref = (a.inode e).ref
  entry : ∀ e, 0 < (a.inode e).ref → a'.inode e = a.inode e

theorem FsState.Same.opens_iff (h : a.Same a') : a'.Opens e i ↔ a.Opens e i := by
  constructor
  · intro ho
    have hr : 0 < (a.inode e).ref := h.ref e ▸ ho.ref
    have hent := h.entry e hr
    exact ⟨hr, hent ▸ ho.valid, hent ▸ ho.inum⟩
  · intro ho
    have hent := h.entry e ho.ref
    exact ⟨hent ▸ ho.ref, hent ▸ ho.valid, hent ▸ ho.inum⟩

theorem FsState.Same.entries (h : a.Same a') (he : Entries a) : Entries a' := by
  refine ⟨fun e => h.ref e ▸ he.nonneg e, fun e hr => he.range e (h.ref e ▸ hr), fun e hr => ?_⟩
  have hr' : 0 < (a.inode e).ref := h.ref e ▸ hr
  rw [h.entry e hr']
  exact he.dev e hr'

theorem FsState.Same.tracks (h : a.Same a') (hc : Tracks a D) : Tracks a' D where
  geo := by
    rw [h.bufs, h.log]
    exact hc.geo
  owned := h.bufs ▸ hc.owned
  disk := h.bufs ▸ hc.disk
  cached e j he := by
    have ho := h.opens_iff.1 he
    rw [h.entry e ho.ref]
    exact hc.cached e j ho
  unique e e' hr hr' hi := by
    rw [h.ref] at hr hr'
    rw [h.entry e hr, h.entry e' hr'] at hi
    exact hc.unique e e' hr hr' hi

/-- The reference that `inode_get` has just taken is never the last one to a valid entry. -/
theorem Gets.not_last (hg : Gets a i ip x) : ¬ (a.setEntry ip x).inode.Last ip := by
  rintro ⟨hr, hv, -⟩
  rw [FsState.setEntry_self] at hr hv
  rw [hg.ref] at hr
  have hzero : (a.inode ip).ref = 0 := by omega
  exact absurd ((hg.new hzero).2.1.symm.trans hv) nofun

/-- After it is dropped, the entries in use are as before. -/
theorem Gets.same (hg : Gets a i ip x) :
    a.Same ((a.setEntry ip x).setEntry ip { x with ref := x.ref - 1 }) := by
  have href : x.ref - 1 = (a.inode ip).ref := by
    rw [hg.ref]
    omega
  refine ⟨rfl, rfl, rfl, rfl, rfl, fun e => ?_, fun e he => ?_⟩ <;> rcases eq_or_ne e
    ip with rfl | hne
  · rw [FsState.setEntry_self]
    exact href
  · rw [FsState.setEntry_of_ne hne, FsState.setEntry_of_ne hne]
  · rw [FsState.setEntry_self, href, (hg.old he).1]
  · rw [FsState.setEntry_of_ne hne, FsState.setEntry_of_ne hne]

/-- `inode_put` of the reference that `inode_get` has just taken. -/
theorem vwp_inodePut_got (hg : Gets a i ip x) (hQ : ∀ a', a.Same a' → Q () a') :
    vwp A pid (inodePut ip) Q (a.setEntry ip x) := by
  refine vwp_inodePut_keep hg.not_last (hQ _ ?_)
  rw [FsState.setEntry_self]
  exact hg.same

/-! ## References that are taken on the way -/

/-- The state `b` comes from `a`, with further references, one for each entry of the inode cache in
`xs`, and with the locks of the entries in `L` taken. Inodes may have been read from the disk, and
the disk may have changed. -/
structure Handles (a b : FsState Vol) (xs : List Nat) (L : Finset Nat) : Prop where
  entries : Entries b
  file : b.file = a.file
  openfiles : b.openfiles = a.openfiles
  cwd : b.cwd = a.cwd
  ref : ∀ e, (b.inode e).ref = (a.inode e).ref + xs.count e
  inum : ∀ e, 0 < (a.inode e).ref → (b.inode e).inum = (a.inode e).inum
  valid : ∀ e, 0 < (a.inode e).ref → (a.inode e).valid = true → (b.inode e).valid = true
  busy : ∀ e, 0 < (b.inode e).ref → (b.inode e).busy = decide (e ∈ L)

namespace Handles

variable {b b' : FsState Vol} {xs xs' : List Nat} {L L' : Finset Nat} {j : Nat}

theorem refl (he : Entries a) (hfree : ∀ e, 0 < (a.inode e).ref → (a.inode e).busy = false) :
    Handles a a [] ∅ :=
  ⟨he, rfl, rfl, rfl, fun _ => (Int.add_zero _).symm, fun _ _ => rfl, fun _ _ h => h, hfree⟩

section
variable (h : Handles a b xs L)
include h

theorem ref_pos (hn : 0 ≤ (a.inode ip).ref) (hip : ip ∈ xs) : 0 < (b.inode ip).ref := by
  have := List.count_pos_iff.2 hip
  rw [h.ref]
  omega

/-- Only the buffers and the log have changed. -/
theorem congr (hinode : b'.inode = b.inode) (hfile : b'.file = b.file)
    (hopen : b'.openfiles = b.openfiles) (hcwd : b'.cwd = b.cwd) : Handles a b' xs L := by
  refine ⟨h.entries.of_eq fun e => ?_, hfile.trans h.file, hopen.trans h.openfiles,
    hcwd.trans h.cwd, ?_, ?_, ?_, ?_⟩
  · rw [hinode]
    exact ⟨rfl, rfl⟩
  all_goals rw [hinode]
  · exact h.ref
  · exact h.inum
  · exact h.valid
  · exact h.busy

/-- The inode of an entry has changed. -/
theorem frame (hf : b.Frame ip b') : Handles a b' xs L := by
  have hbusy : ∀ e, (b'.inode e).busy = (b.inode e).busy := fun e => by
    rcases eq_or_ne e ip with rfl | hne
    · obtain ⟨din, hdin⟩ := hf.entry
      rw [hdin]
    · rw [hf.inode e hne]
  refine ⟨h.entries.of_frame hf, hf.file.trans h.file, hf.openfiles.trans h.openfiles,
    hf.cwd.trans h.cwd, fun e => ?_, fun e hr => ?_, fun e hr hv => ?_, fun e hr => ?_⟩ <;>
    obtain ⟨href, hvalid, hinum⟩ := hf.same e
  · rw [href, h.ref]
  · rw [hinum, h.inum e hr]
  · rw [hvalid, h.valid e hr hv]
  · rw [hbusy, h.busy e (href ▸ hr)]

/-- An entry is changed, but stays for the same inode. -/
theorem setEntry (he : Entries (b.setEntry ip x))
    (href : ∀ e, ((b.setEntry ip x).inode e).ref = (a.inode e).ref + xs'.count e)
    (hinum : 0 < (a.inode ip).ref → x.inum = (b.inode ip).inum)
    (hvalid : 0 < (a.inode ip).ref → (b.inode ip).valid = true → x.valid = true)
    (hbusy : 0 < x.ref → x.busy = decide (ip ∈ L'))
    (hlock : ∀ e ≠ ip, 0 < (b.inode e).ref → (e ∈ L' ↔ e ∈ L)) :
    Handles a (b.setEntry ip x) xs' L' := by
  refine ⟨he, h.file, h.openfiles, h.cwd, href, fun e hr => ?_, fun e hr hv => ?_,
    fun e hr => ?_⟩ <;> rcases eq_or_ne e ip with rfl | hne
  · rw [FsState.setEntry_self, hinum hr, h.inum e hr]
  · rw [FsState.setEntry_of_ne hne, h.inum e hr]
  · rw [FsState.setEntry_self, hvalid hr (h.valid e hr hv)]
  · rw [FsState.setEntry_of_ne hne, h.valid e hr hv]
  · rw [FsState.setEntry_self] at hr ⊢
    exact hbusy hr
  · rw [FsState.setEntry_of_ne hne] at hr ⊢
    rw [h.busy e hr, decide_eq_decide]
    exact (hlock e hne hr).symm

theorem gets (hg : Gets b j ip x) (hL : ∀ e ∈ L, 0 < (b.inode e).ref) :
    Handles a (b.setEntry ip x) (ip :: xs) L := by
  have hpos : 0 < (a.inode ip).ref → 0 < (b.inode ip).ref := fun hr => by
    rw [h.ref]
    omega
  refine h.setEntry (hg.entries h.entries) (fun e => ?_) (fun hr => ?_)
    (fun hr hv => ?_) (fun _ => ?_) fun _ _ _ => Iff.rfl
  · rcases eq_or_ne e ip with rfl | hne
    · rw [FsState.setEntry_self, hg.ref, h.ref, List.count_cons_self]
      omega
    · rw [FsState.setEntry_of_ne hne, h.ref, List.count_cons_of_ne hne.symm]
  · rw [(hg.old (hpos hr)).1]
  · rw [(hg.old (hpos hr)).1]
    exact hv
  · rcases (h.entries.nonneg ip).lt_or_eq with hpos | hzero
    · rw [(hg.old hpos).1]
      exact h.busy ip hpos
    · rw [(hg.new hzero.symm).1]
      refine (decide_eq_false fun hl => ?_).symm
      have := hL ip hl
      omega

/-- An entry that is in use gets another number of references. -/
theorem setRef {r : Int} (hpos : 0 < (b.inode ip).ref) (hr : 0 ≤ r)
    (hself : r = (a.inode ip).ref + xs'.count ip) (hothers : ∀ e ≠ ip, xs'.count e = xs.count e) :
    Handles a (b.setEntry ip { b.inode ip with ref := r }) xs' L := by
  refine h.setEntry (h.entries.setEntry hr (fun _ => h.entries.range ip hpos) fun _ =>
    h.entries.dev ip hpos) (fun e => ?_) (fun _ => rfl) (fun _ hv => hv) (fun _ => h.busy ip hpos)
      fun _ _ _ => Iff.rfl
  rcases eq_or_ne e ip with rfl | hne
  · rw [FsState.setEntry_self, hself]
  · rw [FsState.setEntry_of_ne hne, h.ref, hothers e hne]

theorem dup (hpos : 0 < (b.inode ip).ref) :
    Handles a (b.setEntry ip { b.inode ip with ref := (b.inode ip).ref + 1 }) (ip :: xs) L := by
  refine h.setRef hpos (by omega) ?_ fun e hne => List.count_cons_of_ne hne.symm
  rw [h.ref, List.count_cons_self]
  omega

theorem lockInode (ip : Nat) (din : Dinode) : Handles a (b.lockInode ip din) xs (insert ip L) := by
  have hsame := FsState.setEntry_same (a := b)
    (x := { b.inode ip with busy := true, valid := true, din }) rfl rfl
  refine h.setEntry (h.entries.of_eq hsame) (fun e => ?_) (fun _ => rfl) (fun _ _ => rfl)
    (fun _ => (decide_eq_true (Finset.mem_insert_self ip L)).symm) fun e hne _ => ?_
  · rw [(hsame e).1, h.ref]
  · rw [Finset.mem_insert, or_iff_right hne]

theorem unlock (ip : Nat) :
    Handles a (b.setEntry ip { b.inode ip with busy := false }) xs (L.erase ip) := by
  have hsame := FsState.setEntry_same (a := b) (x := { b.inode ip with busy := false }) rfl rfl
  refine h.setEntry (h.entries.of_eq hsame) (fun e => ?_) (fun _ => rfl) (fun _ hv => hv)
    (fun _ => (decide_eq_false (Finset.notMem_erase ip L)).symm) fun e hne _ => ?_
  · rw [(hsame e).1, h.ref]
  · rw [Finset.mem_erase, and_iff_right hne]

theorem put (hpos : 0 < (b.inode ip).ref) (hip : ip ∈ xs) :
    Handles a (b.setEntry ip { b.inode ip with ref := (b.inode ip).ref - 1 }) (xs.erase ip) L := by
  have := List.count_pos_iff.2 hip
  refine h.setRef hpos (by omega) ?_ fun e hne => List.count_erase_of_ne hne
  rw [h.ref, List.count_erase_self]
  omega

end

end Handles

end

end MCertikos
