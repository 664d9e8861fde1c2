import MCertikos.Fs.Directory
import MCertikos.Lib.Transition

/-!
# A directory is a finite map

The live entries of a directory are a finite map from names to inode numbers. `dir_lookup`
evaluates the map, `dir_link` extends it, and the part of `sys_unlink` that clears an entry removes
a name from it (`DirAct.Spec`). This holds after any sequence of these operations, each in a
transaction of its own (`directory_finite_map`). Names are the strings that `dir_namecmp` compares,
of at most 14 bytes.
-/

namespace MCertikos

open Program BitField Transition

/-! ## Names -/

section
variable {name name' : List Byte}

theorem takeWhile_of_forall {l : List Byte} (h : ∀ c ∈ l, c ≠ 0) : l.takeWhile (· ≠ 0) = l := by
  have hnil : (l ++ []).takeWhile (· ≠ (0 : Byte)) = l ++ [] :=
    List.takeWhile_append_of_pos fun c hc => decide_eq_true (h c hc)
  rwa [List.append_nil] at hnil

theorem cstr_eq_self (hlen : name.length ≤ dirSiz) (h : ∀ c ∈ name, c ≠ 0) : cstr name = name := by
  rw [cstr, List.take_of_length_le hlen, takeWhile_of_forall h]

theorem cstr_padName : cstr (padName name) = cstr name := by
  have hall : ∀ c ∈ cstr name, decide (c ≠ 0) = true :=
    fun c hc => List.all_eq_true.1 List.all_takeWhile c hc
  have hzero : (List.replicate (dirSiz - (cstr name).length) (0 : Byte)).takeWhile
      (· ≠ 0) = [] := by
    cases dirSiz - (cstr name).length with
    | zero => rfl
    | succ n => simp [List.replicate_succ]
  rw [cstr, List.take_of_length_le length_padName.le, padName,
    List.takeWhile_append_of_pos hall, hzero, List.append_nil]

theorem dirNamecmp_padName : dirNamecmp (padName name) name' = dirNamecmp name name' := by
  rw [dirNamecmp, dirNamecmp, cstr_padName]

theorem dirNamecmp_iff : dirNamecmp name name' = true ↔ cstr name = cstr name' :=
  decide_eq_true_iff

end

/-! ## The map -/

/-- The inode number of the first live entry with the name. -/
def lookupName (d : Disk) (din : Dinode) (name : List Byte) : Option Nat :=
  ((List.range (nDirents din)).find? fun k => (dirent d din k).Names name).map
    fun k => (dirent d din k).inum.toNat

/-- No two live entries have the same name. -/
structure DirOk (d : Disk) (din : Dinode) : Prop where
  size : DirSize din
  distinct : ∀ j < nDirents din, ∀ k < nDirents din, (dirent d din j).inum ≠ 0 →
    (dirent d din k).inum ≠ 0 → dirNamecmp (dirent d din j).name (dirent d din k).name → j = k

section
variable {d d' : Disk} {din : Dinode} {D D' : Nat → Dinode} {name : List Byte}
  {i k v : Nat} {de : Dirent}

theorem lookupName_eq_none :
    lookupName d din name = none ↔ ∀ k < nDirents din, ¬ (dirent d din k).Names name := by
  simp [lookupName, List.find?_eq_none]

theorem DirOk.eq_of_names (h : DirOk d din) {j : Nat} (hj : j < nDirents din)
    (hk : k < nDirents din) (hnj : (dirent d din j).Names name)
    (hnk : (dirent d din k).Names name) : j = k := by
  refine h.distinct j hj k hk hnj.2 hnk.2 (dirNamecmp_iff.2 ?_)
  rw [dirNamecmp_iff.1 hnj.1, dirNamecmp_iff.1 hnk.1]

theorem DirOk.lookupName_eq_some (h : DirOk d din) : lookupName d din name = some v ↔
    ∃ k < nDirents din, (dirent d din k).Names name ∧ (dirent d din k).inum.toNat = v := by
  rw [lookupName, Option.map_eq_some_iff]
  constructor
  · rintro ⟨k, hk, hv⟩
    exact ⟨k, List.mem_range.1 (List.mem_of_find?_eq_some hk), by
      simpa using List.find?_some hk, hv⟩
  · rintro ⟨k, hk, hnames, hv⟩
    cases hfind : (List.range (nDirents din)).find? fun k => (dirent d din k).Names name with
    | none =>
      have := List.find?_eq_none.1 hfind k (List.mem_range.2 hk)
      simp [hnames] at this
    | some j =>
      have hj := List.mem_range.1 (List.mem_of_find?_eq_some hfind)
      have hnj : (dirent d din j).Names name := by simpa using List.find?_some hfind
      exact ⟨j, rfl, h.eq_of_names hj hk hnj hnames ▸ hv⟩

/-- The entries after one of them is written. -/
theorem EntrySet.exists_iff (h : EntrySet i k de d D d' D') (hk : k ≤ nDirents (D i))
    {P : Dirent → Prop} :
    (∃ j < nDirents (D' i), P (dirent d' (D' i) j)) ↔
      P de ∨ ∃ j < nDirents (D i), j ≠ k ∧ P (dirent d (D i) j) := by
  have hcount := h.count
  constructor
  · rintro ⟨j, hj, hP⟩
    rw [h.entry j hj] at hP
    split at hP
    · exact .inl hP
    · exact .inr ⟨j, by omega, ‹_›, hP⟩
  · rintro (hP | ⟨j, hj, hne, hP⟩)
    · exact ⟨k, by omega, by rwa [h.entry k (by omega), if_pos rfl]⟩
    · exact ⟨j, by omega, by rwa [h.entry j (by omega), if_neg hne]⟩

/-- An entry with a new name is written in the place of a free one, or behind the last one. -/
theorem EntrySet.dirOk (h : EntrySet i k de d D d' D') (hok : DirOk d (D i))
    (hk : k ≤ nDirents (D i)) (hnew : de.inum ≠ 0 → ∀ j < nDirents (D i), j ≠ k →
      (dirent d (D i) j).inum ≠ 0 →
      ¬ dirNamecmp (dirent d (D i) j).name de.name) : DirOk d' (D' i) := by
  have hcount := h.count
  refine ⟨h.size, fun j hj l hl hjn hln hcmp => ?_⟩
  rw [h.entry j hj] at hjn hcmp
  rw [h.entry l hl] at hln hcmp
  by_cases hjk : j = k <;> by_cases hlk : l = k
  · exact hjk.trans hlk.symm
  · rw [if_pos hjk] at hjn hcmp
    rw [if_neg hlk] at hln hcmp
    refine absurd (dirNamecmp_iff.2 (dirNamecmp_iff.1 hcmp).symm) (hnew hjn l (by omega) hlk hln)
  · rw [if_neg hjk] at hjn hcmp
    rw [if_pos hlk] at hln hcmp
    exact absurd hcmp (hnew hln j (by omega) hjk hjn)
  · rw [if_neg hjk] at hjn hcmp
    rw [if_neg hlk] at hln hcmp
    exact hok.distinct j (by omega) l (by omega) hjn hln hcmp

/-- A name that is not there is added. -/
theorem EntrySet.link (h :
    EntrySet i k { inum := BitVec.ofNat 16 v, name := padName name } d D d' D')
    (hok : DirOk d (D i))
    (hfree : IsFirst (fun j => (dirent d (D i) j).inum = 0) (nDirents (D i)) k)
    (hno : ∀ j < nDirents (D i), ¬ (dirent d (D i) j).Names name) (hv : 0 < v)
    (hlt : v < 2 ^ 16) :
    DirOk d' (D' i) ∧ ∀ n, lookupName d' (D' i) n =
      if dirNamecmp n name then some v else lookupName d (D i) n := by
  have hval : (BitVec.ofNat 16 v).toNat = v := toNat_ofNat_of_lt hlt
  have hok' : DirOk d' (D' i) := by
    refine h.dirOk hok hfree.le fun _ j hj _ hjn hcmp => hno j hj ⟨?_, hjn⟩
    rw [dirNamecmp_iff, cstr_padName] at hcmp
    exact dirNamecmp_iff.2 hcmp
  refine ⟨hok', fun n => Option.ext fun w => ?_⟩
  rw [hok'.lookupName_eq_some, h.exists_iff hfree.le (P := fun e => e.Names n ∧ e.inum.toNat = w)]
  split
  · next hcmp =>
    -- The entry is the new one, since no other one has the name.
    have hnew : Dirent.Names { inum := BitVec.ofNat 16 v, name := padName name } n := by
      refine ⟨?_, fun h0 => ?_⟩
      · rw [dirNamecmp_padName]
        exact dirNamecmp_iff.2 (dirNamecmp_iff.1 hcmp).symm
      · rw [show BitVec.ofNat 16 v = 0 from h0] at hval
        exact hv.ne hval
    rw [Option.some_inj]
    constructor
    · rintro (⟨-, hw⟩ | ⟨j, hj, -, hjn, -⟩)
      · exact hval.symm.trans hw
      · refine absurd ⟨?_, hjn.2⟩ (hno j hj)
        exact dirNamecmp_iff.2 ((dirNamecmp_iff.1 hjn.1).trans (dirNamecmp_iff.1 hcmp))
    · rintro rfl
      exact .inl ⟨hnew, hval⟩
  · next hcmp =>
    rw [hok.lookupName_eq_some]
    constructor
    · rintro (⟨⟨hname, -⟩, -⟩ | ⟨j, hj, -, hjn⟩)
      · rw [dirNamecmp_padName] at hname
        exact absurd (dirNamecmp_iff.2 (dirNamecmp_iff.1 hname).symm) hcmp
      · exact ⟨j, hj, hjn⟩
    · rintro ⟨j, hj, hjn⟩
      refine .inr ⟨j, hj, fun hjk => hjn.1.2 ?_, hjn⟩
      subst hjk
      exact hfree.hit hj

/-- A name is removed. -/
theorem EntrySet.unlink (h : EntrySet i k { inum := 0, name := List.replicate dirSiz 0 } d D d' D')
    (hok : DirOk d (D i)) (hk : k < nDirents (D i)) (hnames : (dirent d (D i) k).Names name) :
    DirOk d' (D' i) ∧ ∀ n, lookupName d' (D' i) n =
      if dirNamecmp n name then none else lookupName d (D i) n := by
  have hok' : DirOk d' (D' i) := h.dirOk hok hk.le fun h0 => absurd rfl h0
  refine ⟨hok', fun n => Option.ext fun w => ?_⟩
  rw [hok'.lookupName_eq_some, h.exists_iff hk.le (P := fun e => e.Names n ∧ e.inum.toNat = w)]
  split
  · next hcmp =>
    constructor
    · rintro (⟨⟨-, h0⟩, -⟩ | ⟨j, hj, hne, hjn, -⟩)
      · exact absurd rfl h0
      · refine absurd (hok.eq_of_names hj hk ⟨?_, hjn.2⟩ hnames) hne
        exact dirNamecmp_iff.2 ((dirNamecmp_iff.1 hjn.1).trans (dirNamecmp_iff.1 hcmp))
    · exact nofun
  · next hcmp =>
    rw [hok.lookupName_eq_some]
    constructor
    · rintro (⟨⟨-, h0⟩, -⟩ | ⟨j, hj, -, hjn⟩)
      · exact absurd rfl h0
      · exact ⟨j, hj, hjn⟩
    · rintro ⟨j, hj, hjn⟩
      refine .inr ⟨j, hj, fun hjk => hcmp ?_, hjn⟩
      subst hjk
      exact dirNamecmp_iff.2 ((dirNamecmp_iff.1 hjn.1.1).symm.trans (dirNamecmp_iff.1 hnames.1))

end

/-! ## Operations -/

/-- What is done to a directory. -/
inductive DirAct where
  /-- `dir_link`. -/
  | link (name : List Byte) (inum : Nat)
  /-- What `sys_unlink` does to the directory: the entry that `dir_lookup` finds is cleared. -/
  | unlink (name : List Byte)

namespace DirAct

/-- The code, for the directory at `dp`. The reference from `dir_lookup` is given back at the end.
Reference: `sys_unlink` (`kern/fs/sysfile.c:357`). -/
def code (dp : Nat) : DirAct → Fs Bool
  | .link name inum => dirLink dp name inum
  | .unlink name => do
    match ← dirLookup dp name with
    | none => return false
    | some (ip, off) =>
      let de : Dirent := { inum := 0, name := List.replicate dirSiz 0 }
      if (← inodeWrite dp de.toBytes (BitVec.ofNat 32 off)) ≠ some Dirent.size then
        kernPanic .unlinkWrite
      inodePut ip
      return true

/-- The operation in a transaction of its own, with the directory locked. -/
def transaction (dp : Nat) (act : DirAct) : Fs Bool := do
  beginTrans
  inodeLock dp
  let r ← act.code dp
  inodeUnlock dp
  commitTrans
  return r

/-- The inode numbers that an entry can hold. -/
def Valid : DirAct → Prop
  | .link _ inum => 0 < inum ∧ inum < 2 ^ 16
  | .unlink _ => True

/-- There is room for the entry: the directory is not full, and there are blocks enough. -/
def Room (act : DirAct) (d : Disk) (D : Nat → Dinode) (i : Nat) : Prop :=
  match act with
  | .link _ _ => ∀ k, IsFirst (fun j => (dirent d (D i) j).inum = 0) (nDirents (D i)) k →
    Dirent.size * k + Dirent.size ≤ maxFile * bSize ∧
      missing d D i (slotsOf (Dirent.size * k / bSize)) ≤ spare d
  | .unlink _ => True

/-- The operation on the map: `dir_link` fails and changes nothing if the name is there, and
otherwise adds it, in the first free entry if there is one; the other operation removes a name that
is there. -/
def Spec (act : DirAct) (i : Nat) (r : Bool) (d : Disk) (D : Nat → Dinode) (d' : Disk)
    (D' : Nat → Dinode) : Prop :=
  match act with
  | .link name inum =>
    (r = false ↔ lookupName d (D i) name ≠ none) ∧ (r = false → d' = d ∧ D' = D) ∧
    (r = true → (∀ n, lookupName d' (D' i) n = if dirNamecmp n name then
      some inum else lookupName d (D i) n) ∧ ∃ k, IsFirst (fun j => (dirent d (D i) j).inum = 0)
        (nDirents (D i)) k ∧ nDirents (D' i) = max (nDirents (D i)) (k + 1))
  | .unlink name =>
    (r = false ↔ lookupName d (D i) name = none) ∧ (r = false → d' = d ∧ D' = D) ∧
    (∀ n, lookupName d' (D' i) n = if dirNamecmp n name then none else lookupName d (D i) n) ∧
    nDirents (D' i) = nDirents (D i)

end DirAct

/-- The directory `i` is at the entry `dp` of the inode cache, and has a block for each of its
entries. -/
structure OpenDir (a : FsState Vol) (D : Nat → Dinode) (dp i : Nat) : Prop where
  tracks : Tracks a D
  full : Full a.bufs.data D i
  entries : Entries a
  ref : 0 < (a.inode dp).ref
  inum : (a.inode dp).inum = i
  alloc : Allocated (superOf a.bufs.data) D i
  type : (D i).type = tDir
  dir : DirOk a.bufs.data (D i)
  held : a.bufs.held = ∅

/-- No thread is at work. -/
structure IdleDir (a : FsState Vol) (D : Nat → Dinode) (dp i : Nat) :
    Prop extends OpenDir a D dp i where
  unlocked : (a.inode dp).busy = false
  idle : a.log.busy = false
  empty : a.log.n = 0

/-- Enough space in the log for a transaction on a directory. -/
structure LogRoom (a : FsState Vol) : Prop where
  few : a.log.n ≤ 7
  size : 9 ≤ a.log.size
  single : (superOf a.bufs.data).size.toNat ≤ bpb

/-- The directory is locked, in a transaction, with enough space in the log if this is needed. -/
structure LockedDir (A : Allow) (a : FsState Vol) (D : Nat → Dinode) (dp i : Nat) : Prop
    extends OpenDir a D dp i where
  valid : (a.inode dp).valid = true
  locked : (a.inode dp).busy = true
  trans : a.log.busy = true
  room : A.Lax ∨ LogRoom a

/-- Runs may stop when the inode cache is full, or it is not. -/
def CacheRoom (A : Allow) (a : FsState Vol) : Prop :=
  A.panic .getNoInodes ∨ ∃ e < nInode, (a.inode e).ref = 0

section
variable {pid dp i k : Nat} {a a' : FsState Vol} {D D' : Nat → Dinode} {A : Allow}

/-- The sectors of an entry of a directory. -/
def entrySectors (d : Disk) (D : Nat → Dinode) (i k : Nat) : Finset Nat :=
  insert (iblock i) (insert (superOf d).bitmapStart
    ((slotsOf (Dirent.size * k / bSize)).image (ptr d (D i))))

theorem card_slotsOf_le {bn : Nat} : (slotsOf bn).card ≤ 2 := by
  rw [slotsOf]
  split
  · simp
  · exact Finset.card_le_two

theorem missing_le_two {d : Disk} {bn : Nat} : missing d D i (slotsOf bn) ≤ 2 :=
  (Finset.card_filter_le _ _).trans card_slotsOf_le

theorem card_entrySectors_le {d : Disk} : (entrySectors d D i k).card ≤ 4 := by
  refine (Finset.card_insert_le _ _).trans (Nat.succ_le_succ ((Finset.card_insert_le _ _).trans
    (Nat.succ_le_succ ?_)))
  exact Finset.card_image_le.trans card_slotsOf_le

theorem IsFirst.exists (P : Nat → Prop) (n : Nat) : ∃ k, IsFirst P n k := by
  classical
  induction n with
  | zero => exact ⟨0, le_rfl, nofun, nofun⟩
  | succ n ih =>
    obtain ⟨k, hk⟩ := ih
    rcases Nat.lt_or_eq_of_le hk.le with hlt | rfl
    · exact ⟨k, by omega, fun _ => hk.hit hlt, hk.miss⟩
    · by_cases hP : P k
      · exact ⟨k, by omega, fun _ => hP, hk.miss⟩
      · refine ⟨k + 1, le_rfl, fun h => by omega, fun j hj => ?_⟩
        rcases Nat.lt_succ_iff_lt_or_eq.1 hj with hlt | rfl
        · exact hk.miss j hlt
        · exact hP

theorem IsFirst.unique {P : Nat → Prop} {n j : Nat} (hj : IsFirst P n j)
    (hk : IsFirst P n k) : j = k := by
  rcases Nat.lt_trichotomy j k with hlt | rfl | hlt
  · exact absurd (hj.hit (by have := hk.le; omega)) (hk.miss j hlt)
  · rfl
  · exact absurd (hk.hit (by have := hj.le; omega)) (hj.miss k hlt)

namespace LockedDir

section
variable (h : LockedDir A a D dp i)
include h

/-- What is needed for a write of the entry `k`. -/
theorem fit (h0 : a.log.n = 0)
    (hm : missing a.bufs.data D i (slotsOf (Dirent.size * k / bSize)) ≤ spare a.bufs.data) :
    Fit A a ⟨D, entrySectors a.bufs.data D i k,
      missing a.bufs.data D i (slotsOf (Dirent.size * k / bSize))⟩ := by
  refine h.tracks.fit hm (h.room.imp id fun hr =>
    ⟨fun j hj => ?_, fun x hx => ?_, ?_, hr.size, hr.single, ?_⟩)
  · omega
  · obtain ⟨j, hj, -⟩ := Log.mem_sectors.1 hx
    omega
  · have := card_entrySectors_le (d := a.bufs.data) (D := D) (i := i) (k := k)
    have hle : missing a.bufs.data D i (slotsOf (Dirent.size * k / bSize)) ≤ 2 := missing_le_two
    dsimp only
    omega
  · exact Finset.mem_insert_of_mem (Finset.mem_insert_self _ _)

theorem opens : a.Opens dp i := ⟨h.ref, h.valid, h.inum⟩

theorem lists {U : Finset Nat} {m : Nat} : Lists A a ⟨D, U, m⟩ dp i := by
  refine ⟨h.opens, h.room.imp (fun hlax => hlax.1) fun hr => ?_, h.held, h.type,
    h.full, h.dir.size⟩
  rw [h.held, Finset.card_empty]
  have := hr.few
  have : nBuf = 10 := rfl
  omega

/-- What has to be said of the next state. -/
theorem next (ht : Tracks a' D') (hfull : Full a'.bufs.data D' i) (he : Entries a')
    (hentry : 0 < (a'.inode dp).ref ∧ (a'.inode dp).inum = (a.inode dp).inum ∧
      (a'.inode dp).valid = (a.inode dp).valid ∧ (a'.inode dp).busy = (a.inode dp).busy)
    (hsuper : superOf a'.bufs.data = superOf a.bufs.data) (htype : (D' i).type = (D i).type)
    (hdir : DirOk a'.bufs.data (D' i)) (hheld : a'.bufs.held = a.bufs.held)
    (hbusy : a'.log.busy = a.log.busy) (hroom : A.Lax ∨ LogRoom a') : LockedDir A a' D' dp i where
  tracks := ht
  full := hfull
  entries := he
  ref := hentry.1
  inum := hentry.2.1.trans h.inum
  alloc := by
    rw [Allocated, hsuper, htype]
    exact h.alloc
  type := htype.trans h.type
  dir := hdir
  held := hheld.trans h.held
  valid := hentry.2.2.1.trans h.valid
  locked := hentry.2.2.2.trans h.locked
  trans := hbusy.trans h.trans
  room := hroom

theorem same (hs : a.Same a') : LockedDir A a' D dp i := by
  have hent := hs.entry dp h.ref
  refine h.next (hs.tracks h.tracks) (hs.bufs ▸ h.full) (hs.entries h.entries) ?_
    (by rw [hs.bufs]) rfl (by rw [hs.bufs]; exact h.dir) (by rw [hs.bufs]) (by rw [hs.log])
    (h.room.imp id fun hr => ?_)
  · rw [hent]
    exact ⟨h.ref, rfl, rfl, rfl⟩
  · exact ⟨hs.log ▸ hr.few, hs.log ▸ hr.size, hs.bufs ▸ hr.single⟩

/-- Another reference is taken. -/
theorem gets {j ip : Nat} {x : Inode} (hg : Gets a j ip x) :
    LockedDir A (a.setEntry ip x) D dp i := by
  refine h.next (hg.tracks h.entries h.tracks) h.full (hg.entries h.entries) ?_
    rfl rfl h.dir rfl rfl (h.room.imp id fun hr => ⟨hr.few, hr.size, hr.single⟩)
  have href := h.ref
  rcases eq_or_ne dp ip with rfl | hne
  · rw [FsState.setEntry_self, (hg.old href).1]
    exact ⟨by dsimp only; omega, rfl, rfl, rfl⟩
  · rw [FsState.setEntry_of_ne hne]
    exact ⟨href, rfl, rfl, rfl⟩

/-- An entry is written. -/
theorem written {U : Finset Nat} {m : Nat} {off : BitVec 32} {src : List Byte} {g' : Ghost}
    (hw : Written A dp i off src a ⟨D, U, m⟩ a' g') (hdir : DirOk a'.bufs.data (g'.D i)) :
    LockedDir A a' g'.D dp i := by
  obtain ⟨href, hvalid, hinum⟩ := hw.frame.same dp
  refine h.next (hw.tracks h.tracks) hw.full (h.entries.of_frame hw.frame)
    ⟨href ▸ h.ref, hinum, hvalid, ?_⟩ hw.super (hw.type_eq i) hdir hw.frame.held hw.frame.busy
    (hw.fit.budget.imp id fun hf => ⟨?_, hf.size, hf.single⟩)
  · obtain ⟨din, hd⟩ := hw.frame.entry
    rw [hd]
  · have hcard := Finset.card_le_card hf.sectors
    rw [hf.distinct.card_sectors] at hcard
    have := hf.card
    omega

/-- A reference is dropped, and one is left. -/
theorem drop {ip : Nat} (hpos : 0 < (a.inode ip).ref) (hdp : dp = ip → 1 < (a.inode ip).ref) :
    LockedDir A (a.setEntry ip { a.inode ip with ref := (a.inode ip).ref - 1 }) D dp i := by
  refine h.next (h.tracks.keepEntry rfl (fun hv => ⟨rfl, hv⟩) fun _ => hpos) h.full
    (h.entries.setEntry (by dsimp only; omega) (fun _ => h.entries.range ip hpos)
      fun _ => h.entries.dev ip hpos) ?_ rfl rfl h.dir rfl rfl
    (h.room.imp id fun hr => ⟨hr.few, hr.size, hr.single⟩)
  rcases eq_or_ne dp ip with rfl | hne
  · rw [FsState.setEntry_self]
    have := hdp rfl
    exact ⟨by dsimp only; omega, rfl, rfl, rfl⟩
  · rw [FsState.setEntry_of_ne hne]
    exact ⟨h.ref, rfl, rfl, rfl⟩

end

end LockedDir

/-- The operations, on a locked directory. -/
theorem vwp_dirAct {act : DirAct} (h : LockedDir A a D dp i) (h0 : a.log.n = 0)
    (hfree : CacheRoom A a) (hvalid : act.Valid) (hroom : act.Room a.bufs.data D i) :
    vwp A pid (act.code dp) (fun r a' => ∃ D', LockedDir A a' D' dp i ∧
      (∀ e, (a'.inode e).ref = (a.inode e).ref) ∧
      act.Spec i r a.bufs.data D a'.bufs.data D') a := by
  cases act with
  | link name inum =>
    obtain ⟨k, hk⟩ :=
      IsFirst.exists (fun j => (dirent a.bufs.data (D i) j).inum = 0) (nDirents (D i))
    obtain ⟨hmax, hm⟩ := hroom k hk
    refine vwp_dirLink (h.fit h0 hm) h.lists h.entries h.alloc h.trans hfree
      (Finset.mem_insert_self _ _) (fun l hl => ?_) (fun l hl hnames a' hs => ?_)
      fun hno l hl a' g' hw hset => ?_
    · obtain rfl := hl.unique hk
      refine ⟨fun s hs b hb => ?_, fun hbig => absurd hbig (by omega), fun _ => le_rfl⟩
      obtain ⟨-, -, rfl, -⟩ := owner_eq_some.1 hb
      exact Finset.mem_insert_of_mem (Finset.mem_insert_of_mem (Finset.mem_image_of_mem _ hs))
    · refine ⟨D, h.same hs, hs.ref, ⟨?_, fun _ => ⟨congrArg Vol.data hs.bufs, rfl⟩, nofun⟩⟩
      refine iff_of_true rfl fun hnone => ?_
      exact lookupName_eq_none.1 hnone l hl hnames
    · obtain ⟨hok, hlookup⟩ := hset.link h.dir hl hno hvalid.1 hvalid.2
      refine ⟨g'.D, h.written hw hok, fun e => (hw.frame.same e).1, ⟨?_, nofun, fun _ => ?_⟩⟩
      · exact iff_of_false nofun (not_not.2 (lookupName_eq_none.2 hno))
      · exact ⟨hlookup, l, hl, hset.count⟩
  | unlink name =>
    have hfit : Fit ⟨fun _ => True, True⟩ a ⟨D, ∅, 0⟩ :=
      h.tracks.fit (Nat.zero_le _) (.inl ⟨trivial, trivial⟩)
    refine vwp_bind (vwp_dirLookup hfit h.lists.listsTo h.entries hfree (.inl le_rfl)
      (fun hno => vwp_pure ?_)
      fun k hk hnames _ ip x hg => ?_)
    · refine ⟨D, h, fun _ =>
        rfl, ⟨iff_of_true rfl (lookupName_eq_none.2 hno), fun _ => ⟨rfl, rfl⟩, fun n => ?_, rfl⟩⟩
      split
      · next hcmp =>
        refine lookupName_eq_none.2 fun j hj hjn => hno j hj ⟨?_, hjn.2⟩
        exact dirNamecmp_iff.2 ((dirNamecmp_iff.1 hjn.1).trans (dirNamecmp_iff.1 hcmp))
      · rfl
    · replace hk : k < nDirents (D i) := hk
      have h₁ := h.gets hg
      have hpos := h.entries.nonneg ip
      have hend := h.dir.size.entry_le hk
      have hmax := h.dir.size.le
      -- The entry is in a block that is there.
      have hmissing : missing a.bufs.data D i (slotsOf (Dirent.size * k / bSize)) = 0 := by
        rw [← slotsIn_entry, ← toNat_ofNat_of_lt (w := 32) (m := Dirent.size * k) (by
          have : maxFile * bSize < 2 ^ 32 := by decide
          omega)]
        refine h.full.missing_eq_zero (g := ⟨D, ∅, 0⟩) h.alloc ?_
        rwa [toNat_ofNat_of_lt (by
          have : maxFile * bSize < 2 ^ 32 := by decide
          omega)]
      refine vwp_bind (vwp_writeDirent (h₁.fit (k := k) h0 (hmissing.trans_le (Nat.zero_le _)))
        h₁.lists h₁.alloc h₁.trans hk.le List.length_replicate (fun _ => le_rfl)
        (fun s hs b hb => ?_) (Finset.mem_insert_self _ _)
        (fun hbig => absurd hbig (by dsimp only at *; omega)) fun _ a' g' hw hset => ?_)
      · obtain ⟨-, -, rfl, -⟩ := owner_eq_some.1 hb
        exact Finset.mem_insert_of_mem (Finset.mem_insert_of_mem (Finset.mem_image_of_mem _ hs))
      · obtain ⟨hok, hlookup⟩ := hset.unlink h.dir hk hnames
        obtain ⟨href, hval, -⟩ := hw.frame.same ip
        rw [FsState.setEntry_self] at href hval
        have hold := hg.ref
        refine vwp_ite (fun hne => absurd rfl hne) fun _ =>
          vwp_bind (vwp_inodePut_keep ?_
            (vwp_pure ⟨g'.D, (h₁.written hw hok).drop (by omega) ?_, fun e => ?_, ?_⟩))
        · rintro ⟨hr, hv, -⟩
          rw [href] at hr
          rw [hval] at hv
          exact absurd ((hg.new (by omega)).2.1.symm.trans hv) nofun
        · rintro rfl
          have := h.ref
          omega
        · rcases eq_or_ne e ip with rfl | hne
          · rw [FsState.setEntry_self]
            dsimp only
            omega
          · rw [FsState.setEntry_of_ne hne, (hw.frame.same e).1, FsState.setEntry_of_ne hne]
        · refine ⟨iff_of_false nofun fun hnone => lookupName_eq_none.1 hnone k hk hnames,
            nofun, hlookup, ?_⟩
          exact hset.count.trans (Nat.max_eq_left hk)

/-- The directory is locked in a new transaction. -/
theorem IdleDir.lock (h : IdleDir a D dp i) (hroom : A.Lax ∨ LogRoom a) :
    LockedDir A (a.begun.lockInode dp (D i)) D dp i where
  tracks := h.tracks.begun.lockInode h.inum
  full := h.full
  entries := h.entries.of_eq (FsState.setEntry_same rfl rfl)
  ref := by
    rw [FsState.lockInode, FsState.setEntry_self]
    exact h.ref
  inum := by
    rw [FsState.lockInode, FsState.setEntry_self]
    exact h.inum
  alloc := h.alloc
  type := h.type
  dir := h.dir
  held := h.held
  valid := by rw [FsState.lockInode, FsState.setEntry_self]
  locked := by rw [FsState.lockInode, FsState.setEntry_self]
  trans := rfl
  room := hroom.imp id fun hr => ⟨hr.few, hr.size, hr.single⟩

/-- It is unlocked, and the transaction is committed. -/
theorem LockedDir.unlock (h : LockedDir A a D dp i) :
    IdleDir (a.setEntry dp { a.inode dp with busy := false }).committed D dp i where
  tracks := by
    have ht : Tracks (a.setEntry dp { a.inode dp with busy := false }) D :=
      h.tracks.keepEntry rfl (fun hv => ⟨rfl, hv⟩) fun hr => hr
    exact ht.committed
  full := h.full
  entries := h.entries.of_eq (FsState.setEntry_same rfl rfl)
  ref := (FsState.setEntry_same (x := { a.inode dp with busy := false }) rfl rfl dp).1 ▸ h.ref
  inum := (congrArg Inode.inum FsState.setEntry_self).trans h.inum
  alloc := h.alloc
  type := h.type
  dir := h.dir
  held := h.held
  unlocked := congrArg Inode.busy FsState.setEntry_self
  idle := rfl
  empty := rfl

/-- The operations, as transactions. -/
theorem vwp_dirTransaction {act : DirAct} (h : IdleDir a D dp i) (hlog : A.Lax ∨ LogRoom a)
    (hcache : CacheRoom A a) (hvalid : act.Valid) (hroom : act.Room a.bufs.data D i) :
    vwp A pid (act.transaction dp) (fun r a' => ∃ D', IdleDir a' D' dp i ∧
      act.Spec i r a.bufs.data D a'.bufs.data D') a := by
  refine vwp_bind (vwp_beginTrans (fun hb => absurd (h.idle.symm.trans hb) nofun) fun _ => ?_)
  refine vwp_bind (vwp_inodeLock_free h.tracks.begun h.ref h.inum h.alloc h.unlocked
    h.empty h.held ?_)
  have hrefs : ∀ e, ((a.begun.lockInode dp (D i)).inode e).ref = (a.inode e).ref := fun e =>
    (FsState.setEntry_same (a := a.begun)
      (x := { a.inode dp with busy := true, valid := true, din := D i }) rfl rfl e).1
  have hcache' : CacheRoom A (a.begun.lockInode dp (D i)) :=
    hcache.imp id fun ⟨e, hlt, hzero⟩ => ⟨e, hlt, (hrefs e).trans hzero⟩
  refine vwp_bind (vwp_mono (vwp_dirAct (h.lock hlog) h.empty hcache' hvalid hroom) ?_)
  rintro r a' ⟨D', hw, -, hspec⟩
  refine vwp_bind (vwp_inodeUnlock hw.locked hw.ref (vwp_bind (vwp_commitTrans hw.held
    (hw.room.imp (fun hlax => hlax.1) fun hr => ?_) (vwp_pure ⟨D', hw.unlock, hspec⟩))))
  have := hr.few
  rw [show nBuf = 10 from rfl]
  simp only [FsState.setEntry_log]
  omega

/-- `dir_lookup` evaluates the map. -/
theorem vwp_lookup {name : List Byte} (h : IdleDir a D dp i) (hcache : CacheRoom A a) :
    vwp A pid (do inodeLock dp; dirLookup dp name) (fun r a' => a'.bufs = a.bufs ∧
      r.map (fun found => (a'.inode found.1).inum) = lookupName a.bufs.data (D i) name) a := by
  have hreads : A.Reads a := by
    refine .inr ?_
    rw [h.empty, h.held]
    decide
  refine vwp_bind (vwp_inodeLock_free h.tracks h.ref h.inum h.alloc h.unlocked h.empty h.held ?_)
  have hsame := FsState.setEntry_same (a := a)
    (x := { a.inode dp with busy := true, valid := true, din := D i }) rfl rfl
  have hfit' : Fit ⟨fun _ => True, True⟩ (a.lockInode dp (D i)) ⟨D, ∅, 0⟩ :=
    (h.tracks.lockInode h.inum).fit (Nat.zero_le _) (.inl ⟨trivial, trivial⟩)
  have hopens : (a.lockInode dp (D i)).Opens dp i := by
    refine ⟨(hsame dp).1 ▸ h.ref, ?_, ?_⟩ <;> rw [FsState.lockInode, FsState.setEntry_self]
    exact h.inum
  have hl : Lists A (a.lockInode dp (D i)) ⟨D, ∅, 0⟩ dp i :=
    ⟨hopens, hreads, h.held, h.type, h.full, h.dir.size⟩
  refine vwp_dirLookup hfit' hl.listsTo (h.entries.of_eq hsame)
    (hcache.imp id fun hfree => hfree.imp fun e he => ⟨he.1, (hsame e).1.trans he.2⟩)
    (.inl le_rfl) (fun hno => ⟨rfl, (lookupName_eq_none.2 hno).symm⟩)
    fun k hk hnames _ ip x hg => ⟨rfl, ?_⟩
  rw [Option.map_some, FsState.setEntry_self, hg.inum]
  exact (h.dir.lookupName_eq_some.2 ⟨k, hk, hnames, rfl⟩).symm

end

/-! ## Runs -/

/-- The shortages that can stop an operation: of buffers or space in the log, if the log is small
or there is more than one bitmap block, and of entries in the inode cache. -/
def Shortage (a : FsState Vol) (e : Panic) : Prop :=
  (e = .noBuffers ∨ e = .tooBig) ∧ ¬ LogRoom a ∨ e = .getNoInodes ∧ ¬ ∃ e < nInode,
    (a.inode e).ref = 0

/-- Processes operate on the directory at `dp`. -/
def dirMachine (dp : Nat) : Machine (FsState BufCache) (Nat × DirAct) where
  Init _ := True
  step s act :=
    match (fsHandler BufCache.layer act.1).run (act.2.transaction dp) s with
    | .ok _ t => some t
    | _ => none

/-- The directory is not full when an entry is added, and there are blocks enough. -/
def DirStepOk (dp i : Nat) (s : FsState BufCache) (act : Nat × DirAct) : Prop :=
  act.2.Valid ∧ ∀ a D, s.View a → IdleDir a D dp i → act.2.Room a.bufs.data D i

section
variable {dp i : Nat} {s t : FsState BufCache} {a : FsState Vol} {D : Nat → Dinode}

/-- One operation. -/
theorem dirStep (hs : s.View a) (h : IdleDir a D dp i) {act : DirAct} (hvalid : act.Valid)
    (hroom : act.Room a.bufs.data D i) (pid : Nat) :
    ((fsHandler BufCache.layer pid).run (act.transaction dp) s).Sat
      (fun r u => ∃ a' D', u.View a' ∧ IdleDir a' D' dp i ∧
        act.Spec i r a.bufs.data D a'.bufs.data D')
      (fun e _ => Shortage a e) fun _ => False := by
  have hlog : Allow.Lax ⟨Shortage a, False⟩ ∨ LogRoom a := by
    by_cases hr : LogRoom a
    · exact .inr hr
    · exact .inl ⟨.inl ⟨.inl rfl, hr⟩, .inl ⟨.inr rfl, hr⟩⟩
  have hcache : CacheRoom ⟨Shortage a, False⟩ a := by
    by_cases hfree : ∃ e < nInode, (a.inode e).ref = 0
    · exact .inr hfree
    · exact .inl (.inr ⟨rfl, hfree⟩)
  refine ((vwp_dirTransaction h hlog hcache hvalid hroom).run hs ?_).mono ?_ (fun _ _ he => he)
    fun _ hb => hb
  · rintro (⟨he | he, -⟩ | ⟨he, -⟩) <;> cases he
  · rintro r u ⟨a', hv, D', h', hspec⟩
    exact ⟨a', D', hv, h', hspec⟩

/-- A sequence of operations leaves a directory. -/
theorem dirRun (hs : s.View a) (h : IdleDir a D dp i)
    (hrun : (dirMachine dp).Runs (DirStepOk dp i) s t) :
    ∃ a D, t.View a ∧ IdleDir a D dp i := by
  refine hrun.invariant (I := fun t => ∃ a D, t.View a ∧ IdleDir a D dp i) ?_ ⟨a, D, hs, h⟩
  rintro t ⟨pid, act⟩ u ⟨a, D, ht, hd⟩ ⟨hvalid, hroom⟩ hstep
  have hsat := dirStep ht hd hvalid (hroom a D ht hd) pid
  simp only [dirMachine] at hstep
  cases hrun : (fsHandler BufCache.layer pid).run (act.transaction dp) t with
  | ok r v =>
    rw [hrun] at hstep hsat
    cases hstep
    obtain ⟨a', D', hv, h', -⟩ := hsat
    exact ⟨a', D', hv, h'⟩
  | panic e v =>
    rw [hrun] at hstep
    cases hstep
  | blocked v =>
    rw [hrun] at hstep
    cases hstep

/-- **A directory is a finite map.** After any sequence of operations on a directory, no two live
entries have the same name and the size is a multiple of that of an entry (`IdleDir`); `dir_lookup`
evaluates the map of its entries; and the next operation, of any process, does to the map what
`DirAct.Spec` says. It is stopped only for lack of resources. -/
theorem directory_finite_map (hs : s.View a) (h : IdleDir a D dp i)
    (hrun : (dirMachine dp).Runs (DirStepOk dp i) s t) :
    ∃ a D, t.View a ∧ IdleDir a D dp i ∧
      (∀ pid name, ((fsHandler BufCache.layer pid).run (do inodeLock dp; dirLookup dp name) t).Sat
        (fun r u => r.map (fun found => (u.inode found.1).inum) =
          lookupName a.bufs.data (D i) name)
        (fun e _ => Shortage a e) fun _ => False) ∧
      ∀ (pid : Nat) (act : DirAct), act.Valid → act.Room a.bufs.data D i →
        ((fsHandler BufCache.layer pid).run (act.transaction dp) t).Sat
          (fun r u => ∃ a' D', u.View a' ∧ IdleDir a' D' dp i ∧
            act.Spec i r a.bufs.data D a'.bufs.data D')
          (fun e _ => Shortage a e) fun _ => False := by
  obtain ⟨b, E, ht, hd⟩ := dirRun hs h hrun
  refine ⟨b, E, ht, hd, fun pid name => ?_, fun pid act hvalid hroom =>
    dirStep ht hd hvalid hroom pid⟩
  have hcache : CacheRoom ⟨Shortage b, False⟩ b := by
    by_cases hfree : ∃ e < nInode, (b.inode e).ref = 0
    · exact .inr hfree
    · exact .inl (.inr ⟨rfl, hfree⟩)
  refine ((vwp_lookup hd hcache).run ht ?_).mono ?_ (fun _ _ he => he) fun _ hb => hb
  · rintro (⟨he | he, -⟩ | ⟨he, -⟩) <;> cases he
  · rintro r u ⟨a', hv, -, hr⟩
    rw [hv.inode]
    exact hr

/-! ### The root directory -/

/-- The root directory that `mkfs` makes has the entries `.` and `..`. -/
theorem dirOk_emptyImage : DirOk emptyImage (dinodeAt emptyImage 1) := by
  refine ⟨⟨by decide +kernel, by decide +kernel⟩, ?_⟩
  decide +kernel

/-- The root directory after the boot. -/
theorem idleDir_mounted {d : Disk} (h : d.Consistent)
    (hroot : Allocated (superOf d) (dinodeAt d) rootIno) (htype : (dinodeAt d rootIno).type = tDir)
    (hdir : DirOk d (dinodeAt d rootIno)) :
    IdleDir (mounted d) (dinodeAt d) 0 rootIno where
  tracks := h.mounted.toTracks
  full := h.full _ hroot
  entries := entries_mounted
  ref := Int.natCast_pos.2 (by decide)
  inum := rfl
  alloc := hroot
  type := htype
  dir := hdir
  held := rfl
  unlocked := rfl
  idle := rfl
  empty := rfl

/-- There is room for an entry in the root directory of the empty file system. -/
theorem dirStepOk_emptyImage {name : List Byte} {inum : Nat} (h : 0 < inum ∧ inum < 2 ^ 16) :
    DirStepOk 0 1 (.bootFrom emptyImage) (0, .link name inum) := by
  refine ⟨h, fun a D ha hd k hk => ?_⟩
  have hlog : (FsState.bootFrom emptyImage).log.start = 1014 := by decide +kernel
  obtain ⟨hsuper, hspare⟩ := spare_of_view ha hlog (by decide +kernel)
  have hblock : a.bufs.data 2 = emptyImage 2 := by
    rw [← ha.current fun hin => absurd hin.1 (by rw [← ha.log, hlog]; decide)]
    decide +kernel
  have hroot : D 1 = dinodeAt emptyImage 1 := by
    rw [← hd.tracks.disk 1 (by rw [hsuper, superOf_emptyImage]; decide)]
    exact congrArg (getDinode · 1) hblock
  have hn : nDirents (D 1) = 32 := by
    rw [hroot, nDirents, emptyImage_root.2]
    decide
  refine ⟨?_, missing_le_two.trans ?_⟩
  · have hle : k ≤ 32 := hk.le.trans hn.le
    calc Dirent.size * k + Dirent.size ≤ Dirent.size * 32 + Dirent.size :=
          Nat.add_le_add_right (Nat.mul_le_mul_left _ hle) _
      _ ≤ maxFile * bSize := by decide
  · rw [hspare (by decide +kernel)]
    decide +kernel

/-- In the root directory of the empty file system the name `x` is added, so that `dir_lookup`
finds it, and removed again; then any other operation follows. -/
theorem directory_finite_map_emptyImage :
    ∃ s t, (dirMachine 0).step (.bootFrom emptyImage) (0, .link [120] 7) = some s ∧
      (∃ r u, (fsHandler BufCache.layer 0).run (do inodeLock 0; dirLookup 0 [120]) s = .ok r u ∧
        r.map (fun found => (u.inode found.1).inum) = some 7) ∧
      (dirMachine 0).step s (0, .unlink [120]) = some t ∧
      ∃ a D, t.View a ∧ IdleDir a D 0 1 ∧ ∀ act : DirAct, act.Valid → act.Room a.bufs.data D 1 →
        ((fsHandler BufCache.layer 0).run (act.transaction 0) t).Sat
          (fun r u => ∃ a' D', u.View a' ∧ IdleDir a' D' 0 1 ∧
            act.Spec 1 r a.bufs.data D a'.bufs.data D')
          (fun e _ => Shortage a e) fun _ => False := by
  have heval : ((dirMachine 0).step (.bootFrom emptyImage) (0, .link [120] 7)).any fun s =>
      ((dirMachine 0).step s (0, .unlink [120])).isSome &&
      decide (((fsHandler BufCache.layer 0).run (do inodeLock 0; dirLookup 0 [120]) s).Sat
        (fun r u => r.map (fun found => (u.inode found.1).inum) = some 7) (fun _ _ => False)
        fun _ => False) := by
    decide +kernel
  simp only [Option.any_eq_true, Bool.and_eq_true, decide_eq_true_eq] at heval
  obtain ⟨s, hs, hunlink, hfound⟩ := heval
  obtain ⟨t, ht⟩ := Option.isSome_iff_exists.1 hunlink
  have hunlinkOk : DirStepOk 0 1 s (0, .unlink [120]) := ⟨trivial, fun _ _ _ _ => trivial⟩
  have hrun : (dirMachine 0).Runs (DirStepOk 0 1) (.bootFrom emptyImage) t :=
    .tail (.tail .refl (dirStepOk_emptyImage ⟨by decide, by decide⟩) hs) hunlinkOk ht
  obtain ⟨a, D, hv, hd, -, hact⟩ := directory_finite_map
    (bootFrom_view consistent_emptyImage.log consistent_emptyImage.header)
    (idleDir_mounted consistent_emptyImage (allocated_emptyImage.2 rfl) emptyImage_root.1
      dirOk_emptyImage) hrun
  exact ⟨s, t, hs, hfound.returns, ht, a, D, hv, hd, hact 0⟩

/-- With 30 files, the root directory that `mkfs` makes has a size of two blocks, but only the
first one, which its 32 entries fill. After the entry `a` is cleared, a lookup of `a` outside of a
transaction finds the second block missing; `bmap` allocates it, and `log_write` panics. -/
theorem unlinked_lookup_panics :
    ∃ d t, mkfs ((List.range 30).map fun k => ([BitVec.ofNat 8 (k + 97)], [])) = some d ∧
      (dirMachine 0).step (.bootFrom d) (0, .unlink [97]) = some t ∧
      ∃ u, (fsHandler BufCache.layer 0).run (do inodeLock 0; dirLookup 0 [97]) t =
        .panic .outsideTrans u := by
  have hrun : ((mkfs ((List.range 30).map fun k => ([BitVec.ofNat 8 (k + 97)], []))).any fun d =>
      ((dirMachine 0).step (.bootFrom d) (0, .unlink [97])).any fun t =>
        decide (((fsHandler BufCache.layer 0).run (do inodeLock 0; dirLookup 0 [97]) t).Sat
          (fun _ _ => False) (fun e _ => e = .outsideTrans) fun _ => False)) = true := by
          decide +kernel
  obtain ⟨d, hd, hrun⟩ := Option.any_eq_true _ _ |>.1 hrun
  obtain ⟨t, ht, hsat⟩ := Option.any_eq_true _ _ |>.1 hrun
  obtain ⟨e, u, hu, rfl⟩ := (of_decide_eq_true hsat).panics
  exact ⟨d, t, hd, ht, u, hu⟩

end

end MCertikos
