import MCertikos.Fs.MkfsImage
import MCertikos.Fs.PathWalk

/-!
# The kernel finds what `mkfs` installs

`mkfs` writes the entries of the root directory with `strncpy`, so an entry holds a name of up to
14 bytes, without a NUL if it has 14. The kernel reads the image that `mkfs` made: `namei` takes a
component of the path, `dir_lookup` compares it with the entries, and `inode_read` reads the file
through `bmap`. `skipelem` cuts a component to 13 bytes, so the names of up to 13 bytes are found,
and a shorter name is looked up instead of one with 14. If there is none, the lookup fails, or does
not return where the last block of the directory is missing.
-/

namespace MCertikos

open Program BitField

/-- Files that `mkfs` can install: they fit, their names are distinct strings for which an entry
has space, and none is for the directory itself or its parent. -/
structure HostFiles (files : List (List Byte × List Byte)) : Prop where
  fits : HostFits files
  size : ∀ file ∈ files, file.2.length ≤ maxFile * bSize
  slash : ∀ file ∈ files, slash ∉ file.1
  string : ∀ file ∈ files, ∀ c ∈ hostName file.1, c ≠ 0
  nonempty : ∀ file ∈ files, hostName file.1 ≠ []
  length : ∀ file ∈ files, (hostName file.1).length ≤ dirSiz
  dots : ∀ file ∈ files, hostName file.1 ≠ [46] ∧ hostName file.1 ≠ [46, 46]
  distinct : (files.map fun file => hostName file.1).Nodup

/-! ## The names in the root directory -/

/-- The names of the entries of the root directory. -/
def rootNames (files : List (List Byte × List Byte)) : List (List Byte) :=
  [46] :: [46, 46] :: files.map fun file => hostName file.1

section
variable {files : List (List Byte × List Byte)} {file : List Byte × List Byte}
  {d : Disk} {k j : Nat}

theorem mem_hostName {c : Byte} {name : List Byte} (h : c ∈ hostName name) : c ∈ name := by
  rw [hostName] at h
  split at h
  · exact List.mem_of_mem_tail h
  · exact h

theorem HostFiles.cstr_hostName (h : HostFiles files) (hfile : file ∈ files) :
    cstr (hostName file.1) = hostName file.1 :=
  cstr_eq_self (h.length file hfile) (h.string file hfile)

theorem HostFiles.nodup (h : HostFiles files) : (rootNames files).Nodup := by
  refine List.nodup_cons.2 ⟨fun hmem => ?_, List.nodup_cons.2 ⟨fun hmem => ?_, h.distinct⟩⟩
  · rcases List.mem_cons.1 hmem with heq | hmem
    · cases heq
    · obtain ⟨file, hfile, heq⟩ := List.mem_map.1 hmem
      exact (h.dots file hfile).1 heq
  · obtain ⟨file, hfile, heq⟩ := List.mem_map.1 hmem
    exact (h.dots file hfile).2 heq

/-- An entry of the root directory has the name, and is in use. -/
theorem HostFiles.entry (h : HostFiles files) {de : Dirent}
    (hk : (rootEntries files)[k]? = some de) :
    (rootNames files)[k]? = some (cstr de.name) ∧ de.inum ≠ 0 ∧
    de.inum.toNat < files.length + 2 := by
  have hone : (1 : BitVec 16) ≠ 0 ∧ (1 : BitVec 16).toNat < files.length + 2 :=
    ⟨by decide, by rw [show (1 : BitVec 16).toNat = 1 from rfl]; omega⟩
  match k with
  | 0 =>
    cases hk
    exact ⟨rfl, hone⟩
  | 1 =>
    cases hk
    exact ⟨rfl, hone⟩
  | k + 2 =>
    replace hk : (files.mapIdx fun j file =>
        (⟨BitVec.ofNat 16 (j + 2), padName (hostName file.1)⟩ : Dirent))[k]? = some de := hk
    rw [List.getElem?_mapIdx, Option.map_eq_some_iff] at hk
    obtain ⟨file, hfile, rfl⟩ := hk
    have hlt := (List.getElem?_eq_some_iff.1 hfile).1
    have hinodes := h.fits.inodes
    rw [Mkfs.ninodes] at hinodes
    have hval : (BitVec.ofNat 16 (k + 2)).toNat = k + 2 := toNat_ofNat_of_lt (by omega)
    refine ⟨?_, fun hzero => ?_, by rw [hval]; omega⟩
    · rw [cstr_padName, h.cstr_hostName (List.mem_of_getElem? hfile), rootNames,
        List.getElem?_cons_succ, List.getElem?_cons_succ, List.getElem?_map, hfile,
        Option.map_some]
    · have := congrArg BitVec.toNat hzero
      rw [hval] at this
      exact absurd this (by simp)

end

/-! ## The image as the kernel mounts it -/

section
variable {files : List (List Byte × List Byte)} {file : List Byte × List Byte} {d : Disk}
  {pid k j : Nat}

section
variable (h : HostImage d files)
include h

theorem HostImage.calm : Calm (mounted d) (dinodeAt d) where
  tracks := {
    geo := h.geometry
    owned := h.owned
    disk := fun _ _ => rfl
    cached := fun _ _ he => absurd (mounted_valid.symm.trans he.valid) nofun
    unique := fun _ _ he he' _ => (mounted_ref he).trans (mounted_ref he').symm }
  entries := entries_mounted
  unlocked e he := by
    rw [mounted_ref he]
    rfl
  held := rfl
  reads := by
    rw [show (mounted d).log.n = 0 from rfl]
    decide

/-- The only directory is the root. -/
theorem HostImage.eq_root {i : Nat} (hi : Allocated (superOf d) (dinodeAt d) i)
    (htype : (dinodeAt d i).type = tDir) : i = rootIno := by
  obtain ⟨hpos, hlt⟩ := (h.inodes i).1 hi
  by_contra hne
  rw [rootIno] at hne
  obtain ⟨j, rfl⟩ := Nat.exists_eq_add_of_le' (show 2 ≤ i by omega)
  obtain ⟨hfile, -⟩ := h.file j _ (List.getElem?_eq_getElem (by omega))
  rw [hfile] at htype
  cases htype

theorem HostImage.live_root : Live (mounted d) (dinodeAt d) rootIno := by
  refine ⟨(h.inodes rootIno).2 ⟨by decide, by rw [rootIno]; omega⟩, .inl ?_⟩
  rw [h.root.2]
  decide

theorem HostImage.nDirents_root :
    nDirents (dinodeAt d rootIno) = (Dirent.size * (files.length + 2) / bSize + 1) * 32 := by
  rw [nDirents, h.rootSize, Dirent.size, show bSize = 512 from rfl]
  omega

theorem HostImage.dirSize (hfits : HostFits files) : DirSize (dinodeAt d rootIno) := by
  have hinodes := hfits.inodes
  rw [Mkfs.ninodes] at hinodes
  refine ⟨?_, ?_⟩
  · rw [h.nDirents_root, h.rootSize, Dirent.size, show bSize = 512 from rfl]
    omega
  · rw [h.rootSize, Dirent.size, show maxFile * bSize = 71680 from rfl, show bSize = 512 from rfl]
    omega

theorem HostImage.entry_lt (hk : k < files.length + 2) : k < nDirents (dinodeAt d rootIno) := by
  rw [h.nDirents_root, Dirent.size, show bSize = 512 from rfl]
  omega

theorem HostImage.entry_block (hk : k < files.length + 2) :
    owner d (dinodeAt d) (rootIno, slotOf (Dirent.size * k / bSize)) ≠ none :=
  h.rootBlocks _ (Nat.mul_lt_mul_of_pos_left hk (by decide))

section
variable (hfiles : HostFiles files) (hj : files[j]? = some file)
include hfiles hj

/-- The entry with the name of a file is the one that `mkfs` wrote for it. -/
theorem HostImage.names_iff (hk : k < files.length + 2) :
    (dirent d (dinodeAt d rootIno) k).Names (hostName file.1) ↔ k = j + 2 := by
  obtain ⟨de, hde⟩ : ∃ de, (rootEntries files)[k]? = some de :=
    ⟨_, List.getElem?_eq_getElem (by rwa [length_rootEntries])⟩
  obtain ⟨hname, hinum, -⟩ := hfiles.entry hde
  have hfile : (rootNames files)[j + 2]? = some (hostName file.1) := by
    rw [rootNames, List.getElem?_cons_succ, List.getElem?_cons_succ, List.getElem?_map, hj,
      Option.map_some]
  rw [h.entry k de hde, Dirent.Names, dirNamecmp_iff,
    hfiles.cstr_hostName (List.mem_of_getElem? hj), and_iff_left hinum]
  refine ⟨fun heq => ?_, fun heq => ?_⟩
  · rw [heq, ← hfile] at hname
    exact ((List.getElem?_inj (List.getElem?_eq_some_iff.1 hfile).1 hfiles.nodup).1
      hname.symm).symm
  · rw [heq, hfile] at hname
    exact (Option.some.inj hname).symm

theorem HostImage.lookupName : MCertikos.lookupName d (dinodeAt d rootIno) (hostName file.1) =
    some (j + 2) := by
  have hlt := (List.getElem?_eq_some_iff.1 hj).1
  have hinodes := hfiles.fits.inodes
  rw [Mkfs.ninodes] at hinodes
  rw [lookupName_eq_some_of_first (k := j + 2) (h.entry_lt (by omega))
    ((h.names_iff hfiles hj (by omega)).2 rfl)
    fun k hk hnames => absurd ((h.names_iff hfiles hj (by omega)).1 hnames) (by omega)]
  have hentry : (rootEntries files)[j + 2]? =
      some ⟨BitVec.ofNat 16 (j + 2), padName (hostName file.1)⟩ := by
    rw [rootEntries, List.getElem?_cons_succ, List.getElem?_cons_succ, List.getElem?_mapIdx, hj,
      Option.map_some]
  rw [h.entry _ _ hentry, BitVec.toNat_ofNat, Nat.mod_eq_of_lt (by omega)]

/-- The name of a file can be looked up in the root directory. The entries are read up to the one
of the file; the block behind the last entry may be missing. -/
theorem HostImage.lookup : Lookup (mounted d) (dinodeAt d) rootIno (hostName file.1) where
  size := h.dirSize hfiles.fits
  blocks := by
    have hlt := (List.getElem?_eq_some_iff.1 hj).1
    exact ⟨files.length + 2, fun k hk _ => h.entry_block hk,
      .inr ⟨j + 2, h.entry_lt (by omega), by omega, (h.names_iff hfiles hj (by omega)).2 rfl⟩⟩

end

/-- What is found under a name is a file with the name. -/
theorem HostImage.lookupName_eq_none {name : List Byte} (hfiles : HostFiles files)
    (hno : cstr name ∉ rootNames files) :
    MCertikos.lookupName d (dinodeAt d rootIno) name = none := by
  refine MCertikos.lookupName_eq_none.2 fun k hk hnames => ?_
  rcases Nat.lt_or_ge k (files.length + 2) with hlt | hge
  · obtain ⟨de, hde⟩ : ∃ de, (rootEntries files)[k]? = some de :=
      ⟨_, List.getElem?_eq_getElem (by rwa [length_rootEntries])⟩
    rw [h.entry k de hde, Dirent.Names, dirNamecmp_iff] at hnames
    exact hno (hnames.1 ▸ List.mem_of_getElem? (hfiles.entry hde).1)
  · exact hnames.2 (h.rest k hk hge)

/-- Paths can be looked up in the image. -/
theorem HostImage.searchable (hfiles : HostFiles files) :
    Searchable (mounted d) (dinodeAt d) pid where
  toCalm := h.calm
  idle := rfl
  free := ⟨1, by decide, 2, by decide, by decide, rfl, rfl⟩
  opens _ _ he := absurd (mounted_valid.symm.trans he.valid) nofun
  root := h.live_root
  cwd := Int.natCast_pos.2 (by decide)
  cwdAlloc := h.live_root.1
  size i hi htype := h.eq_root hi htype ▸ h.dirSize hfiles.fits
  inums i hi htype k hk := by
    obtain rfl := h.eq_root hi htype
    have hinodes := hfiles.fits.inodes
    rw [show (mounted d).bufs.data = d from rfl, h.super]
    rcases Nat.lt_or_ge k (files.length + 2) with hlt | hge
    · obtain ⟨de, hde⟩ : ∃ de, (rootEntries files)[k]? = some de :=
        ⟨_, List.getElem?_eq_getElem (by rwa [length_rootEntries])⟩
      rw [h.entry k de hde]
      exact (hfiles.entry hde).2.2.trans_le hinodes
    · rw [h.rest k hk hge]
      decide

end

/-- `namei` on a path with one component looks it up in the root directory, or stops if it cannot
be looked up. -/
theorem HostImage.vwp_namei {A : Allow} {path name : List Byte} (h : HostImage d files)
    (hfiles : HostFiles files) (hname : components path = [name])
    (hstop : ¬ Lookup (mounted d) (dinodeAt d) rootIno name → ∀ e, e ≠ .unsaved → A.panic e) :
    vwp A pid (namei (slash :: path)) (fun r b => Walking (mounted d) b (dinodeAt d) r.toList ∅ ∧
      r.map (fun ip => (b.inode ip).inum) = MCertikos.lookupName d (dinodeAt d rootIno) name)
      (mounted d) := by
  have hcomp : components (slash :: path) = [name] := components_slash.trans hname
  have hstart : walkStart (mounted d) pid (slash :: path) = rootIno := if_pos rfl
  have hwalk : walk d (dinodeAt d) rootIno [name] =
      MCertikos.lookupName d (dinodeAt d rootIno) name := by
    rw [walk, if_pos h.root.1]
    exact Option.bind_fun_some _
  have hlive := h.live_root
  have hsearch : Searchable (mounted d) (dinodeAt d) pid := h.searchable hfiles
  refine vwp_bind (vwp_namex h.calm (.inr hsearch.free) (fun hrel => absurd rfl hrel)
    (fun _ => hstart.symm ▸ hlive.2) (fun hno => ?_) (fun b _ hr hb => vwp_pure ⟨hb, ?_⟩)
    fun b ip name' _ hr hb => vwp_pure ⟨hb, ?_⟩)
  · rw [hstart] at hno ⊢
    refine ⟨hsearch, hstop fun hlookup => hno ?_, hlive.1.1, hlive.1.2.1⟩
    rw [hcomp]
    exact ⟨hlive.1, fun _ => ⟨fun _ => hlookup, .inl hlive.2, fun _ _ _ => trivial⟩⟩
  · rw [hcomp, hstart] at hr
    rw [← hwalk]
    exact (Option.map_eq_none_iff.1 hr).symm
  · rw [hcomp, hstart] at hr
    obtain ⟨j, hj, heq⟩ := Option.map_eq_some_iff.1 hr
    cases heq
    rw [← hwalk]
    exact hj.symm

/-- After the boot on a disk, `namei` of the path returns an inode that is a file, with the size
and the contents of the bytes. -/
def FoundAs (d : Disk) (pid : Nat) (path bytes : List Byte) : Prop :=
  ∃ ip s, (fsHandler BufCache.layer pid).run (namei path) (.bootFrom d) = .ok (some ip) s ∧
    ∃ s', (fsHandler BufCache.layer pid).run (inodeLock ip) s = .ok () s' ∧
      (s'.inode ip).din.type = tFile ∧ (s'.inode ip).din.size.toNat = bytes.length ∧
      ∀ off n : BitVec 32, ∃ s'', (fsHandler BufCache.layer pid).run (inodeRead ip off n) s' =
        .ok (if bytes.length < off.toNat ∨ 2 ^ 32 ≤ off.toNat + n.toNat then none
          else some ((bytes.drop off.toNat).take n.toNat)) s''

/-- The bytes are those that are read. -/
theorem FoundAs.unique {path bytes bytes' : List Byte} (h : FoundAs d pid path bytes)
    (h' : FoundAs d pid path bytes') : bytes = bytes' := by
  obtain ⟨ip, s, hrun, s', hlock, -, hsize, hread⟩ := h
  obtain ⟨ip', s₁, hrun', s₁', hlock', -, hsize', hread'⟩ := h'
  cases hrun.symm.trans hrun'
  cases hlock.symm.trans hlock'
  have hlt := (s'.inode ip).din.size.isLt
  obtain ⟨_, hall⟩ := hread 0 (s'.inode ip).din.size
  obtain ⟨_, hall'⟩ := hread' 0 (s'.inode ip).din.size
  have hgood : ∀ l : List Byte, ¬ (l.length < (0 : BitVec 32).toNat ∨
      2 ^ 32 ≤ (0 : BitVec 32).toNat + (s'.inode ip).din.size.toNat) := fun l hc => by
    rw [show (0 : BitVec 32).toNat = 0 from rfl] at hc
    omega
  rw [if_neg (hgood bytes)] at hall
  rw [if_neg (hgood bytes')] at hall'
  have heq : some ((bytes.drop (0 : BitVec 32).toNat).take (s'.inode ip).din.size.toNat) =
      some ((bytes'.drop (0 : BitVec 32).toNat).take (s'.inode ip).din.size.toNat) :=
    (Outcome.ok.inj (hall.symm.trans hall')).1
  rwa [show (0 : BitVec 32).toNat = 0 from rfl, List.drop_zero, List.drop_zero,
    List.take_of_length_le hsize.ge, List.take_of_length_le hsize'.ge, Option.some.injEq] at heq

/-- A file is found under a path with its name as the only component. -/
theorem HostImage.foundAs {path : List Byte} (himage : HostImage d files) (h : HostFiles files)
    (hj : files[j]? = some file) (hcomp : components path = [hostName file.1]) :
    FoundAs d pid (slash :: path) file.2 := by
  obtain ⟨htype, hlinks, hfull, hcont⟩ := himage.file j file hj
  have hsize : (dinodeAt d (j + 2)).size.toNat = file.2.length := by rw [← hcont, length_contents]
  have hlt := (List.getElem?_eq_some_iff.1 hj).1
  have halloc : Allocated (superOf d) (dinodeAt d) (j + 2) :=
    (himage.inodes _).2 ⟨by omega, by omega⟩
  -- The lookup, then the lock, then a read of the locked inode.
  have hnamei : vwp ⟨fun _ => False, False⟩ pid (namei (slash :: path)) _ (mounted d) :=
    himage.vwp_namei h hcomp fun hno => absurd (himage.lookup h hj) hno
  obtain ⟨r, s, hrun, b, hs, hb, hr⟩ := (hnamei.run himage.view id).returns
  rw [himage.lookupName h hj] at hr
  obtain ⟨ip, rfl, hinum⟩ := Option.map_eq_some_iff.1 hr
  have hlock : vwp ⟨fun _ => False, False⟩ pid (inodeLock ip)
      (fun _ c => c = b.lockInode ip (dinodeAt d (j + 2))) b :=
    vwp_lockHeld himage.calm hb (Finset.notMem_empty ip) (List.mem_singleton_self ip)
      (hinum.symm ▸ halloc) (by rw [hinum])
  obtain ⟨_, s', hrun', _, hs', rfl⟩ := (hlock.run hs id).returns
  have hentry : (s'.inode ip).din = dinodeAt d (j + 2) := by
    rw [hs'.inode, FsState.lockInode, FsState.setEntry_self]
  refine ⟨ip, s, hrun, s', hrun', by rw [hentry, htype], by rw [hentry, hsize], fun off n => ?_⟩
  have hb' := hb.lockInode hinum halloc
  have hpos := hb.handles.ref_pos (entries_mounted.nonneg ip) (List.mem_singleton_self ip)
  have hread : vwp ⟨fun _ => False, False⟩ pid (inodeRead ip off n) (fun r _ => r =
      if file.2.length < off.toNat ∨ 2 ^ 32 ≤ off.toNat + n.toNat then none
        else some ((file.2.drop off.toNat).take n.toNat))
        (b.lockInode ip (dinodeAt d (j + 2))) := by
    refine vwp_inodeRead hb'.fit (FsState.opens_lockInode hpos hinum)
      (himage.calm.reads_of hb') ?_ ?_ (fun hbad => ?_) (fun hoff hsum => ?_) (hb'.bufs ▸ hfull)
    · rw [hb'.bufs]
      rfl
    · rw [htype]
      decide
    · rw [if_pos (by rwa [← hsize])]
    · replace hoff : off.toNat ≤ (dinodeAt d (j + 2)).size.toNat := hoff
      rw [if_neg (by omega), hb'.bufs, ← take_drop_contents]
      exact congrArg (fun l => some ((List.drop off.toNat l).take n.toNat)) hcont
  obtain ⟨r, s'', hrun'', _, -, rfl⟩ := (hread.run hs' id).returns
  exact ⟨s'', hrun''⟩

/-- **The kernel finds a file that `mkfs` installs if and only if its name has at most 13 bytes**,
or there is another file with the same bytes whose name is the first 13 bytes of it: then `namei`
returns an inode with the size and the contents of the file. -/
theorem mkfs_lookup (h : HostFiles files) :
    ∃ d, mkfs files = some d ∧ ∀ pid, ∀ file ∈ files,
    (FoundAs d pid (slash :: hostName file.1) file.2 ↔
      (hostName file.1).length < dirSiz ∨
        ∃ other ∈ files, hostName other.1 = (hostName file.1).take (dirSiz - 1) ∧
        other.2 = file.2) := by
  obtain ⟨d, hd, himage⟩ := mkfs_hostImage h.fits h.slash h.size
  refine ⟨d, hd, fun pid file hfile => ?_⟩
  have hcomp : components (hostName file.1) = [(hostName file.1).take (dirSiz - 1)] :=
    components_run (h.nonempty file hfile) fun hmem => h.slash file hfile (mem_hostName hmem)
  have hfound : ∀ other ∈ files, hostName other.1 = (hostName file.1).take (dirSiz - 1) →
      FoundAs d pid (slash :: hostName file.1) other.2 := fun other hother heq => by
    obtain ⟨j, hj⟩ := List.mem_iff_getElem?.1 hother
    exact himage.foundAs h hj (heq ▸ hcomp)
  constructor
  · intro hf
    by_contra hno
    rw [not_or, Nat.not_lt] at hno
    obtain ⟨hlen, hno⟩ := hno
    -- No file has the shorter name, so there is nothing to be found.
    have htake : ((hostName file.1).take (dirSiz - 1)).length = 13 := by
      rw [List.length_take, dirSiz] at *
      omega
    have hnone : lookupName d (dinodeAt d rootIno) ((hostName file.1).take (dirSiz - 1)) =
        none := by
      refine himage.lookupName_eq_none h fun hmem => ?_
      rw [cstr_eq_self (htake.trans_le (by decide)) fun c hc =>
        h.string file hfile c (List.mem_of_mem_take hc)] at hmem
      rcases List.mem_cons.1 hmem with heq | hmem
      · rw [heq] at htake
        cases htake
      rcases List.mem_cons.1 hmem with heq | hmem
      · rw [heq] at htake
        cases htake
      obtain ⟨other, hother, heq⟩ := List.mem_map.1 hmem
      exact hno ⟨other, hother, heq, (hfound other hother heq).unique hf⟩
    obtain ⟨ip, s, hrun, -⟩ := hf
    have hnamei : vwp ⟨fun e => e ≠ .unsaved, False⟩
        pid (namei (slash :: hostName file.1)) _ (mounted d) :=
      himage.vwp_namei h hcomp fun _ _ he => he
    have hsat := hnamei.run himage.view fun he => he rfl
    rw [hrun, hnone] at hsat
    obtain ⟨_, -, -, hr⟩ := hsat
    cases hr
  · rintro (hlen | ⟨other, hother, heq, hbytes⟩)
    · exact hfound file hfile (List.take_of_length_le (by rw [dirSiz] at *; omega)).symm
    · exact hbytes ▸ hfound other hother heq

/-- The file `_a`, installed as `a`, is found and read. -/
theorem mkfs_lookup_one :
    ∃ d, mkfs [([95, 97], [104, 105])] = some d ∧
      ∃ ip s, (fsHandler BufCache.layer 0).run (namei [slash, 97]) (.bootFrom d) =
        .ok (some ip) s ∧
        ∃ s', (fsHandler BufCache.layer 0).run (inodeLock ip) s = .ok () s' ∧
          ∃ s'', (fsHandler BufCache.layer 0).run (inodeRead ip 0 512) s' =
            .ok (some [104, 105]) s'' := by
  have hfiles : HostFiles [([95, 97], [104, 105])] := by
    refine ⟨⟨by decide, by decide⟩, ?_, ?_, ?_, ?_, ?_, ?_, by decide⟩ <;>
      rw [List.forall_mem_singleton] <;> decide
  obtain ⟨d, hd, hfound⟩ := mkfs_lookup hfiles
  obtain ⟨ip, s, hrun, s', hlock, -, -, hread⟩ :=
    (hfound 0 _ List.mem_cons_self).2 (.inl (by decide))
  obtain ⟨s'', hrun''⟩ := hread 0 512
  exact ⟨d, hd, ip, s, hrun, s', hlock, s'', hrun''⟩

/-- An entry has space for a name of 14 bytes, but the kernel does not find the file: it looks for
the first 13 bytes. -/
theorem mkfs_lookup_fourteen :
    HostFiles [(List.replicate 14 97, [])] ∧ ∃ d, mkfs [(List.replicate 14 97, [])] = some d ∧
      ∀ pid, ∃ s, (fsHandler BufCache.layer pid).run (namei (slash :: List.replicate 14 97))
        (.bootFrom d) = .ok none s := by
  have hfiles : HostFiles [(List.replicate 14 97, [])] := by
    refine ⟨⟨by decide, by decide⟩, ?_, ?_, ?_, ?_, ?_, ?_, by decide⟩ <;>
      rw [List.forall_mem_singleton] <;> decide
  obtain ⟨d, hd, himage⟩ := mkfs_hostImage hfiles.fits hfiles.slash hfiles.size
  have hnone : lookupName d (dinodeAt d rootIno) (List.replicate 13 97) = none :=
    himage.lookupName_eq_none hfiles (by decide)
  have hlookup : Lookup (mounted d) (dinodeAt d) rootIno (List.replicate 13 97) := by
    refine ⟨himage.dirSize hfiles.fits, _, fun k hk _ => ?_, .inl le_rfl⟩
    rw [himage.nDirents_root] at hk
    replace hk : k < 32 := hk
    have hblock := himage.entry_block (k := 0) (by decide)
    rwa [show Dirent.size * 0 / bSize = 0 from rfl, ← show Dirent.size * k / bSize = 0 by
      rw [Dirent.size, show bSize = 512 from rfl]; omega] at hblock
  refine ⟨hfiles, d, hd, fun pid => ?_⟩
  have hnamei : vwp ⟨fun _ => False, False⟩
      pid (namei (slash :: List.replicate 14 97)) _ (mounted d) :=
    himage.vwp_namei hfiles (by decide) fun hno => absurd hlookup hno
  obtain ⟨r, s, hrun, b, -, -, hr⟩ := (hnamei.run himage.view id).returns
  rw [hnone, Option.map_eq_none_iff] at hr
  exact ⟨s, hr ▸ hrun⟩

end

end MCertikos
