import MCertikos.Fs.Inode

/-!
# Directories and paths

The functions of `kern/fs/dir.c` and `kern/fs/path.c`. A directory is a file of 16-byte entries; an
entry with the inode number 0 is free. A path is the string that the kernel reads, without the NUL
that ends it.
-/

namespace MCertikos

open Program BitField

/-- Reference: `DIRSIZ` (`kern/fs/dir.h:6`). -/
def dirSiz : Nat := 14

/-- Reference: `struct dirent` (`kern/fs/dir.h:8`). -/
structure Dirent where
  inum : BitVec 16
  name : List Byte
  deriving DecidableEq

namespace Dirent

/-- `sizeof(struct dirent)`. -/
def size : Nat := 16

/-- The entry in memory. -/
def toBytes (de : Dirent) : List Byte := get de.inum 0 8 :: get de.inum 8 8 :: de.name

/-- The entry that is in memory. -/
def ofBytes (bs : List Byte) : Dirent where
  inum := bs.getD 1 0 ++ bs.getD 0 0
  name := (bs.drop 2).take dirSiz

end Dirent

/-- The string in a buffer of `DIRSIZ` bytes, up to a NUL. -/
def cstr (s : List Byte) : List Byte := (s.take dirSiz).takeWhile (· ≠ 0)

/-- The comparison of two names, which are equal when `strncmp` gives 0. Reference: `dir_namecmp`
(`kern/fs/dir.c:9`). -/
def dirNamecmp (s t : List Byte) : Bool := cstr s = cstr t

/-- What `strncpy` writes into `de.name`: the string, padded with NULs. -/
def padName (name : List Byte) : List Byte :=
  cstr name ++ List.replicate (dirSiz - (cstr name).length) 0

/-- The entries of a directory, by their offsets: the multiples of 16 below the size. -/
def entryOffsets (size : Nat) : List Nat :=
  (List.range ((size + Dirent.size - 1) / Dirent.size)).map (Dirent.size * ·)

/-- Reads a directory entry, with the assertion of `dir_lookup` and `dir_link`. -/
def readDirent (dp off : Nat) : Fs Dirent := do
  match ← inodeRead dp (BitVec.ofNat 32 off) (BitVec.ofNat 32 Dirent.size) with
  | some bs =>
    if bs.length = Dirent.size then return .ofBytes bs
    kernPanic .dirAssert
  | none => kernPanic .dirAssert

/-- The loop of `dir_lookup`. -/
def dirLookupFrom (dp : Nat) (name : List Byte) : List Nat → Fs (Option (Nat × Nat))
  | [] => return none
  | off :: offs => do
    let de ← readDirent dp off
    if dirNamecmp de.name name ∧ de.inum ≠ 0 then
      let inode ← readInode dp
      let ip ← inodeGet inode.dev de.inum.toNat
      return some (ip, off)
    dirLookupFrom dp name offs

/-- Looks for an entry in a directory; gives its inode and its offset. Reference: `dir_lookup`
(`kern/fs/dir.c:18`). -/
def dirLookup (dp : Nat) (name : List Byte) : Fs (Option (Nat × Nat)) := do
  let inode ← readInode dp
  if inode.din.type ≠ tDir then
    kernPanic .notDir
  dirLookupFrom dp name (entryOffsets inode.din.size.toNat)

/-- The loop of `dir_link`: the first free entry, or the end. -/
def freeEntryFrom (dp last : Nat) : List Nat → Fs Nat
  | [] => return last
  | off :: offs => do
    let de ← readDirent dp off
    if de.inum = 0 then return off
    freeEntryFrom dp last offs

/-- Writes a new entry into a directory; false is the result -1. Reference: `dir_link`
(`kern/fs/dir.c:40`). -/
def dirLink (dp : Nat) (name : List Byte) (inum : Nat) : Fs Bool := do
  match ← dirLookup dp name with
  | some (tmp, _) =>
    inodePut tmp
    return false
  | none =>
    let inode ← readInode dp
    let offs := entryOffsets inode.din.size.toNat
    let off ← freeEntryFrom dp (Dirent.size * offs.length) offs
    let de : Dirent := { inum := BitVec.ofNat 16 inum, name := padName name }
    if (← inodeWrite dp de.toBytes (BitVec.ofNat 32 off)) ≠ some Dirent.size then
      kernPanic .dirAssert
    return true

/-! ## Paths -/

/-- `'/'`. -/
def slash : Byte := 47

/-- The next element of a path and the path behind it. Reference: `skipelem`
(`kern/fs/path.c:39`). -/
def skipelem (path : List Byte) : Option (List Byte × List Byte) :=
  match path.dropWhile (· = slash) with
  | [] => none
  | c :: cs =>
    some (((c :: cs).takeWhile (· ≠ slash)).take (dirSiz - 1),
      ((c :: cs).dropWhile (· ≠ slash)).dropWhile (· = slash))

/-- The elements that repeated calls of `skipelem` give, with at most `turns` calls. -/
def elementsFrom : (turns : Nat) → (path : List Byte) → List (List Byte)
  | 0, _ => []
  | turns + 1, path =>
    match skipelem path with
    | none => []
    | some (name, rest) => name :: elementsFrom turns rest

/-- The elements of a path. A call of `skipelem` takes at least one byte. -/
def elements (path : List Byte) : List (List Byte) := elementsFrom path.length path

/-- Each turn makes the path shorter. -/
theorem length_skipelem {path name rest : List Byte} (h : skipelem path = some (name, rest)) :
    rest.length < path.length := by
  unfold skipelem at h
  split at h
  · cases h
  · rename_i c cs hdrop
    cases h
    have hlen : (c :: cs).length ≤ path.length := by
      rw [← hdrop]
      exact (List.dropWhile_sublist _).length_le
    have hc : c ≠ slash := by
      have := List.head?_dropWhile_not (· = slash) path
      rw [hdrop] at this
      simpa using this
    have hrest : ((c :: cs).dropWhile (· ≠ slash)).length ≤ cs.length := by
      rw [List.dropWhile_cons_of_pos (by simpa using hc)]
      exact (List.dropWhile_sublist _).length_le
    have hle := (List.dropWhile_sublist (l := (c :: cs).dropWhile (· ≠ slash))
      (· = slash)).length_le
    simp only [List.length_cons] at hlen
    omega

/-- More turns than bytes make no difference. -/
theorem elementsFrom_eq {turns turns' : Nat} {path : List Byte} (h : path.length ≤ turns)
    (h' : path.length ≤ turns') : elementsFrom turns path = elementsFrom turns' path := by
  induction turns generalizing path turns' with
  | zero =>
    obtain rfl : path = [] := List.eq_nil_of_length_eq_zero (Nat.le_zero.1 h)
    cases turns' <;> rfl
  | succ turns ih =>
    cases turns' with
    | zero =>
      obtain rfl : path = [] := List.eq_nil_of_length_eq_zero (Nat.le_zero.1 h')
      rfl
    | succ turns' =>
      unfold elementsFrom
      cases hskip : skipelem path with
      | none => rfl
      | some nr =>
        have hlt := length_skipelem (hskip : skipelem path = some (nr.1, nr.2))
        exact congrArg (nr.1 :: ·) (ih (by omega) (by omega))

/-- The loop of `namex` calls `skipelem` until there is no element left. -/
theorem elements_eq (path : List Byte) :
    elements path = match skipelem path with
      | none => []
      | some (name, rest) => name :: elements rest := by
  rw [elements, elementsFrom_eq (Nat.le_refl _) (Nat.le_succ path.length),
    elementsFrom]
  cases hskip : skipelem path with
  | none => rfl
  | some nr =>
    have hlt := length_skipelem (hskip : skipelem path = some (nr.1, nr.2))
    exact congrArg (nr.1 :: ·) (elementsFrom_eq (by omega) (Nat.le_refl _))

/-- The loop of `namex` from the inode `ip`, for the elements that are left; `name` is the last one
that was copied. -/
def namexFrom (nameiparent : Bool) (ip : Nat) (name : List Byte) :
    List (List Byte) → Fs (Option (Nat × List Byte))
  | [] => do
    if nameiparent then
      inodePut ip
      return none
    return some (ip, name)
  | name :: names => do
    inodeLock ip
    let inode ← readInode ip
    if inode.din.type ≠ tDir then
      inodeUnlockput ip
      return none
    if nameiparent ∧ names = [] then
      inodeUnlock ip
      return some (ip, name)
    let next ← dirLookup ip name
    inodeUnlockput ip
    match next with
    | none => return none
    | some (next, _) => namexFrom nameiparent next name names

/-- The inode at which a walk starts: the root, or the working directory (`kern/fs/path.c:84`). -/
def namexStart (path : List Byte) : Fs Nat :=
  if path.head? = some slash then inodeGet rootDev rootIno
  else do
    let ip ← getCwd
    inodeDup ip
    return ip

/-- Looks up a path; gives the inode and the last element. Reference: `namex`
(`kern/fs/path.c:78`). -/
def namex (path : List Byte) (nameiparent : Bool) : Fs (Option (Nat × List Byte)) := do
  let ip ← namexStart path
  namexFrom nameiparent ip [] (elements path)

/-- Reference: `namei` (`kern/fs/path.c:121`). -/
def namei (path : List Byte) : Fs (Option Nat) := do
  let r ← namex path false
  return r.map (·.1)

/-- Reference: `nameiparent` (`kern/fs/path.c:131`). -/
def nameiparent (path : List Byte) : Fs (Option (Nat × List Byte)) := namex path true

end MCertikos
