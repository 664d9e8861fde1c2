import MCertikos.Fs.File

/-!
# File system calls

The system calls of `kern/fs/sysfile.c`, apart from `sys_flock`. What the trap frame holds are the
arguments: an address and a length in user memory for each buffer. What `pt_copyin` leaves in a
buffer of the kernel is an argument too: `path` are the bytes of the local array `path` and of the
memory behind it.
-/

namespace MCertikos

open Program

/-- The error numbers that the calls return. Reference: `enum __error_nr`
(`kern/lib/syscall.h:53`). -/
inductive Errno where
  /-- `E_SUCC`. -/
  | succ
  /-- `E_INVAL_ADDR`. -/
  | invalAddr
  /-- `E_DISK_OP`. -/
  | diskOp
  /-- `E_NEXIST`. -/
  | nexist
  /-- `E_CREATE`. -/
  | create
  /-- `E_BADF`. -/
  | badf
  deriving DecidableEq, Repr

/-- What a call returns: the error number, the first return value if it is set, and what is copied
to the buffer of the user. -/
structure SysRet where
  errno : Errno
  retval1 : Option Int
  out : List Byte
  stat : Option FileStat
  deriving DecidableEq

namespace SysRet

/-- `syscall_set_errno(tf, errno)` alone. -/
def err (errno : Errno) : SysRet := { errno, retval1 := none, out := [], stat := none }

/-- `syscall_set_errno(tf, errno)` and `syscall_set_retval1(tf, v)`. -/
def val (errno : Errno) (v : Int) : SysRet := { errno, retval1 := some v, out := [], stat := none }

end SysRet

/-- Reference: `VM_USERLO` (`kern/lib/trap.h:10`). -/
def vmUserlo : BitVec 32 := 0x40000000

/-- Reference: `VM_USERHI` (`kern/lib/trap.h:9`). -/
def vmUserhi : BitVec 32 := 0xf0000000

/-- Reference: `BUFLEN_MAX` (`kern/fs/sysfile.c:21`). -/
def buflenMax : BitVec 32 := 10000

/-- Reference: `O_RDONLY` (`kern/fs/fcntl.h:6`). -/
def oRdonly : BitVec 32 := 0

/-- Reference: `O_WRONLY` (`kern/fs/fcntl.h:7`). -/
def oWronly : BitVec 32 := 1

/-- Reference: `O_RDWR` (`kern/fs/fcntl.h:8`). -/
def oRdwr : BitVec 32 := 2

/-- Reference: `O_CREATE` (`kern/fs/fcntl.h:9`). -/
def oCreate : BitVec 32 := 0x200

/-- Reference: `check_buf` (`kern/fs/sysfile.c:28`). -/
def checkBuf (buf len maxlen : BitVec 32) : Bool :=
  ¬ (¬ (vmUserlo ≤ buf ∧ buf + len ≤ vmUserhi) ∨ (0 < maxlen ∧ maxlen ≤ len))

/-- The string in a buffer of the kernel, up to a NUL. -/
def cstring (bytes : List Byte) : List Byte := bytes.takeWhile (· ≠ 0)

/-- The loop of `fdalloc`. -/
def fdallocFrom (f : Nat) : List Nat → Fs (Option Nat)
  | [] => return none
  | fd :: fds => do
    if (← getOpenfile fd) = none then
      setOpenfile fd (some f)
      return some fd
    fdallocFrom f fds

/-- A free descriptor for a file; `none` is the result -1. Reference: `fdalloc`
(`kern/fs/sysfile.c:47`). -/
def fdalloc (f : Nat) : Fs (Option Nat) := fdallocFrom f (List.range nOFile)

/-- The file of a descriptor, if it is open and refers to an inode. -/
def inodeFile (fd : Int) : Fs (Option Nat) := do
  if ¬ (0 ≤ fd ∧ fd < nOFile) then
    return none
  match ← getOpenfile fd.toNat with
  | none => return none
  | some f =>
    if (← readFile f).type ≠ .inode then
      return none
    return some f

/-- Reference: `sys_read` (`kern/fs/sysfile.c:75`). -/
def sysRead (fd : Int) (buf buflen : BitVec 32) : Fs SysRet := do
  if !checkBuf buf buflen buflenMax then
    return .val .invalAddr (-1)
  match ← inodeFile fd with
  | none => return .val .badf (-1)
  | some f =>
    match ← fileRead f buflen with
    | some data =>
      return { errno := .succ, retval1 := some data.length, out := data, stat := none }
    | none => return .val .badf (-1)

/-- Writes the bytes that `pt_copyin` left in `fsbuf[pid]`. Reference: `sys_write`
(`kern/fs/sysfile.c:125`). -/
def sysWrite (fd : Int) (buf buflen : BitVec 32) (fsbuf : Nat → Byte) : Fs SysRet := do
  if !checkBuf buf buflen buflenMax then
    return .val .invalAddr (-1)
  match ← inodeFile fd with
  | none => return .val .badf (-1)
  | some f =>
    match ← fileWrite f ((List.range buflen.toNat).map fsbuf) with
    | some n => return .val .succ n
    | none => return .val .badf (-1)

/-- Reference: `sys_close` (`kern/fs/sysfile.c:171`). -/
def sysClose (fd : Int) : Fs SysRet := do
  if ¬ (0 ≤ fd ∧ fd < nOFile) then
    return .val .badf (-1)
  match ← getOpenfile fd.toNat with
  | none => return .val .badf (-1)
  | some f =>
    if (← readFile f).ref < 1 then
      return .val .badf (-1)
    fileClose f
    setOpenfile fd.toNat none
    return .val .succ 0

/-- `sizeof(struct file_stat)`. -/
def fileStatSize : BitVec 32 := 20

/-- Reference: `sys_fstat` (`kern/fs/sysfile.c:207`). -/
def sysFstat (fd : Int) (stat : BitVec 32) : Fs SysRet := do
  if !checkBuf stat fileStatSize 0 then
    return .val .invalAddr (-1)
  match ← inodeFile fd with
  | none => return .val .badf (-1)
  | some f =>
    match ← fileStat f with
    | some st => return { errno := .succ, retval1 := some 0, out := [], stat := some st }
    | none => return .val .badf (-1)

/-- The exit `bad` of `sys_link`. -/
def linkBad (ip : Nat) : Fs SysRet := do
  inodeLock ip
  let inode ← readInode ip
  setDinode ip { inode.din with nlink := inode.din.nlink - 1 }
  inodeUpdate ip
  inodeUnlockput ip
  commitTrans
  return .err .diskOp

/-- Makes the entry of `sys_link` for the inode `ip` (`kern/fs/sysfile.c:293`). -/
def linkEntry (dp ip : Nat) (name : List Byte) : Fs Bool := do
  let dinode ← readInode dp
  let inode ← readInode ip
  if dinode.dev ≠ inode.dev then
    return false
  dirLink dp name inode.inum

/-- Reference: `sys_link` (`kern/fs/sysfile.c:253`). -/
def sysLink (uold unew oldlen newlen : BitVec 32) (old new : List Byte) : Fs SysRet := do
  if !checkBuf uold oldlen 128 || !checkBuf unew newlen 128 then
    return .val .invalAddr (-1)
  match ← namei (cstring old) with
  | none => return .err .nexist
  | some ip =>
    beginTrans
    inodeLock ip
    let inode ← readInode ip
    if inode.din.type = tDir then
      inodeUnlockput ip
      commitTrans
      return .err .diskOp
    setDinode ip { inode.din with nlink := inode.din.nlink + 1 }
    inodeUpdate ip
    inodeUnlock ip
    match ← nameiparent (cstring new) with
    | none => linkBad ip
    | some (dp, name) =>
      inodeLock dp
      let linked ← linkEntry dp ip name
      inodeUnlockput dp
      if !linked then
        linkBad ip
      else
        inodePut ip
        commitTrans
        return .err .succ

/-- The loop of `isdirempty`. -/
def isdiremptyFrom (dp : Nat) : List Nat → Fs Bool
  | [] => return true
  | off :: offs => do
    match ← inodeRead dp (BitVec.ofNat 32 off) (BitVec.ofNat 32 Dirent.size) with
    | some bs =>
      if bs.length ≠ Dirent.size then
        kernPanic .dirEmptyRead
      if (Dirent.ofBytes bs).inum ≠ 0 then
        return false
      isdiremptyFrom dp offs
    | none => kernPanic .dirEmptyRead

/-- Is the directory empty except for its first two entries? Reference: `isdirempty`
(`kern/fs/sysfile.c:317`). -/
def isdirempty (dp : Nat) : Fs Bool := do
  let inode ← readInode dp
  isdiremptyFrom dp ((entryOffsets inode.din.size.toNat).drop 2)

/-- A directory that cannot be unlinked (`kern/fs/sysfile.c:367`). -/
def isFullDir (ip : Nat) : Fs Bool := do
  let inode ← readInode ip
  if inode.din.type ≠ tDir then
    return false
  let empty ← isdirempty ip
  return !empty

/-- The exit `bad` of `sys_unlink`. -/
def unlinkBad (dp : Nat) : Fs SysRet := do
  inodeUnlockput dp
  commitTrans
  return .err .diskOp

/-- Reference: `sys_unlink` (`kern/fs/sysfile.c:332`). -/
def sysUnlink (buf buflen : BitVec 32) (path : List Byte) : Fs SysRet := do
  if !checkBuf buf buflen 128 then
    return .val .invalAddr (-1)
  match ← nameiparent (cstring path) with
  | none => return .err .diskOp
  | some (dp, name) =>
    beginTrans
    inodeLock dp
    if dirNamecmp name [46] ∨ dirNamecmp name [46, 46] then
      unlinkBad dp
    else
      match ← dirLookup dp name with
      | none => unlinkBad dp
      | some (ip, off) =>
        inodeLock ip
        let inode ← readInode ip
        if inode.din.nlink.toInt < 1 then
          kernPanic .unlinkNlink
        if ← isFullDir ip then
          inodeUnlockput ip
          unlinkBad dp
        else
          let de : Dirent := { inum := 0, name := List.replicate dirSiz 0 }
          if (← inodeWrite dp de.toBytes (BitVec.ofNat 32 off)) ≠ some Dirent.size then
            kernPanic .unlinkWrite
          if inode.din.type = tDir then
            let dinode ← readInode dp
            setDinode dp { dinode.din with nlink := dinode.din.nlink - 1 }
            inodeUpdate dp
          inodeUnlockput dp
          let inode ← readInode ip
          setDinode ip { inode.din with nlink := inode.din.nlink - 1 }
          inodeUpdate ip
          inodeUnlockput ip
          commitTrans
          return .err .succ

/-- The part of `create` that makes a new inode in the locked directory `dp`. -/
def createIn (dp : Nat) (name : List Byte) (type major minor : BitVec 16) : Fs Nat := do
  let dinode ← readInode dp
  let ip ← inodeAlloc dinode.dev type
  inodeLock ip
  let inode ← readInode ip
  setDinode ip { inode.din with major, minor, nlink := 1 }
  inodeUpdate ip
  if type = tDir then
    let dinode ← readInode dp
    setDinode dp { dinode.din with nlink := dinode.din.nlink + 1 }
    inodeUpdate dp
    if !(← dirLink ip [46] inode.inum) then
      kernPanic .createDots
    if !(← dirLink ip [46, 46] dinode.inum) then
      kernPanic .createDots
  if !(← dirLink dp name inode.inum) then
    kernPanic .createLink
  inodeUnlockput dp
  return ip

/-- Creates an inode, or opens a file that exists; gives it locked. Reference: `create`
(`kern/fs/sysfile.c:401`). -/
def create (path : List Byte) (type major minor : BitVec 16) : Fs (Option Nat) := do
  match ← nameiparent path with
  | none => return none
  | some (dp, name) =>
    inodeLock dp
    match ← dirLookup dp name with
    | some (ip, _) =>
      inodeUnlockput dp
      inodeLock ip
      let inode ← readInode ip
      if type = tFile ∧ inode.din.type = tFile then
        return some ip
      inodeUnlockput ip
      return none
    | none =>
      let ip ← createIn dp name type major minor
      return some ip

/-- The end of `sys_open`, with the locked inode `ip`. -/
def openInode (ip : Nat) (omode : BitVec 32) : Fs SysRet := do
  match ← fileAlloc with
  | none =>
    inodeUnlockput ip
    return .val .diskOp (-1)
  | some f =>
    match ← fdalloc f with
    | none =>
      fileClose f
      inodeUnlockput ip
      return .val .diskOp (-1)
    | some fd =>
      inodeUnlock ip
      fileSetInode f ip (omode &&& oWronly = 0) (omode &&& oWronly ≠ 0 ∨ omode &&& oRdwr ≠ 0)
      return .val .succ fd

/-- Reference: `sys_open` (`kern/fs/sysfile.c:446`). -/
def sysOpen (buf omode buflen : BitVec 32) (path : List Byte) : Fs SysRet := do
  if !checkBuf buf buflen 128 then
    return .val .invalAddr (-1)
  if omode &&& oCreate ≠ 0 then
    beginTrans
    let r ← create (cstring path) tFile 0 0
    commitTrans
    match r with
    | none => return .val .create (-1)
    | some ip => openInode ip omode
  else
    match ← namei (cstring path) with
    | none => return .val .nexist (-1)
    | some ip =>
      inodeLock ip
      let inode ← readInode ip
      if inode.din.type = tDir ∧ omode ≠ oRdonly then
        inodeUnlockput ip
        return .val .diskOp (-1)
      openInode ip omode

/-- Reference: `sys_mkdir` (`kern/fs/sysfile.c:514`). -/
def sysMkdir (buf buflen : BitVec 32) (path : List Byte) : Fs SysRet := do
  if !checkBuf buf buflen 128 then
    return .val .invalAddr (-1)
  beginTrans
  match ← create (cstring path) tDir 0 0 with
  | none =>
    commitTrans
    return .err .diskOp
  | some ip =>
    inodeUnlockput ip
    commitTrans
    return .err .succ

/-- Reference: `sys_chdir` (`kern/fs/sysfile.c:541`). -/
def sysChdir (buf buflen : BitVec 32) (path : List Byte) : Fs SysRet := do
  if !checkBuf buf buflen 128 then
    return .val .invalAddr (-1)
  match ← namei (cstring path) with
  | none => return .err .diskOp
  | some ip =>
    inodeLock ip
    let inode ← readInode ip
    if inode.din.type ≠ tDir then
      inodeUnlockput ip
      return .err .diskOp
    inodeUnlock ip
    let cwd ← getCwd
    inodePut cwd
    setCwd ip
    return .err .succ

/-- The file system calls, with their arguments. -/
inductive Syscall where
  | open (buf omode buflen : BitVec 32) (path : List Byte)
  | close (fd : Int)
  | read (fd : Int) (buf buflen : BitVec 32)
  | write (fd : Int) (buf buflen : BitVec 32) (fsbuf : Nat → Byte)
  | link (uold unew oldlen newlen : BitVec 32) (old new : List Byte)
  | unlink (buf buflen : BitVec 32) (path : List Byte)
  | mkdir (buf buflen : BitVec 32) (path : List Byte)
  | chdir (buf buflen : BitVec 32) (path : List Byte)
  | fstat (fd : Int) (stat : BitVec 32)

/-- The code of a call. -/
def Syscall.code : Syscall → Fs SysRet
  | .open buf omode buflen path => sysOpen buf omode buflen path
  | .close fd => sysClose fd
  | .read fd buf buflen => sysRead fd buf buflen
  | .write fd buf buflen fsbuf => sysWrite fd buf buflen fsbuf
  | .link uold unew oldlen newlen old new => sysLink uold unew oldlen newlen old new
  | .unlink buf buflen path => sysUnlink buf buflen path
  | .mkdir buf buflen path => sysMkdir buf buflen path
  | .chdir buf buflen path => sysChdir buf buflen path
  | .fstat fd stat => sysFstat fd stat

end MCertikos
