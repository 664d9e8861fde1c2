import MCertikos.Fs.Block

/-!
# Inodes

The functions of `kern/fs/inode.c`. An inode on disk is 64 bytes, so a block holds 8 of them. An
inode points to 12 data blocks and to an indirect block with 128 more.
-/

namespace MCertikos

open Program BitField

/-- A byte. -/
abbrev Byte := BitVec 8

/-- Reference: `NDIRECT` (`kern/fs/dinode.h:6`). -/
def nDirect : Nat := 12

/-- Reference: `NINDIRECT` (`kern/fs/dinode.h:7`). -/
def nIndirect : Nat := 128

/-- Reference: `MAXFILE` (`kern/fs/dinode.h:8`). -/
def maxFile : Nat := nDirect + nIndirect

/-- Inodes in a block. Reference: `IPB` (`kern/fs/dinode.h:23`). -/
def ipb : Nat := 8

/-- The block that holds an inode. Reference: `IBLOCK` (`kern/fs/dinode.h:26`). -/
def iblock (inum : Nat) : Nat := inum / ipb + 2

/-- Reference: `T_DIR` (`kern/fs/stat.h:6`). -/
def tDir : BitVec 16 := 1

/-- Reference: `T_FILE` (`kern/fs/stat.h:7`). -/
def tFile : BitVec 16 := 2

/-- Reference: `T_DEV` (`kern/fs/stat.h:8`). -/
def tDev : BitVec 16 := 3

/-! ## Inodes on disk -/

/-- The inode number `k` of a block. -/
def getDinode (b : Block) (k : Nat) : Dinode where
  type := get b (512 * k) 16
  major := get b (512 * k + 16) 16
  minor := get b (512 * k + 32) 16
  nlink := get b (512 * k + 48) 16
  size := get b (512 * k + 64) 32
  addrs := get b (512 * k + 96) 416

/-- Assigns to the fields of the inode number `k` of a block. -/
def putDinode (b : Block) (k : Nat) (din : Dinode) : Block :=
  let b := put b (512 * k) din.type
  let b := put b (512 * k + 16) din.major
  let b := put b (512 * k + 32) din.minor
  let b := put b (512 * k + 48) din.nlink
  let b := put b (512 * k + 64) din.size
  put b (512 * k + 96) din.addrs

/-- `addrs[i]`. -/
def Dinode.addr (din : Dinode) (i : Nat) : BitVec 32 := get din.addrs (32 * i) 32

/-- `addrs[i] = v`. -/
def Dinode.setAddr (din : Dinode) (i : Nat) (v : BitVec 32) : Dinode :=
  { din with addrs := put din.addrs (32 * i) v }

/-- The loop of `inode_alloc`. -/
def inodeAllocFrom (dev : Nat) (type : BitVec 16) : List Nat → Fs Nat
  | [] => kernPanic .allocNoInodes
  | inum :: inums => do
    let data ← bufcacheRead (iblock inum)
    if (getDinode data (inum % ipb)).type = 0 then
      bufSet (iblock inum) (putDinode data (inum % ipb)
        { type, major := 0, minor := 0, nlink := 0, size := 0, addrs := 0 })
      logWrite (iblock inum)
      bufcacheRelease (iblock inum)
      inodeGet dev inum
    else
      bufcacheRelease (iblock inum)
      inodeAllocFrom dev type inums

/-- Allocates an inode with the given type. Reference: `inode_alloc` (`kern/fs/inode.c:37`). -/
def inodeAlloc (dev : Nat) (type : BitVec 16) : Fs Nat := do
  let sb ← readSuperblock
  inodeAllocFrom dev type (List.range' 1 (sb.ninodes.toNat - 1))

/-- Copies an inode to the disk. Reference: `inode_update` (`kern/fs/inode.c:66`). -/
def inodeUpdate (ip : Nat) : Fs Unit := do
  let inode ← readInode ip
  let data ← bufcacheRead (iblock inode.inum)
  bufSet (iblock inode.inum) (putDinode data (inode.inum % ipb) inode.din)
  logWrite (iblock inode.inum)
  bufcacheRelease (iblock inode.inum)

/-- Locks an inode and reads it from the disk if necessary. Reference: `inode_lock`
(`kern/fs/inode.c:140`). -/
def inodeLock (ip : Nat) : Fs Unit := do
  let valid ← inodeAcquire ip
  if !valid then
    let inode ← readInode ip
    let data ← bufcacheRead (iblock inode.inum)
    setDinode ip (getDinode data (inode.inum % ipb))
    bufcacheRelease (iblock inode.inum)
    inodeSetValid ip
    if (getDinode data (inode.inum % ipb)).type = 0 then
      kernPanic .noType

/-! ## Inode content -/

/-- The indirect block of an inode, which is allocated if there is none (`kern/fs/inode.c:251`). -/
def indirectBlock (ip : Nat) : Fs Nat := do
  let inode ← readInode ip
  if inode.din.addr nDirect = 0 then
    let addr ← blockAlloc
    setDinode ip (inode.din.setAddr nDirect (BitVec.ofNat 32 addr))
    return addr
  return (inode.din.addr nDirect).toNat

/-- The entry number `bn` of an indirect block, whose block is allocated if there is none
(`kern/fs/inode.c:253`). -/
def indirectEntry (ind bn : Nat) : Fs Nat := do
  let data ← bufcacheRead ind
  if get data (32 * bn) 32 = 0 then
    let addr ← blockAlloc
    bufSet ind (put data (32 * bn) (BitVec.ofNat 32 addr))
    logWrite ind
    bufcacheRelease ind
    return addr
  bufcacheRelease ind
  return (get data (32 * bn) 32).toNat

/-- The address of the block number `bn` of an inode, which is allocated if there is none.
Reference: `bmap` (`kern/fs/inode.c:235`). -/
def bmap (ip : Nat) (bn : Nat) : Fs Nat := do
  if bn < nDirect then
    let inode ← readInode ip
    if inode.din.addr bn = 0 then
      let addr ← blockAlloc
      setDinode ip (inode.din.setAddr bn (BitVec.ofNat 32 addr))
      return addr
    return (inode.din.addr bn).toNat
  else if bn - nDirect < nIndirect then
    let ind ← indirectBlock ip
    indirectEntry ind (bn - nDirect)
  else kernPanic .bmapRange

/-- The first loop of `inode_trunc`. -/
def truncDirect (ip : Nat) : List Nat → Fs Unit
  | [] => pure ()
  | i :: is => do
    let inode ← readInode ip
    if inode.din.addr i ≠ 0 then
      blockFree (inode.din.addr i).toNat
      setDinode ip (inode.din.setAddr i 0)
    truncDirect ip is

/-- The second loop of `inode_trunc`. -/
def truncIndirect (data : Block) : List Nat → Fs Unit
  | [] => pure ()
  | j :: js => do
    if get data (32 * j) 32 ≠ 0 then
      blockFree (get data (32 * j) 32).toNat
    truncIndirect data js

/-- Discards the contents of an inode. Reference: `inode_trunc` (`kern/fs/inode.c:275`). -/
def inodeTrunc (ip : Nat) : Fs Unit := do
  truncDirect ip (List.range nDirect)
  let inode ← readInode ip
  if inode.din.addr nDirect ≠ 0 then
    let data ← bufcacheRead (inode.din.addr nDirect).toNat
    truncIndirect data (List.range nIndirect)
    bufcacheRelease (inode.din.addr nDirect).toNat
    blockFree (inode.din.addr nDirect).toNat
    setDinode ip (inode.din.setAddr nDirect 0)
  let inode ← readInode ip
  setDinode ip { inode.din with size := 0 }
  inodeUpdate ip

/-- Drops a reference to an inode, and frees the inode if this was the last one and it has no
links. Reference: `inode_put` (`kern/fs/inode.c:192`). -/
def inodePut (ip : Nat) : Fs Unit := do
  let last ← inodePutTest ip
  if last then
    inodeTrunc ip
    let inode ← readInode ip
    setDinode ip { inode.din with type := 0 }
    inodeUpdate ip
    inodePutDrop ip

/-- Reference: `inode_unlockput` (`kern/fs/inode.c:216`). -/
def inodeUnlockput (ip : Nat) : Fs Unit := do
  inodeUnlock ip
  inodePut ip

/-- The `m` bytes of a block from the offset `o`. -/
def getBytes (b : Block) (o m : Nat) : List Byte :=
  (List.range m).map fun i => get b (8 * (o + i)) 8

/-- Writes bytes into a block from the offset `o`. -/
def putBytes (b : Block) (o : Nat) : List Byte → Block
  | [] => b
  | v :: vs => putBytes (put b (8 * o) v) (o + 1) vs

/-- The loop of `inode_read`, for the `n` bytes from `off`. A turn takes at least one byte, so `n`
turns are enough. -/
def inodeReadFrom (ip : Nat) : (turns off n : Nat) → Fs (List Byte)
  | 0, _, _ => pure []
  | turns + 1, off, n =>
    if n = 0 then pure []
    else do
      let bno ← bmap ip (off / bSize)
      let data ← bufcacheRead bno
      let m := min n (bSize - off % bSize)
      bufcacheRelease bno
      let rest ← inodeReadFrom ip turns (off + m) (n - m)
      return getBytes data (off % bSize) m ++ rest

/-- Reads data from an inode; `none` is the result -1. No driver is installed in `devsw`, so that a
read from a device fails. Reference: `inode_read` (`kern/fs/inode.c:323`). -/
def inodeRead (ip : Nat) (off n : BitVec 32) : Fs (Option (List Byte)) := do
  let inode ← readInode ip
  if inode.din.type = tDev then
    return none
  if inode.din.size < off ∨ off + n < off then
    return none
  let n := if inode.din.size < off + n then inode.din.size - off else n
  let data ← inodeReadFrom ip n.toNat off.toNat n.toNat
  return some data

/-- The loop of `inode_write`, with the bytes that are left to write. -/
def inodeWriteFrom (ip : Nat) : (turns off : Nat) → (src : List Byte) → Fs Unit
  | 0, _, _ => pure ()
  | turns + 1, off, src =>
    if src.length = 0 then pure ()
    else do
      let bno ← bmap ip (off / bSize)
      let data ← bufcacheRead bno
      let m := min src.length (bSize - off % bSize)
      bufSet bno (putBytes data (off % bSize) (src.take m))
      logWrite bno
      bufcacheRelease bno
      inodeWriteFrom ip turns (off + m) (src.drop m)

/-- Writes data to an inode; `none` is the result -1. Reference: `inode_write`
(`kern/fs/inode.c:356`). -/
def inodeWrite (ip : Nat) (src : List Byte) (off : BitVec 32) : Fs (Option Nat) := do
  let n := BitVec.ofNat 32 src.length
  let inode ← readInode ip
  if inode.din.type = tDev then
    return none
  if inode.din.size < off ∨ off + n < off then
    return none
  if BitVec.ofNat 32 (maxFile * bSize) < off + n then
    return none
  inodeWriteFrom ip src.length off.toNat src
  let inode ← readInode ip
  if 0 < n ∧ inode.din.size < off + n then
    setDinode ip { inode.din with size := off + n }
    inodeUpdate ip
  return some src.length

/-- Reference: `struct file_stat` (`kern/fs/stat.h:10`). -/
structure FileStat where
  type : BitVec 16
  dev : Nat
  ino : Nat
  nlink : BitVec 16
  size : BitVec 32
  deriving DecidableEq

/-- Reference: `inode_stat` (`kern/fs/inode.c:311`). -/
def inodeStat (inode : Inode) : FileStat where
  type := inode.din.type
  dev := inode.dev
  ino := inode.inum
  nlink := inode.din.nlink
  size := inode.din.size

end MCertikos
