import MCertikos.Flock.File
import MCertikos.Lib.BitField
import MCertikos.Lib.Prog

/-!
# The operations of the file system code

The functions of `kern/fs` are written as programs (`Fs`) over the operations below: accesses to
disk buffers, to the in-memory log, to the inode cache, to the file table, and to the tables of the
calling process. An operation is a step that other threads see as one: a critical section under a
spinlock, or an access to data that the caller has locked. What the operations do is said by a
handler (`kern/fs/bufcache.c` and the spinlock sections of `log.c`, `inode.c` and `file.c`).

There is one disk, `ROOTDEV`, so a buffer is named by its sector alone. A pointer to a buffer is
the sector of the buffer; pointers to inodes and files are indices into `inode_cache.inode` and
`ftable.file`.
-/

namespace MCertikos

open Program BitField

/-! ## Parameters -/

/-- Reference: `NOFILE` (`kern/fs/params.h:6`). -/
def nOFile : Nat := 16

/-- Reference: `NFILE` (`kern/fs/params.h:7`). -/
def nFile : Nat := 100

/-- Reference: `NBUF` (`kern/fs/params.h:8`). -/
def nBuf : Nat := 10

/-- Reference: `NINODE` (`kern/fs/params.h:9`). -/
def nInode : Nat := 50

/-- Reference: `ROOTDEV` (`kern/fs/params.h:11`). -/
def rootDev : Nat := 1

/-- Reference: `LOGSIZE` (`kern/fs/params.h:13`). -/
def logSize : Nat := 10

/-- Reference: `ROOTINO` (`kern/fs/params.h:15`). -/
def rootIno : Nat := 1

/-- Reference: `BSIZE` (`kern/fs/params.h:16`). -/
def bSize : Nat := 512

/-! ## Data -/

/-- The contents of a sector: 512 bytes, little endian. -/
abbrev Block := BitVec 4096

/-- The fields that an inode has on disk and in memory. The array `addrs` is 13 little-endian
words. Reference: `struct dinode` (`kern/fs/dinode.h:11`). -/
structure Dinode where
  type : BitVec 16
  major : BitVec 16
  minor : BitVec 16
  nlink : BitVec 16
  size : BitVec 32
  addrs : BitVec 416
  deriving DecidableEq

/-- An entry of the inode cache. Reference: `struct inode` (`kern/fs/inode.h:74`). -/
structure Inode where
  dev : Nat
  inum : Nat
  ref : Int
  /-- `I_BUSY`. -/
  busy : Bool
  /-- `I_VALID`. -/
  valid : Bool
  /-- The copy of the disk inode. -/
  din : Dinode
  flock : Flock

/-- An open file. Reference: `struct file` (`kern/fs/file.h:18`). -/
structure File where
  type : FdType
  ref : Int
  readable : Bool
  writable : Bool
  ip : Nat
  off : BitVec 32
  holdingFlock : BitVec 32

/-- The in-memory log, with the header `lh`. Reference: `struct log` (`kern/fs/log.c:42`). -/
structure Log where
  start : Nat
  size : Nat
  busy : Bool
  n : Nat
  sector : Nat → Nat

/-- The calls of `KERN_PANIC` and `KERN_ASSERT` in the modelled functions. -/
inductive Panic where
  /-- `"bufcache_get: no buffers"` (`kern/fs/bufcache.c:93`). -/
  | noBuffers
  /-- `"bwrite"` (`kern/fs/bufcache.c:117`). -/
  | bwrite
  /-- `"brelse"` (`kern/fs/bufcache.c:130`). -/
  | brelse
  /-- `"ide_rw: buf not busy"` (`kern/dev/disk/ide.c:120`). -/
  | ideNotBusy
  /-- `"ide_rw: nothing to do"` (`kern/dev/disk/ide.c:122`). -/
  | ideNothing
  /-- `"too big a transaction"` (`kern/fs/log.c:157`). -/
  | tooBig
  /-- `"write outside of trans"` (`kern/fs/log.c:160`). -/
  | outsideTrans
  /-- `"balloc: out of blocks"` (`kern/fs/block.c:53`). -/
  | outOfBlocks
  /-- `"freeing free block"` (`kern/fs/block.c:69`). -/
  | freeingFree
  /-- `"inode_alloc: no inodes"` (`kern/fs/inode.c:59`). -/
  | allocNoInodes
  /-- `"inode_get: no inodes"` (`kern/fs/inode.c:109`). -/
  | getNoInodes
  /-- `"inode_lock"` (`kern/fs/inode.c:146`). -/
  | inodeLock
  /-- `"inode_lock: no type"` (`kern/fs/inode.c:167`). -/
  | noType
  /-- `"inode_unlock"` (`kern/fs/inode.c:177`). -/
  | inodeUnlock
  /-- `"inode_put busy"` (`kern/fs/inode.c:199`). -/
  | putBusy
  /-- `"bmap: out of range"` (`kern/fs/inode.c:264`). -/
  | bmapRange
  /-- `"dir_lookup not DIR"` (`kern/fs/dir.c:24`). -/
  | notDir
  /-- The assertions of `dir_lookup` and `dir_link` (`kern/fs/dir.c:27`). -/
  | dirAssert
  /-- `"isdirempty: readi"` (`kern/fs/sysfile.c:326`). -/
  | dirEmptyRead
  /-- `"unlink: nlink < 1"` (`kern/fs/sysfile.c:366`). -/
  | unlinkNlink
  /-- `"unlink: writei"` (`kern/fs/sysfile.c:375`). -/
  | unlinkWrite
  /-- `"create dots"` (`kern/fs/sysfile.c:436`). -/
  | createDots
  /-- `"create: dir_link"` (`kern/fs/sysfile.c:440`). -/
  | createLink
  /-- `"file_close"` (`kern/fs/file.c:69`). -/
  | fileClose
  /-- `"file_read"` (`kern/fs/file.c:125`). -/
  | fileRead
  /-- `"file_write"` (`kern/fs/file.c:169`). -/
  | fileWrite
  /-- `"short file_write"` (`kern/fs/file.c:164`). -/
  | shortWrite
  /-- Not a panic of the code: a buffer is used by a thread that does not hold it. -/
  | misuse
  /-- Not a panic of the code: a buffer is given back with changes that were neither logged nor
  written. -/
  | unsaved
  deriving DecidableEq, Repr

/-! ## Operations -/

/-- The operations. -/
inductive FsOp where
  /-- `bufcache_read`: waits for the buffer of the sector, locks it and gives its contents. -/
  | bread (sector : Nat)
  /-- Reads the contents of a locked buffer. -/
  | bget (sector : Nat)
  /-- Stores new contents in a locked buffer. -/
  | bset (sector : Nat) (data : Block)
  /-- `bufcache_write`. -/
  | bwrite (sector : Nat)
  /-- `bufcache_release`. -/
  | brelse (sector : Nat)
  /-- `b->flags |= B_DIRTY`. -/
  | bdirty (sector : Nat)
  /-- Reads the in-memory log. -/
  | logGet
  /-- Sets `log.start` and `log.size`. -/
  | logSetArea (start size : Nat)
  /-- `log.lh.sector[i] = v`. -/
  | logSetSector (i v : Nat)
  /-- `log.lh.n = n`. -/
  | logSetN (n : Nat)
  /-- The critical section of `begin_trans`: waits until no transaction is active and starts
  one. -/
  | logAcquire
  /-- The critical section of `commit_trans`. -/
  | logRelease
  /-- The two tests at the start of `log_write`. -/
  | logCheck
  /-- `inode_get`. -/
  | inodeGet (dev inum : Nat)
  /-- `inode_dup`. -/
  | inodeDup (ip : Nat)
  /-- `inode_lock` up to the point where it holds `I_BUSY`. -/
  | inodeAcquire (ip : Nat)
  /-- Reads an inode. -/
  | inodeRead (ip : Nat)
  /-- Assigns to the copy of the disk inode. -/
  | inodeSet (ip : Nat) (din : Dinode)
  /-- `ip->flags |= I_VALID`. -/
  | inodeSetValid (ip : Nat)
  /-- `inode_unlock`. -/
  | inodeUnlock (ip : Nat)
  /-- The first critical section of `inode_put`: says whether the inode has to be freed, and locks
  it in that case; otherwise the reference is dropped. -/
  | inodePutTest (ip : Nat)
  /-- The second critical section of `inode_put`, after the inode was freed. -/
  | inodePutDrop (ip : Nat)
  /-- `file_alloc`. -/
  | fileAlloc
  /-- The critical section of `file_close`: the copy `ff` of the file if this was its last
  reference. -/
  | fileDrop (f : Nat)
  /-- Reads an open file. -/
  | fileGet (f : Nat)
  /-- `f->off += n`. -/
  | fileAdvance (f : Nat) (n : BitVec 32)
  /-- The assignments to a new file at the end of `sys_open`. -/
  | fileSetInode (f ip : Nat) (readable writable : Bool)
  /-- `tcb_get_openfiles(pid)[fd]`. -/
  | getOpenfile (fd : Nat)
  /-- `tcb_set_openfiles(pid, fd, f)`. -/
  | setOpenfile (fd : Nat) (f : Option Nat)
  /-- `tcb_get_cwd(pid)`. -/
  | getCwd
  /-- `tcb_set_cwd(pid, ip)`. -/
  | setCwd (ip : Nat)
  /-- `flock_release(&ip->flock, lockType)`. -/
  | flockRelease (ip : Nat) (lockType : BitVec 32)
  /-- A panic. -/
  | halt (e : Panic)

/-- What the operations return. -/
def FsOp.Resp : FsOp → Type
  | .bread _ | .bget _ => Block
  | .logGet | .logCheck => Log
  | .inodeGet _ _ => Nat
  | .inodeAcquire _ | .inodePutTest _ => Bool
  | .inodeRead _ => Inode
  | .fileAlloc | .getOpenfile _ => Option Nat
  | .fileDrop _ => Option File
  | .fileGet _ => File
  | .getCwd => Nat
  | .halt _ => Empty
  | _ => Unit

/-- The signature of the file system code. -/
def fsSig : Sig where
  Op := FsOp
  Resp := FsOp.Resp

/-- A program of the file system. -/
abbrev Fs (α : Type) := Prog fsSig α

/-- A panic. Reference: `KERN_PANIC` (`kern/lib/debug.h`). -/
def kernPanic {α : Type} (e : Panic) : Fs α := .op (.halt e) (Empty.elim ·)

/-- Reference: `bufcache_read` (`kern/fs/bufcache.c:100`). -/
def bufcacheRead (sector : Nat) : Fs Block := .call (S := fsSig) (.bread sector)

/-- Reads `b->data`. -/
def bufGet (sector : Nat) : Fs Block := .call (S := fsSig) (.bget sector)

/-- Assigns to `b->data`. -/
def bufSet (sector : Nat) (data : Block) : Fs Unit := .call (S := fsSig) (.bset sector data)

/-- Reference: `bufcache_write` (`kern/fs/bufcache.c:114`). -/
def bufcacheWrite (sector : Nat) : Fs Unit := .call (S := fsSig) (.bwrite sector)

/-- Reference: `bufcache_release` (`kern/fs/bufcache.c:127`). -/
def bufcacheRelease (sector : Nat) : Fs Unit := .call (S := fsSig) (.brelse sector)

/-- `b->flags |= B_DIRTY`. -/
def bufDirty (sector : Nat) : Fs Unit := .call (S := fsSig) (.bdirty sector)

/-- Reads `log`. -/
def logGet : Fs Log := .call (S := fsSig) .logGet

/-- `log.start = start`, `log.size = size`. -/
def logSetArea (start size : Nat) : Fs Unit := .call (S := fsSig) (.logSetArea start size)

/-- `log.lh.sector[i] = v`. -/
def logSetSector (i v : Nat) : Fs Unit := .call (S := fsSig) (.logSetSector i v)

/-- `log.lh.n = n`. -/
def logSetN (n : Nat) : Fs Unit := .call (S := fsSig) (.logSetN n)

/-- The tests at the start of `log_write` (`kern/fs/log.c:156`). -/
def logCheck : Fs Log := .call (S := fsSig) .logCheck

/-- Reference: `begin_trans` (`kern/fs/log.c:119`). -/
def beginTrans : Fs Unit := .call (S := fsSig) .logAcquire

/-- The critical section at the end of `commit_trans` (`kern/fs/log.c:138`). -/
def logRelease : Fs Unit := .call (S := fsSig) .logRelease

/-- Reference: `inode_get` (`kern/fs/inode.c:89`). -/
def inodeGet (dev inum : Nat) : Fs Nat := .call (S := fsSig) (.inodeGet dev inum)

/-- Reference: `inode_dup` (`kern/fs/inode.c:128`). -/
def inodeDup (ip : Nat) : Fs Unit := .call (S := fsSig) (.inodeDup ip)

/-- Waits until `I_BUSY` is clear and sets it; says whether `I_VALID` is set. -/
def inodeAcquire (ip : Nat) : Fs Bool := .call (S := fsSig) (.inodeAcquire ip)

/-- Reads the fields of an inode. -/
def readInode (ip : Nat) : Fs Inode := .call (S := fsSig) (.inodeRead ip)

/-- Assigns to the fields that an inode has on disk. -/
def setDinode (ip : Nat) (din : Dinode) : Fs Unit := .call (S := fsSig) (.inodeSet ip din)

/-- `ip->flags |= I_VALID`. -/
def inodeSetValid (ip : Nat) : Fs Unit := .call (S := fsSig) (.inodeSetValid ip)

/-- Reference: `inode_unlock` (`kern/fs/inode.c:174`). -/
def inodeUnlock (ip : Nat) : Fs Unit := .call (S := fsSig) (.inodeUnlock ip)

/-- The first critical section of `inode_put`. -/
def inodePutTest (ip : Nat) : Fs Bool := .call (S := fsSig) (.inodePutTest ip)

/-- The second critical section of `inode_put`. -/
def inodePutDrop (ip : Nat) : Fs Unit := .call (S := fsSig) (.inodePutDrop ip)

/-- Reference: `file_alloc` (`kern/fs/file.c:28`). -/
def fileAlloc : Fs (Option Nat) := .call (S := fsSig) .fileAlloc

/-- The critical section of `file_close`. -/
def fileDrop (f : Nat) : Fs (Option File) := .call (S := fsSig) (.fileDrop f)

/-- Reads the fields of an open file. -/
def readFile (f : Nat) : Fs File := .call (S := fsSig) (.fileGet f)

/-- `f->off += n`. -/
def fileAdvance (f : Nat) (n : BitVec 32) : Fs Unit := .call (S := fsSig) (.fileAdvance f n)

/-- The assignments to the fields of a new file (`kern/fs/sysfile.c:505`). -/
def fileSetInode (f ip : Nat) (readable writable : Bool) : Fs Unit :=
  .call (S := fsSig) (.fileSetInode f ip readable writable)

/-- Reference: `tcb_get_openfiles` (`kern/thread/PTCBIntro/PTCBIntro.c:95`). -/
def getOpenfile (fd : Nat) : Fs (Option Nat) := .call (S := fsSig) (.getOpenfile fd)

/-- Reference: `tcb_set_openfiles` (`kern/thread/PTCBIntro/PTCBIntro.c:100`). -/
def setOpenfile (fd : Nat) (f : Option Nat) : Fs Unit := .call (S := fsSig) (.setOpenfile fd f)

/-- Reference: `tcb_get_cwd` (`kern/thread/PTCBIntro/PTCBIntro.c:105`). -/
def getCwd : Fs Nat := .call (S := fsSig) .getCwd

/-- Reference: `tcb_set_cwd` (`kern/thread/PTCBIntro/PTCBIntro.c:110`). -/
def setCwd (ip : Nat) : Fs Unit := .call (S := fsSig) (.setCwd ip)

/-- `flock_release` on the lock of an inode. -/
def inodeFlockRelease (ip : Nat) (lockType : BitVec 32) : Fs Unit :=
  .call (S := fsSig) (.flockRelease ip lockType)

end MCertikos
