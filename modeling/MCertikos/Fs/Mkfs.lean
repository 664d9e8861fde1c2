import MCertikos.Fs.Path
import MCertikos.Fs.Store

/-!
# Making a file system

The program `kern/fs/mkfs.c`, which writes the disk image that the kernel starts from: the super
block, the inodes, the free bitmap, the root directory, and the files that are given to it. A
failed assertion is `none`. `mkfs` is built with a 32-bit `size_t`, so that its super block is laid
out as the kernel's.
-/

namespace MCertikos

open BitField

/-- What `mkfs` keeps: the image so far, and its counters (`kern/fs/mkfs.c:36`). -/
structure Mkfs where
  disk : Disk
  freeblock : Nat
  usedblocks : Nat
  freeinode : Nat

namespace Mkfs

/-- Reference: `nblocks` (`kern/fs/mkfs.c:30`). -/
def nblocks : Nat := 985

/-- Reference: `nlog` (`kern/fs/mkfs.c:31`). -/
def nlog : Nat := logSize

/-- Reference: `ninodes` (`kern/fs/mkfs.c:32`). -/
def ninodes : Nat := 200

/-- Reference: `size` (`kern/fs/mkfs.c:33`). -/
def size : Nat := 1024

/-- The blocks in front of the data blocks. Reference: `main` (`kern/fs/mkfs.c:105`). -/
def metaBlocks : Nat := ninodes / ipb + 3 + (size / (512 * 8) + 1)

/-- The super block that `main` writes. -/
def superblock : Block :=
  let b := put (0 : Block) 0 (BitVec.ofNat 32 size)
  let b := put b 32 (BitVec.ofNat 32 nblocks)
  let b := put b 64 (BitVec.ofNat 32 ninodes)
  put b 96 (BitVec.ofNat 32 nlog)

/-- The empty image with a super block. -/
def blank : Mkfs where
  disk := Function.update (fun _ => 0) 1 superblock
  freeblock := metaBlocks
  usedblocks := metaBlocks
  freeinode := 1

variable (m : Mkfs)

/-- Reference: `wsect` (`kern/fs/mkfs.c:175`). -/
def wsect (sec : Nat) (data : Block) : Mkfs := { m with disk := Function.update m.disk sec data }

/-- Reference: `rinode` (`kern/fs/mkfs.c:208`). -/
def rinode (inum : Nat) : Dinode := getDinode (m.disk (iblock inum)) (inum % ipb)

/-- Reference: `winode` (`kern/fs/mkfs.c:194`). -/
def winode (inum : Nat) (din : Dinode) : Mkfs :=
  m.wsect (iblock inum) (putDinode (m.disk (iblock inum)) (inum % ipb) din)

/-- Reference: `ialloc` (`kern/fs/mkfs.c:234`). -/
def ialloc (type : BitVec 16) : Mkfs × Nat :=
  ({ m with freeinode := m.freeinode + 1 }.winode m.freeinode
      { type, major := 0, minor := 0, nlink := 1, size := 0, addrs := 0 },
    m.freeinode)

/-- Takes the next free block. -/
def takeBlock : Mkfs := { m with freeblock := m.freeblock + 1, usedblocks := m.usedblocks + 1 }

/-- The indirect block of an inode, which is taken if there is none (`kern/fs/mkfs.c:288`). -/
def indirect (din : Dinode) : Mkfs × Dinode :=
  if din.addr nDirect = 0 then
    (m.takeBlock, din.setAddr nDirect (BitVec.ofNat 32 m.freeblock))
  else (m, din)

/-- The block number `fbn` of an inode, which is taken if there is none (`kern/fs/mkfs.c:281`). -/
def blockAt (fbn : Nat) (din : Dinode) : Mkfs × Dinode × Nat :=
  if fbn < nDirect then
    if din.addr fbn = 0 then
      (m.takeBlock, din.setAddr fbn (BitVec.ofNat 32 m.freeblock), m.freeblock)
    else (m, din, (din.addr fbn).toNat)
  else
    let (m, din) := m.indirect din
    let ind := (din.addr nDirect).toNat
    if get (m.disk ind) (32 * (fbn - nDirect)) 32 = 0 then
      (m.takeBlock.wsect ind (put (m.disk ind) (32 * (fbn - nDirect))
        (BitVec.ofNat 32 m.freeblock)), din, m.freeblock)
    else (m, din, (get (m.disk ind) (32 * (fbn - nDirect)) 32).toNat)

/-- The loop of `iappend`, for the bytes that are left. A turn writes at least one byte. -/
def iappendFrom : (turns : Nat) → (m : Mkfs) → (din : Dinode) → (off : Nat) → (p : List Byte) →
    Option (Mkfs × Dinode × Nat)
  | 0, m, din, off, _ => some (m, din, off)
  | turns + 1, m, din, off, p =>
    if p.length = 0 then some (m, din, off)
    else if ¬ off / 512 < maxFile then none
    else
      let (m, din, x) := m.blockAt (off / 512) din
      -- a sector behind the end of the image cannot be read
      if ¬ x < size then none
      else
        let n1 := min p.length ((off / 512 + 1) * 512 - off)
        iappendFrom turns (m.wsect x (putBytes (m.disk x) (off - off / 512 * 512) (p.take n1))) din
          (off + n1) (p.drop n1)

/-- Appends data to an inode. Reference: `iappend` (`kern/fs/mkfs.c:266`). -/
def iappend (inum : Nat) (p : List Byte) : Option Mkfs := do
  let (m, din, off) ← iappendFrom p.length m (m.rinode inum) (m.rinode inum).size.toNat p
  return m.winode inum { din with size := BitVec.ofNat 32 off }

/-- The loop that copies a file, 512 bytes at a time (`kern/fs/mkfs.c:156`). -/
def copyFrom (inum : Nat) : (turns : Nat) → (m : Mkfs) → (data : List Byte) → Option Mkfs
  | 0, m, _ => some m
  | turns + 1, m, data =>
    if data.length = 0 then some m
    else do
      let m ← m.iappend inum (data.take 512)
      copyFrom inum turns m (data.drop 512)

/-- An entry of the root directory. -/
def addEntry (rootino inum : Nat) (name : List Byte) : Option Mkfs :=
  m.iappend rootino { inum := BitVec.ofNat 16 inum, name := padName name : Dirent }.toBytes

/-- Installs a file, without a leading `_` in its name (`kern/fs/mkfs.c:134`). -/
def install (rootino : Nat) (name data : List Byte) : Option Mkfs := do
  if slash ∈ name then
    none
  let name := if name.head? = some 95 then name.tail else name
  let (m, inum) := m.ialloc tFile
  let m ← m.addEntry rootino inum name
  copyFrom inum data.length m data

/-- Reference: `balloc` (`kern/fs/mkfs.c:248`). -/
def balloc (used : Nat) : Option Mkfs :=
  if used < 512 * 8 then some (m.wsect (ninodes / ipb + 3) (BitVec.ofNat 4096 (2 ^ used - 1)))
  else none

/-- Rounds the size of the root directory up (`kern/fs/mkfs.c:162`). -/
def fixRoot (rootino : Nat) : Mkfs :=
  let din := m.rinode rootino
  m.winode rootino { din with size := BitVec.ofNat 32 ((din.size.toNat / bSize + 1) * bSize) }

end Mkfs

/-- The image for a list of files, each with its name and its contents. Reference: `main`
(`kern/fs/mkfs.c:75`). -/
def mkfs (files : List (List Byte × List Byte)) : Option Disk := do
  let (m, rootino) := Mkfs.blank.ialloc tDir
  let m ← m.addEntry rootino rootino [46]
  let m ← m.addEntry rootino rootino [46, 46]
  let m ← files.foldlM (fun m file => m.install rootino file.1 file.2) m
  let m := m.fixRoot rootino
  let m ← m.balloc m.usedblocks
  return m.disk

/-- The image of an empty file system. -/
def emptyImage : Disk := (mkfs []).getD fun _ => 0

end MCertikos
