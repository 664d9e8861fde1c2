import MCertikos.Fs.Log

/-!
# The block allocator

The functions of `kern/fs/block.c`. The free bitmap has one bit for each sector of the file system,
4096 of them in each of its sectors, which follow the inodes.
-/

namespace MCertikos

open Program BitField

/-- Bitmap bits in a block. Reference: `BPB` (`kern/fs/dinode.h:29`). -/
def bpb : Nat := 4096

/-- The bitmap block with the bit of the block `b`. Reference: `BBLOCK` (`kern/fs/dinode.h:32`). -/
def bblock (b ninodes : Nat) : Nat := b / bpb + ninodes / 8 + 3

/-- Reference: `block_zero` (`kern/fs/block.c:19`). -/
def blockZero (bno : Nat) : Fs Unit := do
  let _ ← bufcacheRead bno
  bufSet bno 0
  logWrite bno
  bufcacheRelease bno

/-- The inner loop of `block_alloc`: the first clear bit among the first `n`. -/
def freeBit (b : Block) (n : Nat) : Option Nat := (List.range n).find? fun bi => get b bi 1 = 0

/-- The outer loop of `block_alloc`, over the first block of each bitmap block. -/
def blockAllocFrom (sb : Superblock) : List Nat → Fs Nat
  | [] => kernPanic .outOfBlocks
  | b :: bs => do
    let data ← bufcacheRead (bblock b sb.ninodes.toNat)
    match freeBit data (min bpb (sb.size.toNat - b)) with
    | some bi =>
      bufSet (bblock b sb.ninodes.toNat) (put data bi (1 : BitVec 1))
      logWrite (bblock b sb.ninodes.toNat)
      bufcacheRelease (bblock b sb.ninodes.toNat)
      blockZero (b + bi)
      return b + bi
    | none =>
      bufcacheRelease (bblock b sb.ninodes.toNat)
      blockAllocFrom sb bs

/-- The values of `b` in the outer loop of `block_alloc`: the multiples of `BPB` below `size`. -/
def bitmapStarts (size : Nat) : List Nat := (List.range ((size + bpb - 1) / bpb)).map (bpb * ·)

/-- Allocates a zeroed disk block. Reference: `block_alloc` (`kern/fs/block.c:30`). -/
def blockAlloc : Fs Nat := do
  let sb ← readSuperblock
  blockAllocFrom sb (bitmapStarts sb.size.toNat)

/-- Frees a disk block. Reference: `block_free` (`kern/fs/block.c:58`). -/
def blockFree (b : Nat) : Fs Unit := do
  let sb ← readSuperblock
  let data ← bufcacheRead (bblock b sb.ninodes.toNat)
  if get data (b % bpb) 1 = 0 then
    kernPanic .freeingFree
  bufSet (bblock b sb.ninodes.toNat) (put data (b % bpb) (0 : BitVec 1))
  logWrite (bblock b sb.ninodes.toNat)
  bufcacheRelease (bblock b sb.ninodes.toNat)

end MCertikos
