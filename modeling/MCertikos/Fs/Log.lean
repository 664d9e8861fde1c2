import MCertikos.Fs.Ops

/-!
# The log

The redo log of `kern/fs/log.c`, with the superblock that says where it is (`kern/fs/block.c`). The
log area is the last `nlog` sectors of the file system: the header sector `log.start`, and behind
it one slot for each logged sector.
-/

namespace MCertikos

open Program BitField

/-- Reference: `struct superblock` (`kern/fs/dinode.h:35`). -/
structure Superblock where
  size : BitVec 32
  nblocks : BitVec 32
  ninodes : BitVec 32
  nlog : BitVec 32
  deriving DecidableEq

/-- The superblock in the contents of its sector. -/
def Superblock.ofBlock (b : Block) : Superblock where
  size := get b 0 32
  nblocks := get b 32 32
  ninodes := get b 64 32
  nlog := get b 96 32

/-- Reference: `read_superblock` (`kern/fs/block.c:9`). -/
def readSuperblock : Fs Superblock := do
  let b ← bufcacheRead 1
  bufcacheRelease 1
  return .ofBlock b

/-- The count in a log header. The field is an `int`: a negative count is as good as 0. Reference:
`struct logheader` (`kern/fs/log.c:37`). -/
def headerN (b : Block) : Nat := (get b 0 32).toInt.toNat

/-- The `i`th sector number in a log header. -/
def headerSector (b : Block) (i : Nat) : Nat := (get b (32 * (i + 1)) 32).toNat

/-- The header with the count and the sector numbers of the in-memory log; its other words stay as
they are. -/
def putHeader (b : Block) (l : Log) : Block :=
  (List.range l.n).foldl (fun b i => put b (32 * (i + 1)) (BitVec.ofNat 32 (l.sector i)))
    (put b 0 (BitVec.ofNat 32 l.n))

/-- The loop of `install_trans` over the given log indices. -/
def installFrom (l : Log) : List Nat → Fs Unit
  | [] => pure ()
  | tail :: tails => do
    let lbuf ← bufcacheRead (l.start + tail + 1)
    let _ ← bufcacheRead (l.sector tail)
    bufSet (l.sector tail) lbuf
    bufcacheWrite (l.sector tail)
    bufcacheRelease (l.start + tail + 1)
    bufcacheRelease (l.sector tail)
    installFrom l tails

/-- Copies committed blocks from the log to their home location. Reference: `install_trans`
(`kern/fs/log.c:69`). -/
def installTrans : Fs Unit := do
  let l ← logGet
  installFrom l (List.range l.n)

/-- The loop of `read_head`. -/
def readHeadFrom (b : Block) : List Nat → Fs Unit
  | [] => pure ()
  | i :: is => do
    logSetSector i (headerSector b i)
    readHeadFrom b is

/-- Reference: `read_head` (`kern/fs/log.c:84`). -/
def readHead : Fs Unit := do
  let l ← logGet
  let b ← bufcacheRead l.start
  logSetN (headerN b)
  readHeadFrom b (List.range (headerN b))
  bufcacheRelease l.start

/-- Reference: `write_head` (`kern/fs/log.c:98`). -/
def writeHead : Fs Unit := do
  let l ← logGet
  let b ← bufcacheRead l.start
  bufSet l.start (putHeader b l)
  bufcacheWrite l.start
  bufcacheRelease l.start

/-- Reference: `recover_from_log` (`kern/fs/log.c:111`). -/
def recoverFromLog : Fs Unit := do
  readHead
  installTrans
  logSetN 0
  writeHead

/-- Reference: `log_init` (`kern/fs/log.c:54`). -/
def logInit : Fs Unit := do
  let sb ← readSuperblock
  logSetArea (sb.size - sb.nlog).toNat sb.nlog.toNat
  recoverFromLog

/-- Reference: `commit_trans` (`kern/fs/log.c:129`). -/
def commitTrans : Fs Unit := do
  let l ← logGet
  if 0 < l.n then
    writeHead
    installTrans
    logSetN 0
    writeHead
  logRelease

/-- The index at which `log_write` records a sector: that of an equal one, or the end of the
log. -/
def Log.slotOf (l : Log) (sector : Nat) : Nat := (List.range l.n).findIdx (l.sector · = sector)

theorem Log.slotOf_le (l : Log) (sector : Nat) : l.slotOf sector ≤ l.n :=
  List.findIdx_le_length.trans_eq List.length_range

/-- A slot in use at which `log_write` records a sector is that of the sector. -/
theorem Log.sector_slotOf {l : Log} {sector : Nat} (h : l.slotOf sector < l.n) :
    l.sector (l.slotOf sector) = sector := by
  have hlt : (List.range l.n).findIdx (l.sector · = sector) < (List.range l.n).length :=
    h.trans_eq List.length_range.symm
  have hp := List.findIdx_getElem (w := hlt)
  rw [List.getElem_range, decide_eq_true_eq] at hp
  exact hp

/-- No earlier slot is that of the sector. -/
theorem Log.sector_ne_of_lt_slotOf {l : Log} {sector i : Nat} (h : i < l.slotOf sector) :
    l.sector i ≠ sector := by
  have hne := List.not_of_lt_findIdx (p := (l.sector · = sector))
    (h : i < (List.range l.n).findIdx _)
  simpa using hne

/-- Logs the contents of a buffer that the caller holds. Reference: `log_write`
(`kern/fs/log.c:152`). -/
def logWrite (sector : Nat) : Fs Unit := do
  let l ← logCheck
  let i := l.slotOf sector
  logSetSector i sector
  let _ ← bufcacheRead (l.start + i + 1)
  let data ← bufGet sector
  bufSet (l.start + i + 1) data
  bufcacheWrite (l.start + i + 1)
  bufcacheRelease (l.start + i + 1)
  if i = l.n then
    logSetN (l.n + 1)
  bufDirty sector

end MCertikos
