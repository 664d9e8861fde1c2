import MCertikos.Fs.Path

/-!
# Open files

The functions of `kern/fs/file.c` on open files, apart from `file_flock`.
-/

namespace MCertikos

open Program

/-- Closes a file: drops a reference to it, and its inode when that was the last one. Reference:
`file_close` (`kern/fs/file.c:63`). -/
def fileClose (f : Nat) : Fs Unit := do
  match ← fileDrop f with
  | none => return
  | some ff =>
    if ff.type = .inode then
      if ff.holdingFlock ≠ 0 then
        inodeFlockRelease ff.ip ff.holdingFlock
      beginTrans
      inodePut ff.ip
      commitTrans

/-- Metadata of a file; `none` is the result -1. Reference: `file_stat` (`kern/fs/file.c:98`). -/
def fileStat (f : Nat) : Fs (Option FileStat) := do
  let file ← readFile f
  if file.type = .inode then
    inodeLock file.ip
    let inode ← readInode file.ip
    inodeUnlock file.ip
    return some (inodeStat inode)
  return none

/-- Reads from a file; `none` is the result -1. Reference: `file_read` (`kern/fs/file.c:113`). -/
def fileRead (f : Nat) (n : BitVec 32) : Fs (Option (List Byte)) := do
  let file ← readFile f
  if !file.readable then
    return none
  if file.type = .inode then
    inodeLock file.ip
    let file ← readFile f
    let r ← inodeRead file.ip file.off n
    match r with
    | some data =>
      if 0 < data.length then
        fileAdvance f (BitVec.ofNat 32 data.length)
    | none => pure ()
    inodeUnlock file.ip
    return r
  kernPanic .fileRead

/-- The bytes that one transaction writes at most. Reference: `file_write`
(`kern/fs/file.c:146`). -/
def fileWriteMax : Nat := ((logSize - 1 - 1 - 2) / 2) * 512

/-- The loop of `file_write`, for the bytes that are left; says whether all of them were written. A
turn writes at least one byte. -/
def fileWriteFrom (f : Nat) : (turns : Nat) → (addr : List Byte) → Fs Bool
  | 0, _ => return true
  | turns + 1, addr =>
    if addr.length = 0 then return true
    else do
      let n1 := min addr.length fileWriteMax
      beginTrans
      let file ← readFile f
      inodeLock file.ip
      let file ← readFile f
      let r ← inodeWrite file.ip (addr.take n1) file.off
      match r with
      | some r =>
        if 0 < r then
          fileAdvance f (BitVec.ofNat 32 r)
      | none => pure ()
      inodeUnlock file.ip
      commitTrans
      match r with
      | none => return false
      | some r =>
        if r ≠ n1 then
          kernPanic .shortWrite
        fileWriteFrom f turns (addr.drop r)

/-- Writes to a file; `none` is the result -1. Reference: `file_write` (`kern/fs/file.c:131`). -/
def fileWrite (f : Nat) (addr : List Byte) : Fs (Option Nat) := do
  let file ← readFile f
  if !file.writable then
    return none
  if file.type = .inode then
    let done ← fileWriteFrom f addr.length addr
    return if done then some addr.length else none
  kernPanic .fileWrite

end MCertikos
