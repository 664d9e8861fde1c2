import MCertikos.Fs.InodeCache
import MCertikos.Fs.Log

/-!
# The state of the file system code

`FsState` holds what the operations work on, over some layer of disk buffers (`BufLayer`), and
`fsHandler` says what each operation does for a process. The layer of buffers is a parameter: the
buffer cache over a disk (`kern/fs/bufcache.c`), or the store it implements.
-/

namespace MCertikos

open Program Function

/-- A layer of disk buffers: what the buffer operations do to its state. -/
structure BufLayer (B : Type) where
  bread : Nat → B → Outcome Panic B Block
  bget : Nat → B → Outcome Panic B Block
  bset : Nat → Block → B → Outcome Panic B Unit
  bwrite : Nat → B → Outcome Panic B Unit
  brelse : Nat → B → Outcome Panic B Unit
  bdirty : Nat → B → Outcome Panic B Unit

/-- The state of the file system code. -/
structure FsState (B : Type) where
  bufs : B
  log : Log
  inode : InodeCache
  /-- Reference: `ftable.file` (`kern/fs/file.c:16`). -/
  file : Nat → File
  /-- The open files of each process. -/
  openfiles : Nat → Nat → Option Nat
  /-- The working directory of each process. -/
  cwd : Nat → Nat

namespace FsState

variable {B : Type} (s : FsState B)

/-- The memory at boot: all tables are zero. -/
def zeroed (bufs : B) : FsState B where
  bufs := bufs
  log := { start := 0, size := 0, busy := false, n := 0, sector := fun _ => 0 }
  inode _ := {
    dev := 0, inum := 0, ref := 0, busy := false, valid := false
    din := { type := 0, major := 0, minor := 0, nlink := 0, size := 0, addrs := 0 }
    flock := flockInit }
  file _ := {
    type := .none, ref := 0, readable := false, writable := false, ip := 0, off := 0
    holdingFlock := 0 }
  openfiles _ _ := none
  cwd _ := 0

/-- The memory after `tcb_init` has set the working directory of each of the threads with
`namei("/")`: the root directory is in the first entry of the inode cache. Reference:
`tcb_init_at_id` (`kern/thread/PTCBIntro/PTCBIntro.c:74`). -/
def booted (bufs : B) : FsState B :=
  let s := zeroed bufs
  { s with
    inode := update s.inode 0
      { s.inode 0 with dev := rootDev, inum := rootIno, ref := numIds } }

/-- Reference: `file_alloc` (`kern/fs/file.c:28`). -/
def fileAlloc : FsState B × Option Nat :=
  match (List.range nFile).find? fun f => (s.file f).ref = 0 with
  | some f =>
    ({ s with file := update s.file f { s.file f with ref := 1, holdingFlock := 0 } }, some f)
  | none => (s, none)

/-- The critical section of `file_close`. Reference: `file_close` (`kern/fs/file.c:67`). -/
def fileDrop (f : Nat) : Outcome Panic (FsState B) (Option File) :=
  if (s.file f).ref < 1 then .panic .fileClose s
  else if 0 < (s.file f).ref - 1 then
    .ok none { s with file := update s.file f { s.file f with ref := (s.file f).ref - 1 } }
  else
    .ok (some { s.file f with ref := (s.file f).ref - 1 })
      { s with file := update s.file f { s.file f with ref := 0, type := .none } }

/-- The two tests of `log_write`. Reference: `log_write` (`kern/fs/log.c:156`). -/
def logCheck : Outcome Panic (FsState B) Log :=
  if logSize ≤ s.log.n ∨ s.log.size ≤ s.log.n + 1 then .panic .tooBig s
  else if s.log.busy = false then .panic .outsideTrans s
  else .ok s.log s

/-- `inode_lock` up to the point where it holds `I_BUSY`; says whether the entry is valid.
Reference: `inode_lock` (`kern/fs/inode.c:140`). -/
def inodeAcquire (ip : Nat) : Outcome Panic (FsState B) Bool :=
  if (s.inode ip).ref < 1 then .panic .inodeLock s
  else if (s.inode ip).busy then .blocked s
  else .ok (s.inode ip).valid { s with inode := s.inode.setBusy ip true }

/-- Reference: `inode_unlock` (`kern/fs/inode.c:174`). -/
def inodeUnlock (ip : Nat) : Outcome Panic (FsState B) Unit :=
  if (s.inode ip).busy = false ∨ (s.inode ip).ref < 1 then .panic .inodeUnlock s
  else .ok () { s with inode := s.inode.setBusy ip false }

/-- The first critical section of `inode_put`. Reference: `inode_put` (`kern/fs/inode.c:192`). -/
def inodePutTest (ip : Nat) : Outcome Panic (FsState B) Bool :=
  if s.inode.Last ip then
    if (s.inode ip).busy then .panic .putBusy s
    else .ok true { s with inode := s.inode.setBusy ip true }
  else .ok false { s with inode := s.inode.dropRef ip }

end FsState

/-- What the operations of the process `pid` do. -/
def fsHandler {B : Type} (L : BufLayer B) (pid : Nat) : Handler fsSig Panic (FsState B)
  | .bread sector, s => (L.bread sector s.bufs).mapState fun b => { s with bufs := b }
  | .bget sector, s => (L.bget sector s.bufs).mapState fun b => { s with bufs := b }
  | .bset sector data, s => (L.bset sector data s.bufs).mapState fun b => { s with bufs := b }
  | .bwrite sector, s => (L.bwrite sector s.bufs).mapState fun b => { s with bufs := b }
  | .brelse sector, s => (L.brelse sector s.bufs).mapState fun b => { s with bufs := b }
  | .bdirty sector, s => (L.bdirty sector s.bufs).mapState fun b => { s with bufs := b }
  | .logGet, s => .ok s.log s
  | .logSetArea start size, s => .ok () { s with log := { s.log with start, size } }
  | .logSetSector i v, s =>
    .ok () { s with log := { s.log with sector := update s.log.sector i v } }
  | .logSetN n, s => .ok () { s with log := { s.log with n } }
  | .logAcquire, s =>
    if s.log.busy then .blocked s else .ok () { s with log := { s.log with busy := true } }
  | .logRelease, s => .ok () { s with log := { s.log with busy := false } }
  | .logCheck, s => s.logCheck
  | .inodeGet dev inum, s =>
    match s.inode.inodeGet dev inum with
    | some (inode, ip) => .ok ip { s with inode }
    | none => .panic .getNoInodes s
  | .inodeDup ip, s => .ok () { s with inode := s.inode.inodeDup ip }
  | .inodeAcquire ip, s => s.inodeAcquire ip
  | .inodeRead ip, s => .ok (s.inode ip) s
  | .inodeSet ip din, s => .ok () { s with inode := s.inode.setDin ip din }
  | .inodeSetValid ip, s => .ok () { s with inode := s.inode.setValid ip }
  | .inodeUnlock ip, s => s.inodeUnlock ip
  | .inodePutTest ip, s => s.inodePutTest ip
  | .inodePutDrop ip, s => .ok () { s with inode := s.inode.dropFreed ip }
  | .fileAlloc, s => .ok s.fileAlloc.2 s.fileAlloc.1
  | .fileDrop f, s => s.fileDrop f
  | .fileGet f, s => .ok (s.file f) s
  | .fileAdvance f n, s =>
    .ok () { s with file := update s.file f { s.file f with off := (s.file f).off + n } }
  | .fileSetInode f ip readable writable, s =>
    .ok () { s with
      file := update s.file f
        { s.file f with type := .inode, ip, off := 0, readable, writable } }
  | .getOpenfile fd, s => .ok (s.openfiles pid fd) s
  | .setOpenfile fd f, s =>
    .ok () { s with
      openfiles := update s.openfiles pid (update (s.openfiles pid) fd f) }
  | .getCwd, s => .ok (s.cwd pid) s
  | .setCwd ip, s => .ok () { s with cwd := update s.cwd pid ip }
  | .flockRelease ip lockType, s => .ok () { s with inode := s.inode.flockRelease ip lockType }
  | .halt e, s => .panic e s

section
variable {B : Type}

/-- An operation on the buffers leaves the rest of the state alone. -/
theorem mapState_bufs {ε α : Type} {s : FsState B} {o : Outcome ε B α}
    {r : Outcome ε (FsState B) α} (h : (o.mapState fun b => { s with bufs := b }) = r) :
    ∃ b, r.state = { s with bufs := b } := by
  subst h
  cases o <;> exact ⟨_, rfl⟩

/-- So does a panic. -/
theorem fsHandler_panic {L : BufLayer B} {pid : Nat} {o : FsOp} {s u : FsState B} {e : Panic}
    (h : fsHandler L pid o s = .panic e u) : ∃ b, u = { s with bufs := b } := by
  cases o with
  | bread | bget | bset | bwrite | brelse | bdirty => exact mapState_bufs h
  | _ =>
    simp only [fsHandler, FsState.logCheck, FsState.inodeAcquire, FsState.inodeUnlock,
      FsState.inodePutTest, FsState.fileDrop] at h
    repeat' split at h
    all_goals cases h
    all_goals exact ⟨_, rfl⟩

/-- The parts of the state. -/
inductive FsPart where
  | bufs | log | inode | file | table

/-- The part that an operation may change; those that change nothing are with the tables of the
processes. -/
def FsOp.part : FsOp → FsPart
  | .bread _ | .bget _ | .bset _ _ | .bwrite _ | .brelse _ | .bdirty _ => .bufs
  | .logGet | .logSetArea _ _ | .logSetSector _ _ | .logSetN _ | .logAcquire | .logRelease |
      .logCheck => .log
  | .fileAlloc | .fileDrop _ | .fileAdvance _ _ | .fileSetInode _ _ _ _ => .file
  | .inodeRead _ | .fileGet _ | .getOpenfile _ | .setOpenfile _ _ | .getCwd | .setCwd _ |
      .halt _ => .table
  | _ => .inode

/-- The states agree in all parts but one. -/
structure FsState.Only (p : FsPart) (s u : FsState B) : Prop where
  bufs : p ≠ .bufs → u.bufs = s.bufs
  log : p ≠ .log → u.log = s.log
  inode : p ≠ .inode → u.inode = s.inode
  file : p ≠ .file → u.file = s.file
  table : p ≠ .table → u.openfiles = s.openfiles ∧ u.cwd = s.cwd

/-- Each operation changes one part of the state. -/
theorem fsHandler_only (L : BufLayer B) (pid : Nat) (o : FsOp) (s : FsState B) :
    s.Only o.part (fsHandler L pid o s).state := by
  have hbufs : ∀ {α : Type} (r : Outcome Panic B α),
      s.Only .bufs (r.mapState fun b => { s with bufs := b }).state := fun r => by
    cases r <;> exact ⟨fun h => absurd rfl h, fun _ => rfl, fun _ => rfl, fun _ => rfl,
      fun _ => ⟨rfl, rfl⟩⟩
  cases o with
  | bread | bget | bset | bwrite | brelse | bdirty => exact hbufs _
  | _ =>
    simp only [fsHandler, FsState.logCheck, FsState.inodeAcquire, FsState.inodeUnlock,
      FsState.inodePutTest, FsState.fileAlloc, FsState.fileDrop]
    repeat' split
    all_goals constructor <;> intro h <;> first | rfl | exact ⟨rfl, rfl⟩ | exact absurd rfl h

theorem fsHandler_ok_only {L : BufLayer B} {pid : Nat} {o : FsOp} {s u : FsState B} {r : o.Resp}
    (h : fsHandler L pid o s = .ok r u) : s.Only o.part u := by
  have := fsHandler_only L pid o s
  rwa [h] at this

end

end MCertikos
