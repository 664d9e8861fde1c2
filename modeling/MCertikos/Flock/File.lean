import MCertikos.Flock.Invariant

/-!
# Descriptors that share a lock object

Processes use the lock object of one inode through their descriptors: `file_flock` takes, converts
and drops the lock of an open file, and `file_close` drops it when the file is closed
(`kern/fs/file.c`). Each call is cut at its critical sections. Between two of them other processes
run, so a process has a program counter (`FilePc`) that says which section it enters next and holds
its local variables; the assignment to `holding_flock` that follows a section is a step of its own.

A `struct file` lives in a slot of the file table. It is taken by `sys_open` and given back by the
first section of `file_close`, after which it may be taken again while the closing process still
holds the old contents in its local copy `ff`. Locks are therefore accounted to descriptors, that
is to pairs of a process and an index into its table of open files: a descriptor stays in use until
`sys_close` clears its entry.
-/

namespace MCertikos

open Transition Function

/-! ## Open files -/

/-- What a `struct file` stands for. Reference: the field `type` (`kern/fs/file.h:20`). -/
inductive FdType where
  | none
  | pipe
  | inode
  deriving DecidableEq, Repr

/-- The fields of an open file that the lock code uses. Reference: `struct file`
(`kern/fs/file.h:18`). -/
structure LockFile where
  type : FdType
  ref : Int
  holdingFlock : BitVec 32

/-- Where a process stands in `file_flock` or `file_close`, with the descriptor, the slot of its
file, and the operation or result at hand. -/
inductive FilePc where
  /-- Outside both functions. -/
  | user
  /-- Before the `flock_release` of an unlock (`kern/fs/file.c:193`). -/
  | unlocking (fd f : Nat)
  /-- After it, with its result. -/
  | unlocked (fd f : Nat) (result : Int)
  /-- Before the `flock_release` of a conversion (`kern/fs/file.c:212`). -/
  | converting (fd f : Nat) (operation : BitVec 32)
  /-- After it. -/
  | converted (fd f : Nat) (operation : BitVec 32)
  /-- Before `flock_acquire` (`kern/fs/file.c:217`). -/
  | acquiring (fd f : Nat) (operation : BitVec 32)
  /-- In the wait loop of `flock_acquire`. -/
  | blocked (fd f : Nat) (operation : BitVec 32)
  /-- After `flock_acquire`, with its result. -/
  | acquired (fd f : Nat) (operation : BitVec 32) (result : Int)
  /-- After the table section of `file_close`, with the copy `ff` (`kern/fs/file.c:80`). -/
  | closing (fd : Nat) (ff : LockFile)
  /-- After `file_close`, before `sys_close` clears the descriptor (`kern/fs/sysfile.c:195`). -/
  | closed (fd : Nat)

/-- The lock object of one inode, the file table, and the processes with their descriptors. -/
structure FileSys where
  lock : LockSys
  file : Nat → LockFile
  openfiles : Nat → Nat → Option Nat
  pc : Nat → FilePc
  /-- What the last call of `file_flock` by each process has returned. -/
  ret : Nat → Int

namespace FileSys

variable (s : FileSys) (p fd f : Nat)

/-- Moves a process to another point of its code. -/
def goto (pc : FilePc) : FileSys := { s with pc := update s.pc p pc }

/-- The call of `file_flock` returns `r`. -/
def leave (r : Int) : FileSys := { s with ret := update s.ret p r }

/-- `f->holding_flock = v`. -/
def setHolding (v : BitVec 32) : FileSys :=
  { s with file := update s.file f { s.file f with holdingFlock := v } }

/-- A call of `flock_release` for the lock of a descriptor, after which the process is at `pc`. -/
def releaseThen (v : BitVec 32) (pc : Int → FilePc) : FileSys :=
  { s with lock := (s.lock.release p fd v).1 }.goto p (pc (s.lock.release p fd v).2)

/-- The end of a successful `sys_open` on the inode: a free slot and a free descriptor are taken.
`file_alloc` takes the first free slot and `fdalloc` the first free descriptor; here any free ones.
Reference: `file_alloc` (`kern/fs/file.c:28`), `fdalloc` (`kern/fs/sysfile.c:47`), `sys_open`
(`kern/fs/sysfile.c:505`). -/
def sysOpen : Option FileSys :=
  match s.pc p, s.openfiles p fd with
  | .user, none =>
    if (s.file f).ref = 0 then
      some { s with
        file := update s.file f { type := .inode, ref := 1, holdingFlock := 0 }
        openfiles := update s.openfiles p (update (s.openfiles p) fd (some f)) }
    else none
  | _, _ => none

/-- `file_flock` up to its first critical section. Reference: `file_flock`
(`kern/fs/file.c:178`). -/
def fileFlock (operation : BitVec 32) : Option FileSys :=
  match s.pc p, s.openfiles p fd with
  | .user, some f =>
    some <|
      if (s.file f).type ≠ .inode then s.leave p (-1)
      else if lockType operation = lockUn then
        if (s.file f).holdingFlock ≠ 0 then s.goto p (.unlocking fd f) else s.leave p 0
      else if (s.file f).holdingFlock ≠ 0 then
        if (s.file f).holdingFlock = lockType operation then s.leave p 0
        else s.goto p (.converting fd f operation)
      else s.goto p (.acquiring fd f operation)
  | _, _ => none

/-- `sys_close` up to the end of the table section of `file_close`. Reference: `sys_close`
(`kern/fs/sysfile.c:172`), `file_close` (`kern/fs/file.c:63`). -/
def fileClose : Option FileSys :=
  match s.pc p, s.openfiles p fd with
  | .user, some f =>
    some <|
      if (s.file f).ref < 1 then s
      else if 0 < (s.file f).ref - 1 then
        { s with file := update s.file f { s.file f with ref := (s.file f).ref - 1 } }.goto p
          (.closed fd)
      else
        { s with file := update s.file f { s.file f with ref := 0, type := .none } }.goto p
          (.closing fd (s.file f))
  | _, _ => none

/-- The next critical section, or the next assignment, of a process inside `file_flock` or
`file_close`. A blocked process moves only once it is woken. -/
def advance : Option FileSys :=
  match s.pc p with
  | .user => none
  | .unlocking fd f => some (s.releaseThen p fd (s.file f).holdingFlock (.unlocked fd f))
  | .unlocked _ f r => some (((if r = 0 then s.setHolding f 0 else s).goto p .user).leave p r)
  | .converting fd f operation =>
    some (s.releaseThen p fd (s.file f).holdingFlock fun _ => .converted fd f operation)
  | .converted fd f operation => some ((s.setHolding f 0).goto p (.acquiring fd f operation))
  | .acquiring fd f operation =>
    let r := s.lock.acquire p fd operation
    match r.2 with
    | .sleep => some ({ s with lock := r.1 }.goto p (.blocked fd f operation))
    | .ret v => some ({ s with lock := r.1 }.goto p (.acquired fd f operation v))
  | .blocked fd f operation =>
    match s.lock.resume p with
    | none => none
    | some (lock, .sleep) => some { s with lock }
    | some (lock, .ret v) => some ({ s with lock }.goto p (.acquired fd f operation v))
  | .acquired _ f operation v =>
    some (((if v = 0 then s.setHolding f (lockType operation) else s).goto p .user).leave p v)
  | .closing fd ff =>
    if ff.type = .inode ∧ ff.holdingFlock ≠ 0 then
      some (s.releaseThen p fd ff.holdingFlock fun _ => .closed fd)
    else some (s.goto p (.closed fd))
  | .closed fd =>
    some ({ s with
      openfiles := update s.openfiles p (update (s.openfiles p) fd none) }.goto p
        .user)

end FileSys

/-- The calls a process makes, and the steps inside a call. -/
inductive FileAction where
  | sysOpen (p fd f : Nat)
  | fileFlock (p fd : Nat) (operation : BitVec 32)
  | fileClose (p fd : Nat)
  | advance (p : Nat)

/-- Any number of processes that open the inode, lock, convert and unlock it through any number of
descriptors, and close them, in any interleaving of their critical sections. -/
def fileMachine : Machine FileSys FileAction where
  Init s :=
    lockMachine.Init s.lock ∧ (∀ p fd, s.openfiles p fd = none) ∧ ∀ p, s.pc p = .user
  step s
    | .sysOpen p fd f => s.sysOpen p fd f
    | .fileFlock p fd operation => s.fileFlock p fd operation
    | .fileClose p fd => s.fileClose p fd
    | .advance p => s.advance p

end MCertikos
