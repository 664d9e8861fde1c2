import Mathlib.Data.Finset.Card
import Mathlib.Data.Finset.Prod
import MCertikos.Thread.Queue

/-!
# The flock engine

The lock object `flock_t` of an inode and the code of `kern/flock/flock.c` that works on it. Every
function runs with the spinlock `fl->lock` held, so a function is modelled as what it does to the
lock object from the moment it takes the spinlock until it gives it up, either by returning or by
`thread_sleep(fl, &fl->lock)`. A blocked request comes back to the head of its `while` loop with
the spinlock held again; the loop heads are therefore functions of their own (`sharedLoop`,
`exclusiveLoop`).

The C fields of type `int` are integers here: they count open files and waiting threads, of which
the kernel has at most `NFILE = 100` and `NUM_IDS = 64`.
-/

namespace MCertikos

open Function

/-! ## Lock operations -/

/-- Shared lock. Reference: `LOCK_SH` (`kern/flock/flock.h:47`). -/
def lockSh : BitVec 32 := 1#32

/-- Exclusive lock. Reference: `LOCK_EX` (`kern/flock/flock.h:48`). -/
def lockEx : BitVec 32 := 2#32

/-- Unlock. Reference: `LOCK_UN` (`kern/flock/flock.h:49`). -/
def lockUn : BitVec 32 := 8#32

/-- Non-blocking mode. Reference: `LOCK_NB` (`kern/flock/flock.h:50`). -/
def lockNb : BitVec 32 := 4#32

/-- `operation & ~LOCK_NB`. -/
def lockType (operation : BitVec 32) : BitVec 32 := operation &&& ~~~lockNb

/-- `(operation & LOCK_NB) != 0`. -/
def nonblocking (operation : BitVec 32) : Bool := operation &&& lockNb != 0#32

/-- The two kinds of lock that can be granted. -/
inductive LockKind where
  | sh
  | ex
  deriving DecidableEq, Repr

/-- The operation value of a kind. -/
def LockKind.code : LockKind → BitVec 32
  | .sh => lockSh
  | .ex => lockEx

@[simp] theorem LockKind.code_sh : LockKind.sh.code = lockSh := rfl
@[simp] theorem LockKind.code_ex : LockKind.ex.code = lockEx := rfl

theorem LockKind.code_inj : ∀ {k k' : LockKind}, k.code = k'.code → k = k'
  | .sh, .sh, _ | .ex, .ex, _ => rfl
  | .sh, .ex, h | .ex, .sh, h => by simp [lockSh, lockEx] at h

theorem LockKind.code_ne_zero : ∀ k : LockKind, k.code ≠ 0#32
  | .sh | .ex => by decide

/-! ## The lock object -/

/-- Reference: `enum flock_state` (`kern/flock/flock.h:13`). -/
inductive FlockState where
  | inactive
  | shared
  | exclusive
  deriving DecidableEq, Repr

/-- The wait queue of a lock object. The array `pids` with its length `len` is a list. Reference:
the field `waitq` of `flock_t` (`kern/flock/flock.h:34`). -/
structure WaitQ where
  pids : List Nat
  inq : Nat → Bool
  req : Nat → BitVec 8

/-- Reference: `flock_t` (`kern/flock/flock.h:24`). The spinlock is not a field: each function
below is one critical section. -/
structure Flock where
  state : FlockState
  sharedHolders : Int
  waitingShared : Int
  waitingExclusive : Int
  waitq : WaitQ

/-- Reference: `flock_init` (`kern/flock/flock.c:55`). -/
def flockInit : Flock where
  state := .inactive
  sharedHolders := 0
  waitingShared := 0
  waitingExclusive := 0
  waitq := { pids := [], inq := fun _ => false, req := fun _ => 0 }

namespace Flock

variable (fl : Flock) (pid : Nat)

/-- Reference: `waitq_add` (`kern/flock/flock.c:7`). -/
def waitqAdd (req : BitVec 32) : Flock :=
  if numIds ≤ pid then fl
  else if fl.waitq.inq pid then
    { fl with waitq.req := update fl.waitq.req pid (req.setWidth 8) }
  else if fl.waitq.pids.length < numIds then
    { fl with
      waitq.pids := fl.waitq.pids ++ [pid]
      waitq.inq := update fl.waitq.inq pid true
      waitq.req := update fl.waitq.req pid (req.setWidth 8) }
  else fl

/-- The scan finds the first entry equal to `pid` and shifts the rest down by one. Reference:
`waitq_remove` (`kern/flock/flock.c:26`). -/
def waitqRemove : Flock :=
  if numIds ≤ pid ∨ fl.waitq.inq pid = false then fl
  else
    { fl with
      waitq.pids := fl.waitq.pids.erase pid
      waitq.inq := update fl.waitq.inq pid false
      waitq.req := update fl.waitq.req pid 0 }

/-- How a critical section of `flock_acquire` ends: the function returns, or the thread sleeps on
the lock object with the spinlock released. -/
inductive Outcome where
  | ret (result : Int)
  | sleep
  deriving DecidableEq, Repr

/-- The wait condition of a shared request. Reference: `try_acquire_shared`
(`kern/flock/flock.c:81`, again at `:90`). -/
def SharedBlocked : Prop := fl.state = .exclusive ∨ 0 < fl.waitingExclusive

/-- The wait condition of an exclusive request. Reference: `try_acquire_exclusive`
(`kern/flock/flock.c:112`, again at `:121`). -/
def ExclusiveBlocked : Prop := fl.state ≠ .inactive

instance : Decidable fl.SharedBlocked := inferInstanceAs (Decidable (_ ∨ _))
instance : Decidable fl.ExclusiveBlocked := inferInstanceAs (Decidable (_ ≠ _))

/-- The end of `try_acquire_shared` (`kern/flock/flock.c:98`). -/
def grantShared : Flock := { fl with state := .shared, sharedHolders := fl.sharedHolders + 1 }

/-- The end of `try_acquire_exclusive` (`kern/flock/flock.c:129`). -/
def grantExclusive : Flock := { fl with state := .exclusive }

/-- The `while` loop of `try_acquire_shared` from its head, and what follows it. -/
def sharedLoop : Flock × Outcome :=
  if fl.SharedBlocked then (fl, .sleep)
  else
    let fl := { fl with waitingShared := fl.waitingShared - 1 }
    ((fl.waitqRemove pid).grantShared, .ret 0)

/-- The `while` loop of `try_acquire_exclusive` from its head, and what follows it. -/
def exclusiveLoop : Flock × Outcome :=
  if fl.ExclusiveBlocked then (fl, .sleep)
  else
    let fl := { fl with waitingExclusive := fl.waitingExclusive - 1 }
    ((fl.waitqRemove pid).grantExclusive, .ret 0)

/-- Reference: `try_acquire_shared` (`kern/flock/flock.c:75`). -/
def tryAcquireShared (nonblocking : Bool) : Flock × Outcome :=
  if fl.SharedBlocked then
    if nonblocking then (fl, .ret (-1))
    else
      let fl := fl.waitqAdd pid lockSh
      let fl := { fl with waitingShared := fl.waitingShared + 1 }
      fl.sharedLoop pid
  else (fl.grantShared, .ret 0)

/-- Reference: `try_acquire_exclusive` (`kern/flock/flock.c:107`). -/
def tryAcquireExclusive (nonblocking : Bool) : Flock × Outcome :=
  if fl.ExclusiveBlocked then
    if nonblocking then (fl, .ret (-1))
    else
      let fl := fl.waitqAdd pid lockEx
      let fl := { fl with waitingExclusive := fl.waitingExclusive + 1 }
      fl.exclusiveLoop pid
  else (fl.grantExclusive, .ret 0)

/-- Reference: `flock_acquire` (`kern/flock/flock.c:136`). -/
def flockAcquire (operation : BitVec 32) : Flock × Outcome :=
  if lockType operation = lockSh then fl.tryAcquireShared pid (nonblocking operation)
  else if lockType operation = lockEx then fl.tryAcquireExclusive pid (nonblocking operation)
  else if lockType operation = lockUn then (fl, .ret 0)
  else (fl, .ret (-1))

/-- `flock_release`: the new lock object, whether `thread_wakeup(fl)` is called, and the result.
Reference: `flock_release` (`kern/flock/flock.c:171`). -/
def flockRelease (lockType : BitVec 32) : Flock × Bool × Int :=
  if lockType = lockSh then
    if fl.state = .shared ∧ 0 < fl.sharedHolders then
      let fl := { fl with sharedHolders := fl.sharedHolders - 1 }
      if fl.sharedHolders = 0 then ({ fl with state := .inactive }, true, 0)
      else (fl, false, 0)
    else (fl, false, 0)
  else if lockType = lockEx then
    if fl.state = .exclusive then ({ fl with state := .inactive }, true, 0)
    else (fl, false, 0)
  else (fl, false, -1)

/-! ## What the wait queue leaves alone -/

variable {fl pid}

@[simp] theorem waitqAdd_state (r : BitVec 32) : (fl.waitqAdd pid r).state = fl.state := by
  unfold waitqAdd; split_ifs <;> rfl

@[simp] theorem waitqAdd_sharedHolders (r : BitVec 32) :
    (fl.waitqAdd pid r).sharedHolders = fl.sharedHolders := by
  unfold waitqAdd; split_ifs <;> rfl

@[simp] theorem waitqAdd_waitingShared (r : BitVec 32) :
    (fl.waitqAdd pid r).waitingShared = fl.waitingShared := by
  unfold waitqAdd; split_ifs <;> rfl

@[simp] theorem waitqAdd_waitingExclusive (r : BitVec 32) :
    (fl.waitqAdd pid r).waitingExclusive = fl.waitingExclusive := by
  unfold waitqAdd; split_ifs <;> rfl

@[simp] theorem waitqRemove_state : (fl.waitqRemove pid).state = fl.state := by
  unfold waitqRemove; split_ifs <;> rfl

@[simp] theorem waitqRemove_sharedHolders :
    (fl.waitqRemove pid).sharedHolders = fl.sharedHolders := by
  unfold waitqRemove; split_ifs <;> rfl

@[simp] theorem waitqRemove_waitingShared :
    (fl.waitqRemove pid).waitingShared = fl.waitingShared := by
  unfold waitqRemove; split_ifs <;> rfl

@[simp] theorem waitqRemove_waitingExclusive :
    (fl.waitqRemove pid).waitingExclusive = fl.waitingExclusive := by
  unfold waitqRemove; split_ifs <;> rfl

end Flock

end MCertikos
