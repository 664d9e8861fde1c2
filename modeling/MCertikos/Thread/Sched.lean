import MCertikos.Thread.Queue

/-!
# Threads and the scheduler

The thread operations of `kern/thread/PThread`, with the containers that hand out thread ids
(`kern/pmm/MContainer`). All kernel threads run on the boot processor, so there is one current
thread. Every operation runs with the scheduler lock `sched_lk` held, except that `thread_sleep`
has a second half: a thread that went to sleep clears its channel only when it runs again, and
other threads may run in between. The second half is the step `tidy`, and `inSleep` records the
threads that still have it before them.
-/

namespace MCertikos

open Transition Function

/-! ## Containers -/

/-- Reference: `MAX_CHILDREN` (`kern/lib/x86.h:111`). -/
def maxChildren : Nat := 3

/-- The container of a process. Quota and usage are 32-bit words; a child count stays below
`NUM_IDS`. Reference: `struct SContainer` (`kern/pmm/MContainer/MContainer.c:6`). -/
structure SContainer where
  quota : BitVec 32
  usage : BitVec 32
  parent : Nat
  nchildren : Nat
  used : Bool

/-- The containers at boot, where the root process may use `realQuota` pages. Reference:
`container_init` (`kern/pmm/MContainer/MContainer.c:22`). -/
def containerInit (realQuota : BitVec 32) : Nat → SContainer :=
  update
    (fun _ => { quota := 0, usage := 0, parent := 0, nchildren := 0, used := false }) 0
    { quota := realQuota, usage := 0, parent := 0, nchildren := 0, used := true }

/-- An unsigned comparison of 32-bit words. Reference: `container_can_consume`
(`kern/pmm/MContainer/MContainer.c:82`). -/
def containerCanConsume (c : Nat → SContainer) (id : Nat) (n : BitVec 32) : Bool :=
  (c id).usage + n ≤ (c id).quota

/-- Reference: `container_split` (`kern/pmm/MContainer/MContainer.c:93`). -/
def containerSplit (c : Nat → SContainer) (id : Nat) (quota : BitVec 32) :
    (Nat → SContainer) × Nat :=
  let child := id * maxChildren + 1 + (c id).nchildren
  if numIds ≤ child then (c, numIds)
  else
    let c' := update c child
      { used := true, quota, usage := 0, parent := id, nchildren := 0 }
    (update c' id
      { c' id with usage := (c' id).usage + quota, nchildren := (c' id).nchildren + 1 }, child)

/-! ## Thread operations -/

/-- The state of the thread code. -/
structure Sched where
  pool : ThreadPool
  curid : Nat
  container : Nat → SContainer
  /-- The threads that have switched away inside `thread_sleep` and not yet tidied up. -/
  inSleep : Nat → Bool

namespace Sched

variable (s : Sched)

/-- Allocates a thread id. The saved registers of the new thread are not modelled. Reference:
`kctx_new` (`kern/thread/PKCtxNew/PKCtxNew.c:15`). -/
def kctxNew (id : Nat) (quota : BitVec 32) : Sched × Nat :=
  if containerCanConsume s.container id quota then
    ({ s with container := (containerSplit s.container id quota).1 },
      (containerSplit s.container id quota).2)
  else (s, numIds)

/-- Reference: `thread_spawn` (`kern/thread/PThread/PThread.c:33`). -/
def threadSpawn (id : Nat) (quota : BitVec 32) : Sched × Nat :=
  let (s', pid) := s.kctxNew id quota
  if pid ≠ numIds then
    ({ s' with pool := (s'.pool.tcbSetState pid .ready).tqueueEnqueue numIds pid }, pid)
  else (s', pid)

/-- Reference: `thread_yield` (`kern/thread/PThread/PThread.c:59`). -/
def threadYield : Sched :=
  let pool := (s.pool.tcbSetState s.curid .ready).tqueueEnqueue numIds s.curid
  let (pool, new) := pool.tqueueDequeue numIds
  { s with pool := pool.tcbSetState new .run, curid := new }

/-- The part of `thread_sleep` up to the context switch. It panics when no thread is ready.
Reference: `thread_sleep` (`kern/thread/PThread/PThread.c:101`). -/
def threadSleep (chan : Nat) : Option Sched :=
  let (pool, new) := s.pool.tqueueDequeue numIds
  if new = numIds then none
  else
    some { s with
      pool := ((pool.tcbSetChan s.curid chan).tcbSetState s.curid .sleep).tcbSetState new .run
      curid := new
      inSleep := update s.inSleep s.curid true }

/-- The part of `thread_sleep` after the context switch back. Reference: `thread_sleep`
(`kern/thread/PThread/PThread.c:133`). -/
def tidy : Sched :=
  { s with
    pool := s.pool.tcbSetChan s.curid 0
    inSleep := update s.inSleep s.curid false }

/-- One turn of the loop of `thread_wakeup` (`kern/thread/PThread/PThread.c:149`). -/
def wakeupOne (chan : Nat) (pool : ThreadPool) (pid : Nat) : ThreadPool :=
  if chan = (pool.tcb pid).channel then (pool.tcbSetState pid .ready).tqueueEnqueue numIds pid
  else pool

/-- Reference: `thread_wakeup` (`kern/thread/PThread/PThread.c:144`). -/
def threadWakeup (chan : Nat) : Sched :=
  { s with pool := (List.range numIds).foldl (wakeupOne chan) s.pool }

/-- Reference: `thread_init` (`kern/thread/PThread/PThread.c:15`). -/
def threadInit (realQuota : BitVec 32) : Sched where
  pool := ThreadPool.tqueueInit.tcbSetState 0 .run
  curid := 0
  container := containerInit realQuota
  inSleep _ := false

/-- The first process is created by thread 0, taken off the ready queue and run. Reference:
`kern_main` (`kern/init/init.c:23`), `proc_create` (`kern/proc/PProc/PProc.c:37`). -/
def kernMain : Sched :=
  let (s', pid) := s.threadSpawn s.curid 10000
  { s' with pool := (s'.pool.tqueueRemove numIds pid).tcbSetState pid .run, curid := pid }

/-- The state after boot on a machine with `realQuota` free pages. -/
def boot (realQuota : BitVec 32) : Sched := (threadInit realQuota).kernMain

end Sched

/-- The operations of the running thread. -/
inductive ThreadAction where
  | spawn (id : Nat) (quota : BitVec 32)
  | yield
  | sleep (chan : Nat)
  | tidy
  | wakeup (chan : Nat)

/-- The running thread spawns, yields, sleeps and wakes up others, in any order, from the state
after boot; boot needs the 10000 pages that `kern_main` gives to the first process. A thread that
comes back inside `thread_sleep` first tidies up; before it does, interrupts may make it yield or
wake up others. -/
def threadMachine : Machine Sched ThreadAction where
  Init s := ∃ realQuota, 10000 ≤ realQuota ∧ s = Sched.boot realQuota
  step s
    | .spawn id quota =>
      if s.inSleep s.curid = false ∧ id < numIds then some (s.threadSpawn id quota).1 else none
    | .yield => some s.threadYield
    | .sleep chan => if s.inSleep s.curid = false then s.threadSleep chan else none
    | .tidy => if s.inSleep s.curid = true then some s.tidy else none
    | .wakeup chan => some (s.threadWakeup chan)

end MCertikos
