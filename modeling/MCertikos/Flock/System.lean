import MCertikos.Flock.Basic

/-!
# Threads that share a lock object

Any number of threads call `flock_acquire` and `flock_release` on one lock object, one critical
section at a time. `thread_sleep(fl, &fl->lock)` puts the calling thread among the sleepers of the
lock object and `thread_wakeup(fl)` makes every sleeper runnable; a runnable sleeper comes back to
the head of its wait loop. A request is made for a tag of the calling thread (a descriptor, for
`file_flock`), so that a thread may hold several locks at once. The field `granted` is a history
variable: it holds the requests whose `flock_acquire` has succeeded and whose `flock_release` has
not been called yet.

`LockStep` says once what a step can do, and `LockSys.step_cases` that it says everything.
-/

namespace MCertikos

open Transition Function

namespace Flock

/-! ## The code of the engine, by kind of lock -/

/-- The wait condition of a request of kind `k`. -/
def Blocked (fl : Flock) : LockKind → Prop
  | .sh => fl.SharedBlocked
  | .ex => fl.ExclusiveBlocked

instance (fl : Flock) : ∀ k, Decidable (fl.Blocked k)
  | .sh => inferInstanceAs (Decidable fl.SharedBlocked)
  | .ex => inferInstanceAs (Decidable fl.ExclusiveBlocked)

/-- The counter of waiting requests of kind `k`. -/
def waiting (fl : Flock) : LockKind → Int
  | .sh => fl.waitingShared
  | .ex => fl.waitingExclusive

/-- The wait loop of a request of kind `k`, from its head. -/
def loop (fl : Flock) (pid : Nat) : LockKind → Flock × Outcome
  | .sh => fl.sharedLoop pid
  | .ex => fl.exclusiveLoop pid

/-- What a request does before it sleeps for the first time. -/
def enroll (fl : Flock) (pid : Nat) : LockKind → Flock
  | .sh => { fl.waitqAdd pid lockSh with waitingShared := fl.waitingShared + 1 }
  | .ex => { fl.waitqAdd pid lockEx with waitingExclusive := fl.waitingExclusive + 1 }

/-- What a request does when its wait is over. -/
def leave (fl : Flock) (pid : Nat) : LockKind → Flock
  | .sh => { fl with waitingShared := fl.waitingShared - 1 }.waitqRemove pid
  | .ex => { fl with waitingExclusive := fl.waitingExclusive - 1 }.waitqRemove pid

/-- What granting a request does. -/
def grant (fl : Flock) : LockKind → Flock
  | .sh => fl.grantShared
  | .ex => fl.grantExclusive

variable {fl : Flock} {pid : Nat} {k k' : LockKind}

@[simp] theorem enroll_state : (fl.enroll pid k).state = fl.state := by
  cases k <;> simp [enroll]

@[simp] theorem enroll_sharedHolders : (fl.enroll pid k).sharedHolders = fl.sharedHolders := by
  cases k <;> simp [enroll]

@[simp] theorem enroll_waiting :
    (fl.enroll pid k).waiting k' = fl.waiting k' + if k' = k then 1 else 0 := by
  cases k <;> cases k' <;> simp [enroll, waiting]

@[simp] theorem leave_state : (fl.leave pid k).state = fl.state := by
  cases k <;> simp [leave]

@[simp] theorem leave_sharedHolders : (fl.leave pid k).sharedHolders = fl.sharedHolders := by
  cases k <;> simp [leave]

@[simp] theorem leave_waiting :
    (fl.leave pid k).waiting k' = fl.waiting k' - if k' = k then 1 else 0 := by
  cases k <;> cases k' <;> simp [leave, waiting]

@[simp] theorem grant_waiting : (fl.grant k).waiting k' = fl.waiting k' := by
  cases k <;> cases k' <;> rfl

/-- The wait conditions depend on the state and on the number of waiting writers. -/
theorem blocked_congr {fl' : Flock} (hs : fl'.state = fl.state)
    (hw : fl'.waiting .ex = fl.waiting .ex) : fl'.Blocked k ↔ fl.Blocked k := by
  cases k <;> simp only [Blocked, SharedBlocked, ExclusiveBlocked, hs, waiting] at hw ⊢
  rw [hw]

/-- A wait loop sleeps while the wait condition holds and grants the request once it does not. -/
theorem loop_eq : fl.loop pid k =
    if fl.Blocked k then (fl, .sleep) else ((fl.leave pid k).grant k, .ret 0) := by
  cases k <;> rfl

/-- Enrolling a request unblocks no request. -/
theorem Blocked.enroll (h : fl.Blocked k') : (fl.enroll pid k).Blocked k' := by
  cases k' with
  | ex => simpa [Flock.Blocked, ExclusiveBlocked] using h
  | sh =>
    have hw : (fl.enroll pid k).waiting .ex = _ := enroll_waiting
    simp only [Flock.Blocked, SharedBlocked, waiting, enroll_state] at h hw ⊢
    rcases h with h | h
    · exact .inl h
    · right
      rw [hw]
      split <;> omega

/-- `flock_acquire` with an operation of kind `k`: it fails, enrolls the caller and sleeps, or
grants the request. -/
theorem flockAcquire_eq {operation : BitVec 32} (hk : lockType operation = k.code) :
    fl.flockAcquire pid operation =
      if fl.Blocked k then
        if nonblocking operation then (fl, .ret (-1)) else (fl.enroll pid k, .sleep)
      else (fl.grant k, .ret 0) := by
  cases k with
  | sh =>
    have hb : ∀ n, ({ fl.waitqAdd pid lockSh with waitingShared := n } : Flock).SharedBlocked ↔
        fl.SharedBlocked := fun n => by simp [SharedBlocked]
    simp only [LockKind.code_sh] at hk
    simp only [flockAcquire, hk, if_true, tryAcquireShared, sharedLoop, hb]
    by_cases h : fl.SharedBlocked <;> simp [h, Blocked, Flock.enroll, Flock.grant]
  | ex =>
    have hb : ∀ n, ({ fl.waitqAdd pid lockEx with waitingExclusive := n } :
      Flock).ExclusiveBlocked ↔
        fl.ExclusiveBlocked := fun n => by simp [ExclusiveBlocked]
    have hne : lockEx ≠ lockSh := by decide
    simp only [LockKind.code_ex] at hk
    simp only [flockAcquire, hk, if_neg hne, if_true, tryAcquireExclusive, exclusiveLoop, hb]
    by_cases h : fl.ExclusiveBlocked <;> simp [h, Blocked, Flock.enroll, Flock.grant]

end Flock

/-- The kind an operation value asks for. -/
def kindOf (lockType : BitVec 32) : Option LockKind :=
  if lockType = lockSh then some .sh else if lockType = lockEx then some .ex else none

@[simp] theorem kindOf_code (k : LockKind) : kindOf k.code = some k := by
  cases k <;> decide

theorem kindOf_eq_some {v : BitVec 32} {k : LockKind} (h : kindOf v = some k) : v = k.code := by
  unfold kindOf at h
  split_ifs at h with h1 h2 <;> cases h <;> assumption

/-- An operation of no kind leaves the lock object alone. -/
theorem Flock.flockAcquire_of_kindOf_none {fl : Flock} {pid : Nat} {operation : BitVec 32}
    (h : kindOf (lockType operation) = none) :
    (fl.flockAcquire pid operation).1 = fl ∧ (fl.flockAcquire pid operation).2 ≠ .sleep := by
  unfold kindOf at h
  split_ifs at h with h1 h2
  simp only [Flock.flockAcquire, if_neg h1, if_neg h2]
  split_ifs <;> simp

/-! ## The machine -/

/-- Where a thread stands with respect to the lock object: outside `flock_acquire`, or in the wait
loop for one of its tags, asleep (`woken = false`) or made runnable by `thread_wakeup`. -/
inductive ThreadPc where
  | out
  | waiting (kind : LockKind) (tag : Nat) (woken : Bool)
  deriving DecidableEq

/-- The effect of `thread_wakeup(fl)` on one thread. -/
def ThreadPc.wake : ThreadPc → ThreadPc
  | .out => .out
  | .waiting k tag _ => .waiting k tag true

/-- A lock object with the threads that use it. -/
structure LockSys where
  flock : Flock
  thread : Nat → ThreadPc
  /-- History variable: the granted requests of each kind, as pairs of a thread and a tag. -/
  granted : LockKind → Finset (Nat × Nat)

namespace LockSys

/-- Records how a critical section of `flock_acquire` for a request of kind `k` ended. -/
def settle (s : LockSys) (pid tag : Nat) (k : LockKind) :
    Flock × Flock.Outcome → LockSys × Flock.Outcome
  | (fl, .sleep) =>
    ({ s with flock := fl, thread := update s.thread pid (.waiting k tag false) }, .sleep)
  | (fl, .ret r) =>
    ({ flock := fl
       thread := update s.thread pid .out
       granted :=
        if r = 0 then update s.granted k (insert (pid, tag) (s.granted k))
        else s.granted },
      .ret r)

/-- A call of `flock_acquire` by `pid` for `tag`, up to its return or its first sleep. -/
def acquire (s : LockSys) (pid tag : Nat) (operation : BitVec 32) : LockSys × Flock.Outcome :=
  match kindOf (lockType operation) with
  | some k => s.settle pid tag k (s.flock.flockAcquire pid operation)
  | none =>
    ({ s with flock := (s.flock.flockAcquire pid operation).1 },
      (s.flock.flockAcquire pid operation).2)

/-- A woken thread takes the spinlock again and tests its wait condition. -/
def resume (s : LockSys) (pid : Nat) : Option (LockSys × Flock.Outcome) :=
  match s.thread pid with
  | .waiting k tag true => some (s.settle pid tag k (s.flock.loop pid k))
  | _ => none

/-- A call of `flock_release(fl, lockType)` for the lock that `pid` was granted under `tag`. -/
def release (s : LockSys) (pid tag : Nat) (lockType : BitVec 32) : LockSys × Int :=
  let r := s.flock.flockRelease lockType
  ({ flock := r.1
     thread := if r.2.1 then fun p => (s.thread p).wake else s.thread
     granted :=
      match kindOf lockType with
      | some k => update s.granted k ((s.granted k).erase (pid, tag))
      | none => s.granted },
    r.2.2)

/-- The request of `pid` under `tag` is not granted. -/
def Free (s : LockSys) (pid tag : Nat) : Prop := ∀ k, (pid, tag) ∉ s.granted k

instance (s : LockSys) (pid tag : Nat) : Decidable (s.Free pid tag) :=
  decidable_of_iff ((pid, tag) ∉ s.granted .sh ∧ (pid, tag) ∉ s.granted .ex)
    ⟨fun h k => by cases k; exacts [h.1, h.2], fun h => ⟨h .sh, h .ex⟩⟩

end LockSys

/-- The calls of the engine's functions, and the return of a woken thread to its wait loop. -/
inductive LockAction where
  | acquire (pid tag : Nat) (operation : BitVec 32)
  | resume (pid : Nat)
  | release (pid tag : Nat) (kind : LockKind)

/-- Threads that call `flock_acquire` for tags they hold no lock under, and `flock_release` for the
locks they hold, in any order and any interleaving. -/
def lockMachine : Machine LockSys LockAction where
  Init s := s = { flock := flockInit, thread := fun _ => .out, granted := fun _ => ∅ }
  step s
    | .acquire pid tag operation =>
      if s.thread pid = .out ∧ s.Free pid tag then some (s.acquire pid tag operation).1 else none
    | .resume pid => (s.resume pid).map (·.1)
    | .release pid tag k =>
      if s.thread pid = .out ∧ (pid, tag) ∈ s.granted k then some (s.release pid tag k.code).1
      else none

/-! ## What a step can do -/

/-- The steps of `lockMachine`, one constructor per effect. -/
inductive LockStep (s : LockSys) : LockSys → Prop
  /-- A refused request, or an operation that asks for no lock. -/
  | refuse : LockStep s s
  /-- A request that has to wait. -/
  | enroll {pid tag : Nat} {k : LockKind} : s.thread pid = .out → s.Free pid tag →
      s.flock.Blocked k →
      LockStep s { s with
        flock := s.flock.enroll pid k
        thread := update s.thread pid (.waiting k tag false) }
  /-- A woken request that has to wait again. -/
  | resleep {pid tag : Nat} {k : LockKind} : s.thread pid = .waiting k tag true →
      s.flock.Blocked k →
      LockStep s { s with thread := update s.thread pid (.waiting k tag false) }
  /-- A request granted without waiting. -/
  | grant {pid tag : Nat} {k : LockKind} : s.thread pid = .out → s.Free pid tag →
      ¬ s.flock.Blocked k →
      LockStep s { s with
        flock := s.flock.grant k
        granted := update s.granted k (insert (pid, tag) (s.granted k)) }
  /-- A woken request that is granted. -/
  | regrant {pid tag : Nat} {k : LockKind} : s.thread pid = .waiting k tag true →
      ¬ s.flock.Blocked k →
      LockStep s
        { flock := (s.flock.leave pid k).grant k
          thread := update s.thread pid .out
          granted := update s.granted k (insert (pid, tag) (s.granted k)) }
  /-- A release. -/
  | release {pid tag : Nat} {k : LockKind} : s.thread pid = .out → (pid, tag) ∈ s.granted k →
      LockStep s (s.release pid tag k.code).1

/-- Writing back the value a function already has changes nothing. -/
theorem update_eq_self_of_eq {α β : Type*} [DecidableEq α] {f : α → β} {a : α} {b : β}
    (h : f a = b) : update f a b = f := by
  rw [← h, update_eq_self]

/-- Every step of the machine is one of `LockStep`. -/
theorem LockSys.step_cases {s t : LockSys} {a : LockAction} (h : lockMachine.step s a = some t) :
    LockStep s t := by
  cases a with
  | acquire pid tag operation =>
    obtain ⟨⟨hpc, hfree⟩, rfl⟩ := of_guard h
    unfold LockSys.acquire
    split
    · next k hk =>
      rw [Flock.flockAcquire_eq (kindOf_eq_some hk)]
      split_ifs with hb hn
      · simpa [LockSys.settle, update_eq_self_of_eq hpc] using LockStep.refuse
      · exact .enroll hpc hfree hb
      · simpa [LockSys.settle, update_eq_self_of_eq hpc] using LockStep.grant hpc hfree hb
    · next hk =>
      rw [(Flock.flockAcquire_of_kindOf_none hk).1]
      exact .refuse
  | resume pid =>
    simp only [lockMachine, LockSys.resume, Option.map_eq_some_iff] at h
    obtain ⟨r, hr, rfl⟩ := h
    split at hr
    · next k tag hpc =>
      cases hr
      rw [Flock.loop_eq]
      split_ifs with hb
      · exact .resleep hpc hb
      · exact .regrant hpc hb
    · cases hr
  | release pid tag k =>
    obtain ⟨⟨hpc, hmem⟩, rfl⟩ := of_guard h
    exact .release hpc hmem

end MCertikos
