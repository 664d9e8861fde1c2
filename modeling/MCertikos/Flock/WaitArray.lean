import MCertikos.Flock.Invariant
import MCertikos.Lib.ArrayList

/-!
# The wait queue of a lock object

The functions of `kern/flock/flock.c` on the lock object as it is in memory, with the wait queue in
an array that `waitq_remove` compacts. `FlockT.view` reads the array as a list, and gives the lock
object of the other modules: each function does the same to both (`FlockT.view_flockAcquire`,
`FlockT.view_loop`, `FlockT.view_flockRelease`).

Threads with process ids below `NUM_IDS` call `flock_acquire` and `flock_release` in any order and
with any arguments. `waitq_mirrors_waiters`: the queue always holds the threads that are blocked,
in the order in which they came.
-/

namespace MCertikos

open Transition ArrayList Function

/-! ## The lock object -/

/-- The field `waitq` of `flock_t`. Reference: `kern/flock/flock.h:34`. -/
structure WaitArray where
  pids : Nat → Nat
  len : Nat
  inq : Nat → BitVec 8
  req : Nat → BitVec 8

/-- Reference: `flock_t` (`kern/flock/flock.h:24`). -/
structure FlockT where
  state : FlockState
  sharedHolders : Int
  waitingShared : Int
  waitingExclusive : Int
  waitq : WaitArray

/-- The array `pids` keeps what was there. Reference: `flock_init` (`kern/flock/flock.c:55`). -/
def FlockT.init (pids : Nat → Nat) : FlockT where
  state := .inactive
  sharedHolders := 0
  waitingShared := 0
  waitingExclusive := 0
  waitq := { pids, len := 0, inq := fun _ => 0, req := fun _ => 0 }

/-- Reference: `waitq_add` (`kern/flock/flock.c:7`). -/
def WaitArray.add (q : WaitArray) (pid : Nat) (req : BitVec 32) : WaitArray :=
  if numIds ≤ pid then q
  else if q.inq pid ≠ 0 then { q with req := update q.req pid (req.setWidth 8) }
  else if q.len < numIds then
    { pids := update q.pids q.len pid
      len := q.len + 1
      inq := update q.inq pid 1
      req := update q.req pid (req.setWidth 8) }
  else q

/-- The loop of `waitq_remove`. Reference: `kern/flock/flock.c:35`. -/
def WaitArray.removeFrom (pid : Nat) : (turns i : Nat) → WaitArray → WaitArray
  | 0, _, q => q
  | turns + 1, i, q =>
    if i < q.len then
      if q.pids i = pid then { q with pids := shiftFrom q.len q.len i q.pids, len := q.len - 1 }
      else removeFrom pid turns (i + 1) q
    else q

/-- Reference: `waitq_remove` (`kern/flock/flock.c:26`). -/
def WaitArray.remove (q : WaitArray) (pid : Nat) : WaitArray :=
  if numIds ≤ pid ∨ q.inq pid = 0 then q
  else
    let q := q.removeFrom pid q.len 0
    { q with inq := update q.inq pid 0, req := update q.req pid 0 }

namespace FlockT

variable (fl : FlockT) (pid : Nat)

/-- The wait condition of a shared request. Reference: `kern/flock/flock.c:81`, `:90`. -/
def SharedBlocked : Prop := fl.state = .exclusive ∨ 0 < fl.waitingExclusive

/-- The wait condition of an exclusive request. Reference: `kern/flock/flock.c:112`, `:121`. -/
def ExclusiveBlocked : Prop := fl.state ≠ .inactive

instance : Decidable fl.SharedBlocked := inferInstanceAs (Decidable (_ ∨ _))
instance : Decidable fl.ExclusiveBlocked := inferInstanceAs (Decidable (_ ≠ _))

/-- The end of `try_acquire_shared` (`kern/flock/flock.c:98`). -/
def grantShared : FlockT := { fl with state := .shared, sharedHolders := fl.sharedHolders + 1 }

/-- The end of `try_acquire_exclusive` (`kern/flock/flock.c:129`). -/
def grantExclusive : FlockT := { fl with state := .exclusive }

/-- The `while` loop of `try_acquire_shared` from its head, and what follows it. -/
def sharedLoop : FlockT × Flock.Outcome :=
  if fl.SharedBlocked then (fl, .sleep)
  else
    let fl := { fl with waitingShared := fl.waitingShared - 1 }
    let fl := { fl with waitq := fl.waitq.remove pid }
    (fl.grantShared, .ret 0)

/-- The `while` loop of `try_acquire_exclusive` from its head, and what follows it. -/
def exclusiveLoop : FlockT × Flock.Outcome :=
  if fl.ExclusiveBlocked then (fl, .sleep)
  else
    let fl := { fl with waitingExclusive := fl.waitingExclusive - 1 }
    let fl := { fl with waitq := fl.waitq.remove pid }
    (fl.grantExclusive, .ret 0)

/-- Reference: `try_acquire_shared` (`kern/flock/flock.c:75`). -/
def tryAcquireShared (nonblocking : Bool) : FlockT × Flock.Outcome :=
  if fl.SharedBlocked then
    if nonblocking then (fl, .ret (-1))
    else
      let fl := { fl with waitq := fl.waitq.add pid lockSh }
      let fl := { fl with waitingShared := fl.waitingShared + 1 }
      fl.sharedLoop pid
  else (fl.grantShared, .ret 0)

/-- Reference: `try_acquire_exclusive` (`kern/flock/flock.c:107`). -/
def tryAcquireExclusive (nonblocking : Bool) : FlockT × Flock.Outcome :=
  if fl.ExclusiveBlocked then
    if nonblocking then (fl, .ret (-1))
    else
      let fl := { fl with waitq := fl.waitq.add pid lockEx }
      let fl := { fl with waitingExclusive := fl.waitingExclusive + 1 }
      fl.exclusiveLoop pid
  else (fl.grantExclusive, .ret 0)

/-- Reference: `flock_acquire` (`kern/flock/flock.c:136`). -/
def flockAcquire (operation : BitVec 32) : FlockT × Flock.Outcome :=
  if lockType operation = lockSh then fl.tryAcquireShared pid (nonblocking operation)
  else if lockType operation = lockEx then fl.tryAcquireExclusive pid (nonblocking operation)
  else if lockType operation = lockUn then (fl, .ret 0)
  else (fl, .ret (-1))

/-- A woken request from the head of its loop. -/
def loop : LockKind → FlockT × Flock.Outcome
  | .sh => fl.sharedLoop pid
  | .ex => fl.exclusiveLoop pid

/-- The new lock object, whether `thread_wakeup(fl)` is called, and the result. Reference:
`flock_release` (`kern/flock/flock.c:171`). -/
def flockRelease (lockType : BitVec 32) : FlockT × Bool × Int :=
  if lockType = lockSh then
    if fl.state = .shared ∧ 0 < fl.sharedHolders then
      let fl := { fl with sharedHolders := fl.sharedHolders - 1 }
      if fl.sharedHolders = 0 then ({ fl with state := .inactive }, true, 0)
      else (fl, false, 0)
    else (fl, false, 0)
  else if lockType = lockEx then
    if fl.state = .exclusive then ({ fl with state := .inactive }, true, 0)
    else (fl, false, 0)
  else (fl, false, -1)

end FlockT

/-! ## The array as a list -/

/-- The wait queue as a list. -/
def WaitArray.view (q : WaitArray) : WaitQ where
  pids := toList q.pids q.len
  inq pid := q.inq pid ≠ 0
  req := q.req

/-- The lock object with its wait queue as a list. -/
def FlockT.view (fl : FlockT) : Flock where
  state := fl.state
  sharedHolders := fl.sharedHolders
  waitingShared := fl.waitingShared
  waitingExclusive := fl.waitingExclusive
  waitq := fl.waitq.view

section
variable {q : WaitArray} {fl : FlockT} {pid turns i : Nat} {operation : BitVec 32} {k : LockKind}

theorem WaitArray.inq_update {v : BitVec 8} {b : Bool} (hv : decide (v ≠ 0) = b) :
    (fun p => decide (update q.inq pid v p ≠ 0)) = update q.view.inq pid b := by
  funext p
  rcases eq_or_ne p pid with rfl | hne
  · rw [update_self, update_self, hv]
  · rw [update_of_ne hne, update_of_ne hne]
    rfl

theorem FlockT.view_add {req : BitVec 32} :
    FlockT.view { fl with waitq := fl.waitq.add pid req } = fl.view.waitqAdd pid req := by
  have hlen : fl.view.waitq.pids.length = fl.waitq.len := length_toList
  have hinq : (fl.view.waitq.inq pid = true) = (fl.waitq.inq pid ≠ 0) := by
    rw [FlockT.view, WaitArray.view, decide_eq_true_eq]
  rw [Flock.waitqAdd, WaitArray.add, hlen]
  simp only [hinq]
  split_ifs with hpid hin hroom
  · rfl
  · rfl
  · simp only [FlockT.view, WaitArray.view, toList_update]
    rw [WaitArray.inq_update (b := true) (by decide)]
    rfl
  · rfl

/-- The loop of `waitq_remove` removes the first entry with the process id. -/
theorem WaitArray.view_removeFrom (h : q.len ≤ i + turns) (hbefore : ∀ j < i, q.pids j ≠ pid) :
    (q.removeFrom pid turns i).view = { q.view with pids := q.view.pids.erase pid } ∧
      (q.removeFrom pid turns i).inq = q.inq ∧ (q.removeFrom pid turns i).req = q.req := by
  have hend : ∀ {i}, (∀ j < i, q.pids j ≠ pid) → q.len ≤ i → q.view.pids.erase pid =
      q.view.pids := by
    intro i hbefore hle
    refine List.erase_of_not_mem fun hmem => ?_
    obtain ⟨j, hj, hjx⟩ := List.mem_map.1 hmem
    exact hbefore j (Nat.lt_of_lt_of_le (List.mem_range.1 hj) hle) hjx
  induction turns generalizing i with
  | zero => exact ⟨by rw [removeFrom, hend hbefore h], rfl, rfl⟩
  | succ turns ih =>
    rw [removeFrom]
    split_ifs with hlt hhit
    · refine ⟨?_, rfl, rfl⟩
      have herase := toList_shiftFrom_eq_erase
        hlt (show q.len ≤ i + 1 + q.len by omega) hhit hbefore
      simp only [WaitArray.view, herase]
    · refine ih (by omega) fun j hj => ?_
      rcases Nat.lt_or_eq_of_le (Nat.le_of_lt_succ hj) with hj | rfl
      · exact hbefore j hj
      · exact hhit
    · exact ⟨by rw [hend hbefore (Nat.le_of_not_lt hlt)], rfl, rfl⟩

theorem FlockT.view_remove : FlockT.view { fl with waitq := fl.waitq.remove pid } =
    fl.view.waitqRemove pid := by
  have hinq : (fl.view.waitq.inq pid = false) = (fl.waitq.inq pid = 0) := by
    rw [FlockT.view, WaitArray.view, decide_eq_false_iff_not, not_not]
  rw [Flock.waitqRemove, WaitArray.remove]
  simp only [hinq]
  split_ifs with hskip
  · rfl
  · have hnone : ∀ j < 0, fl.waitq.pids j ≠ pid := fun j hj => absurd hj (Nat.not_lt_zero j)
    obtain ⟨hview, hin, hreq⟩ := WaitArray.view_removeFrom (Nat.zero_add fl.waitq.len).ge hnone
    have hpids := congrArg WaitQ.pids hview
    simp only [FlockT.view, WaitArray.view, hin, hreq] at hpids ⊢
    rw [hpids, WaitArray.inq_update (b := false) (by decide)]
    rfl

/-- The outcome of a critical section with the wait queue as a list. -/
def FlockT.viewOut (r : FlockT × Flock.Outcome) : Flock × Flock.Outcome := (r.1.view, r.2)

theorem FlockT.view_sharedLoop : viewOut (fl.sharedLoop pid) = fl.view.sharedLoop pid := by
  have hremove := @view_remove { fl with waitingShared := fl.waitingShared - 1 } pid
  rw [FlockT.sharedLoop, Flock.sharedLoop]
  by_cases h : fl.SharedBlocked
  · rw [if_pos h, if_pos (show fl.view.SharedBlocked from h), viewOut]
  · rw [if_neg h, if_neg (show ¬ fl.view.SharedBlocked from h)]
    exact congrArg (fun x => (Flock.grantShared x, Flock.Outcome.ret 0)) hremove

theorem FlockT.view_exclusiveLoop :
    viewOut (fl.exclusiveLoop pid) = fl.view.exclusiveLoop pid := by
  have hremove := @view_remove { fl with waitingExclusive := fl.waitingExclusive - 1 } pid
  rw [FlockT.exclusiveLoop, Flock.exclusiveLoop]
  by_cases h : fl.ExclusiveBlocked
  · rw [if_pos h, if_pos (show fl.view.ExclusiveBlocked from h), viewOut]
  · rw [if_neg h, if_neg (show ¬ fl.view.ExclusiveBlocked from h)]
    exact congrArg (fun x => (Flock.grantExclusive x, Flock.Outcome.ret 0)) hremove

theorem FlockT.view_loop : viewOut (fl.loop pid k) = fl.view.loop pid k := by
  cases k with
  | sh => exact view_sharedLoop
  | ex => exact view_exclusiveLoop

/-- `flock_acquire` does to the view what it does to the lock. -/
theorem FlockT.view_flockAcquire : viewOut (fl.flockAcquire pid operation) =
    fl.view.flockAcquire pid operation := by
  rw [FlockT.flockAcquire, Flock.flockAcquire]
  split_ifs with hsh hex hun
  · rw [FlockT.tryAcquireShared, Flock.tryAcquireShared]
    by_cases h : fl.SharedBlocked
    · rw [if_pos h, if_pos (show fl.view.SharedBlocked from h)]
      split_ifs
      · rfl
      · refine view_sharedLoop.trans ?_
        exact congrArg (fun x : Flock =>
          { x with waitingShared := x.waitingShared + 1 }.sharedLoop pid) view_add
    · rw [if_neg h, if_neg (show ¬ fl.view.SharedBlocked from h)]
      rfl
  · rw [FlockT.tryAcquireExclusive, Flock.tryAcquireExclusive]
    by_cases h : fl.ExclusiveBlocked
    · rw [if_pos h, if_pos (show fl.view.ExclusiveBlocked from h)]
      split_ifs
      · rfl
      · refine view_exclusiveLoop.trans ?_
        exact congrArg (fun x : Flock =>
          { x with waitingExclusive := x.waitingExclusive + 1 }.exclusiveLoop pid) view_add
    · rw [if_neg h, if_neg (show ¬ fl.view.ExclusiveBlocked from h)]
      rfl
  · rfl
  · rfl

theorem FlockT.view_flockRelease {lockType : BitVec 32} :
    ((fl.flockRelease lockType).1.view, (fl.flockRelease lockType).2) =
    fl.view.flockRelease lockType := by
  rw [FlockT.flockRelease, Flock.flockRelease]
  simp only [show fl.view.state = fl.state from rfl,
    show fl.view.sharedHolders = fl.sharedHolders from rfl]
  split_ifs <;> rfl

/-! ## The flags -/

/-- The flags are 0 or 1. -/
def WaitArray.Flags (q : WaitArray) : Prop := ∀ p, q.inq p = 0 ∨ q.inq p = 1

theorem WaitArray.Flags.update (h : q.Flags) {v : BitVec 8} (hv : v = 0 ∨ v = 1) (p : Nat) :
    update q.inq pid v p = 0 ∨ update q.inq pid v p = 1 := by
  rcases eq_or_ne p pid with rfl | hne
  · rwa [update_self]
  · rw [update_of_ne hne]
    exact h p

theorem WaitArray.Flags.add (h : q.Flags) {req : BitVec 32} : (q.add pid req).Flags := by
  rw [WaitArray.add]
  split_ifs
  · exact h
  · exact h
  · exact h.update (.inr rfl)
  · exact h

theorem WaitArray.Flags.remove (h : q.Flags) : (q.remove pid).Flags := by
  have hnone : ∀ j < 0, q.pids j ≠ pid := fun j hj => absurd hj (Nat.not_lt_zero j)
  obtain ⟨-, hin, -⟩ := WaitArray.view_removeFrom (Nat.zero_add q.len).ge hnone
  rw [WaitArray.remove]
  split_ifs
  · exact h
  · have hflags : (q.removeFrom pid q.len 0).Flags := by
      intro p
      rw [hin]
      exact h p
    exact hflags.update (.inl rfl)

theorem FlockT.flags_loop (h : fl.waitq.Flags) : (fl.loop pid k).1.waitq.Flags := by
  cases k with
  | sh =>
    rw [FlockT.loop, FlockT.sharedLoop]
    split_ifs
    exacts [h, h.remove]
  | ex =>
    rw [FlockT.loop, FlockT.exclusiveLoop]
    split_ifs
    exacts [h, h.remove]

theorem FlockT.flags_flockAcquire (h : fl.waitq.Flags) :
    (fl.flockAcquire pid operation).1.waitq.Flags := by
  rw [FlockT.flockAcquire]
  split_ifs
  · rw [FlockT.tryAcquireShared]
    split_ifs
    exacts [h, flags_loop (k := .sh) h.add, h]
  · rw [FlockT.tryAcquireExclusive]
    split_ifs
    exacts [h, flags_loop (k := .ex) h.add, h]
  · exact h
  · exact h

theorem FlockT.waitq_flockRelease {lockType : BitVec 32} : (fl.flockRelease lockType).1.waitq =
    fl.waitq := by
  simp only [FlockT.flockRelease]
  split_ifs <;> rfl

end

/-! ## The queue and the waiting requests -/

theorem Flock.enroll_waitq {fl : Flock} {pid : Nat} {k : LockKind} (hpid : pid < numIds)
    (hinq : ¬ fl.waitq.inq pid = true) (hlen : fl.waitq.pids.length < numIds) :
    (fl.enroll pid k).waitq.pids = fl.waitq.pids ++ [pid] ∧
      (fl.enroll pid k).waitq.inq = update fl.waitq.inq pid true ∧
      (fl.enroll pid k).waitq.req = update fl.waitq.req pid (k.code.setWidth 8) := by
  cases k <;> rw [enroll, waitqAdd, if_neg (Nat.not_le.2 hpid), if_neg hinq, if_pos hlen] <;>
    exact ⟨rfl, rfl, rfl⟩

theorem Flock.leave_waitq {fl : Flock} {pid : Nat} {k : LockKind} (hpid : pid < numIds)
    (hinq : fl.waitq.inq pid = true) :
    (fl.leave pid k).waitq.pids = fl.waitq.pids.erase pid ∧
      (fl.leave pid k).waitq.inq = update fl.waitq.inq pid false ∧
      (fl.leave pid k).waitq.req = update fl.waitq.req pid 0 := by
  have hskip : ¬ (numIds ≤ pid ∨ fl.waitq.inq pid = false) := by
    rw [hinq, not_or]
    exact ⟨Nat.not_le.2 hpid, Bool.true_eq_false_eq_False⟩
  cases k <;> rw [leave, waitqRemove, if_neg hskip] <;> exact ⟨rfl, rfl, rfl⟩

/-- The queue and the counters agree with the kinds of the requests that wait and with the times at
which they came. -/
structure Flock.Mirrors (fl : Flock) (kind : Nat → Option LockKind) (since : Nat → Nat)
    (clock : Nat) : Prop where
  nodup : fl.waitq.pids.Nodup
  mem : ∀ p, p ∈ fl.waitq.pids ↔ (kind p).isSome
  lt : ∀ p ∈ fl.waitq.pids, p < numIds
  order : fl.waitq.pids.Pairwise fun p p' => since p < since p'
  past : ∀ p ∈ fl.waitq.pids, since p < clock
  inq : ∀ p, fl.waitq.inq p = true ↔ p ∈ fl.waitq.pids
  req : ∀ p k, kind p = some k → fl.waitq.req p = k.code.setWidth 8
  count : ∀ k, fl.waiting k = (fl.waitq.pids.filter fun p => kind p = some k).length

namespace Flock.Mirrors

variable {fl fl' : Flock} {kind : Nat → Option LockKind} {since since' : Nat → Nat}
  {clock clock' pid : Nat} {k : LockKind}

theorem length_le (h : fl.Mirrors kind since clock) : fl.waitq.pids.length ≤ numIds := by
  have hsub : fl.waitq.pids ⊆ List.range numIds := fun p hp => List.mem_range.2 (h.lt p hp)
  simpa using (h.nodup.subperm hsub).length_le

/-- The object of `flock_init`, whatever the array held before. -/
theorem init {pids : Nat → Nat} : (FlockT.init pids).view.Mirrors (fun _ => none) since clock where
  nodup := List.nodup_nil
  mem p := by simp [FlockT.view, WaitArray.view, FlockT.init, toList]
  lt p hp := absurd hp List.not_mem_nil
  order := List.Pairwise.nil
  past p hp := absurd hp List.not_mem_nil
  inq p := by simp [FlockT.view, WaitArray.view, FlockT.init, toList]
  req p k hk := by cases hk
  count k := by cases k <;> rfl

/-- There is room for a request that does not wait yet. -/
theorem length_lt (h : fl.Mirrors kind since clock) (hpid : pid < numIds)
    (hnone : kind pid = none) :
    fl.waitq.pids.length < numIds := by
  have hnot : pid ∉ fl.waitq.pids := by
    rw [h.mem, hnone]
    exact Bool.false_ne_true
  have hsub : pid :: fl.waitq.pids ⊆ List.range numIds := by
    refine List.cons_subset.2 ⟨List.mem_range.2 hpid, fun p hp => List.mem_range.2 (h.lt p hp)⟩
  have hlen := ((List.nodup_cons.2 ⟨hnot, h.nodup⟩).subperm hsub).length_le
  rwa [List.length_cons, List.length_range] at hlen

/-- What neither touches the queue nor the counters keeps the agreement. -/
theorem congr (h : fl.Mirrors kind since clock) (hq : fl'.waitq = fl.waitq)
    (hw : ∀ k, fl'.waiting k = fl.waiting k) (hsince : ∀ p ∈ fl.waitq.pids, since' p = since p)
    (hclock : clock ≤ clock') :
    fl'.Mirrors kind since' clock' where
  nodup := hq ▸ h.nodup
  mem := hq ▸ h.mem
  lt := hq ▸ h.lt
  order := by
    rw [hq]
    refine h.order.imp_of_mem fun hp hp' hlt => ?_
    rwa [hsince _ hp, hsince _ hp']
  past := by
    intro p hp
    rw [hq] at hp
    rw [hsince p hp]
    exact (h.past p hp).trans_le hclock
  inq := hq ▸ h.inq
  req := hq ▸ h.req
  count k := by rw [hw, hq, h.count]

theorem filter_update {l : List Nat} {o : Option LockKind} (hnot : pid ∉ l) :
    (l.filter fun p => update kind pid o p = some k) = l.filter fun p => kind p = some k := by
  refine List.filter_congr fun p hp => ?_
  rw [update_of_ne (ne_of_mem_of_not_mem hp hnot)]

section
variable (h : fl.Mirrors kind since clock)
include h

/-- A request that has to wait is put behind the others. -/
theorem enroll (hpid : pid < numIds) (hnone : kind pid = none) :
    (fl.enroll pid k).Mirrors (update kind pid (some k)) (update since pid clock) (clock + 1) := by
  have hnot : pid ∉ fl.waitq.pids := by
    rw [h.mem, hnone]
    exact Bool.false_ne_true
  have hinq : ¬ fl.waitq.inq pid = true := fun hin => hnot ((h.inq pid).1 hin)
  obtain ⟨hpids, hin, hreq⟩ := enroll_waitq (k := k) hpid hinq (h.length_lt hpid hnone)
  have hsince : ∀ p ∈ fl.waitq.pids, update since pid clock p = since p := fun p hp =>
    update_of_ne (ne_of_mem_of_not_mem hp hnot) _ _
  refine ⟨?_, ?_, ?_, ?_, ?_, ?_, ?_, ?_⟩
  · rw [hpids]
    exact List.nodup_append.2 ⟨h.nodup, List.nodup_singleton pid, fun p hp p' hp' =>
      List.mem_singleton.1 hp' ▸ ne_of_mem_of_not_mem hp hnot⟩
  · intro p
    rw [hpids, List.mem_append, List.mem_singleton]
    rcases eq_or_ne p pid with rfl | hne
    · simp
    · rw [update_of_ne hne, ← h.mem]
      exact or_iff_left hne
  · intro p hp
    rw [hpids, List.mem_append, List.mem_singleton] at hp
    rcases hp with hp | rfl
    exacts [h.lt p hp, hpid]
  · rw [hpids, List.pairwise_append]
    refine ⟨h.order.imp_of_mem fun hp hp' hlt => ?_, List.pairwise_singleton _ _,
      fun p hp p' hp' => ?_⟩
    · rwa [hsince _ hp, hsince _ hp']
    · rw [List.mem_singleton.1 hp', update_self, hsince p hp]
      exact h.past p hp
  · intro p hp
    rw [hpids, List.mem_append, List.mem_singleton] at hp
    rcases hp with hp | rfl
    · rw [hsince p hp]
      exact (h.past p hp).trans (Nat.lt_succ_self clock)
    · rw [update_self]
      exact Nat.lt_succ_self clock
  · intro p
    rw [hpids, hin, List.mem_append, List.mem_singleton]
    rcases eq_or_ne p pid with rfl | hne
    · simp
    · rw [update_of_ne hne, h.inq]
      exact (or_iff_left hne).symm
  · intro p k' hk'
    rw [hreq]
    rcases eq_or_ne p pid with rfl | hne
    · rw [update_self] at hk' ⊢
      rw [Option.some.inj hk']
    · rw [update_of_ne hne] at hk' ⊢
      exact h.req p k' hk'
  · intro k'
    rw [Flock.enroll_waiting, h.count, hpids, List.filter_append, List.length_append,
      filter_update hnot]
    by_cases hk : k' = k
    · simp [hk]
    · simp [hk, Ne.symm hk]

/-- A request whose wait is over is taken out. -/
theorem leave (hsome : kind pid = some k) :
    (fl.leave pid k).Mirrors (update kind pid none) since clock := by
  have hmem : pid ∈ fl.waitq.pids := (h.mem pid).2 (by rw [hsome, Option.isSome_some])
  obtain ⟨hpids, hin, hreq⟩ := leave_waitq (k := k) (h.lt pid hmem) ((h.inq pid).2 hmem)
  have hsub : fl.waitq.pids.erase pid ⊆ fl.waitq.pids := List.erase_subset
  refine ⟨?_, ?_, ?_, ?_, ?_, ?_, ?_, ?_⟩
  · rw [hpids]
    exact h.nodup.erase pid
  · intro p
    rw [hpids, h.nodup.mem_erase_iff]
    rcases eq_or_ne p pid with rfl | hne
    · simp
    · rw [update_of_ne hne, ← h.mem]
      exact and_iff_right hne
  · intro p hp
    rw [hpids] at hp
    exact h.lt p (hsub hp)
  · rw [hpids]
    exact h.order.sublist List.erase_sublist
  · intro p hp
    rw [hpids] at hp
    exact h.past p (hsub hp)
  · intro p
    rw [hpids, hin, h.nodup.mem_erase_iff]
    rcases eq_or_ne p pid with rfl | hne
    · simp
    · rw [update_of_ne hne, h.inq]
      exact (and_iff_right hne).symm
  · intro p k' hk'
    rw [hreq]
    rcases eq_or_ne p pid with rfl | hne
    · rw [update_self] at hk'
      cases hk'
    · rw [update_of_ne hne] at hk' ⊢
      exact h.req p k' hk'
  · intro k'
    have hlen := ((List.perm_cons_erase hmem).filter fun p => decide (kind p = some k')).length_eq
    rw [Flock.leave_waiting, h.count, hpids, filter_update h.nodup.not_mem_erase, hlen]
    by_cases hk : k' = k
    · simp [hsome, hk]
    · simp [hsome, hk, Ne.symm hk]

theorem waiting_eq_card (k : LockKind) :
    fl.waiting k = ((Finset.range numIds).filter fun p => kind p = some k).card := by
  have hset : (fl.waitq.pids.filter fun p => kind p = some k).toFinset =
      (Finset.range numIds).filter fun p => kind p = some k := by
    ext p
    rw [List.mem_toFinset, List.mem_filter, Finset.mem_filter, Finset.mem_range, decide_eq_true_eq]
    refine and_congr_left fun hk => ⟨h.lt p, fun _ => ?_⟩
    rw [h.mem, hk, Option.isSome_some]
  rw [h.count, ← hset, List.toFinset_card_of_nodup (h.nodup.filter _)]

theorem length_eq_waiting : (fl.waitq.pids.length : Int) = fl.waiting .sh + fl.waiting .ex := by
  have hrest : (fl.waitq.pids.filter fun p => !decide (kind p = some LockKind.sh)) =
      fl.waitq.pids.filter fun p => kind p = some .ex := by
    refine List.filter_congr fun p hp => ?_
    obtain ⟨k, hk⟩ := Option.isSome_iff_exists.1 ((h.mem p).1 hp)
    rw [hk]
    cases k <;> decide
  rw [h.count, h.count, List.length_eq_length_filter_add fun p =>
    decide (kind p = some LockKind.sh), hrest, Int.natCast_add]

end

end Flock.Mirrors

/-! ## The machine -/

/-- Where a thread stands: outside of the functions of the lock object, or asleep in the wait loop
of `try_acquire_shared` or `try_acquire_exclusive`, or made runnable there by `thread_wakeup`. -/
inductive WaiterPc where
  | out
  | blocked (kind : LockKind) (woken : Bool)
  deriving DecidableEq

/-- The effect of `thread_wakeup(fl)` on one thread. -/
def WaiterPc.wake : WaiterPc → WaiterPc
  | .out => .out
  | .blocked k _ => .blocked k true

/-- The kind of lock a thread waits for. -/
def WaiterPc.kind? : WaiterPc → Option LockKind
  | .out => none
  | .blocked k _ => some k

theorem WaiterPc.kind?_wake : ∀ pc : WaiterPc, pc.wake.kind? = pc.kind?
  | .out => rfl
  | .blocked _ _ => rfl

theorem WaiterPc.isSome_kind? : ∀ {pc : WaiterPc}, pc.kind?.isSome ↔ ∃ k w, pc = .blocked k w
  | .out => by simp [kind?]
  | .blocked _ _ => by simp [kind?]

/-- A lock object in memory with the threads that use it. -/
structure WaitSys where
  flock : FlockT
  thread : Nat → WaiterPc
  /-- History variable: the number of calls of `flock_acquire`. -/
  clock : Nat
  /-- History variable: when each thread last called `flock_acquire`. -/
  since : Nat → Nat

namespace WaitSys

/-- Records how a critical section of `flock_acquire` for a request of kind `k` ended. -/
def settle (s : WaitSys) (pid : Nat) (k : LockKind) : FlockT × Flock.Outcome → WaitSys
  | (fl, .sleep) => { s with flock := fl, thread := update s.thread pid (.blocked k false) }
  | (fl, .ret _) => { s with flock := fl, thread := update s.thread pid .out }

/-- A call of `flock_acquire` by `pid`, up to its return or its first sleep. -/
def acquire (s : WaitSys) (pid : Nat) (operation : BitVec 32) : WaitSys :=
  let s' := { s with clock := s.clock + 1, since := update s.since pid s.clock }
  match kindOf (lockType operation) with
  | some k => s'.settle pid k (s.flock.flockAcquire pid operation)
  | none => { s' with flock := (s.flock.flockAcquire pid operation).1 }

/-- A woken thread takes the spinlock again and tests its wait condition. -/
def resume (s : WaitSys) (pid : Nat) : Option WaitSys :=
  match s.thread pid with
  | .blocked k true => some (s.settle pid k (s.flock.loop pid k))
  | _ => none

/-- A call of `flock_release(fl, lockType)`. -/
def release (s : WaitSys) (lockType : BitVec 32) : WaitSys :=
  let r := s.flock.flockRelease lockType
  { s with flock := r.1, thread := if r.2.1 then fun p => (s.thread p).wake else s.thread }

/-- The threads that are blocked in a request of kind `k`. -/
def waiters (s : WaitSys) (k : LockKind) : Finset Nat :=
  (Finset.range numIds).filter fun p => (s.thread p).kind? = some k

end WaitSys

/-- The calls of the functions of the lock object, and the return of a woken thread to its wait
loop. -/
inductive WaitAction where
  | acquire (pid : Nat) (operation : BitVec 32)
  | resume (pid : Nat)
  | release (pid : Nat) (lockType : BitVec 32)

/-- Threads with process ids below `NUM_IDS` call `flock_acquire` and `flock_release` with any
arguments, in any order and any interleaving of their critical sections. -/
def waitMachine : Machine WaitSys WaitAction where
  Init s := ∃ pids clock since, s = { flock := .init pids, thread := fun _ => .out, clock, since }
  step s
    | .acquire pid operation =>
      if pid < numIds ∧ s.thread pid = .out then some (s.acquire pid operation) else none
    | .resume pid => s.resume pid
    | .release pid lockType =>
      if pid < numIds ∧ s.thread pid = .out then some (s.release lockType) else none

/-! ## What a step keeps -/

/-- The queue in memory and the blocked threads agree. -/
structure WaitSys.Ok (s : WaitSys) : Prop where
  mirrors : s.flock.view.Mirrors (fun p => (s.thread p).kind?) s.since s.clock
  flags : s.flock.waitq.Flags

namespace WaitSys

variable {s t : WaitSys} {pid : Nat} {k : LockKind} {operation : BitVec 32}

theorem kinds_update {thread : Nat → WaiterPc} {pc : WaiterPc} :
    (fun p => (update thread pid pc p).kind?) = update (fun p => (thread p).kind?) pid
    pc.kind? := by
  funext p
  rcases eq_or_ne p pid with rfl | hne
  · rw [update_self, update_self]
  · rw [update_of_ne hne, update_of_ne hne]

theorem not_mem_of_out (h : s.Ok) (hout : s.thread pid = .out) :
    pid ∉ s.flock.view.waitq.pids := by
  rw [h.mirrors.mem, hout]
  exact Bool.false_ne_true

/-- A call that does not wait. -/
theorem Ok.skip (h : s.Ok) (hout : s.thread pid = .out) {fl : FlockT} (hflags : fl.waitq.Flags)
    (hq : fl.view.waitq = s.flock.view.waitq)
    (hw : ∀ k, fl.view.waiting k = s.flock.view.waiting k) :
    Ok { s with flock := fl, clock := s.clock + 1, since := update s.since pid s.clock } where
  mirrors := h.mirrors.congr hq hw
    (fun _ hp => update_of_ne (ne_of_mem_of_not_mem hp (not_mem_of_out h hout)) _ _)
    (Nat.le_succ s.clock)
  flags := hflags

/-- A request keeps the invariant. -/
theorem Ok.acquire (h : s.Ok) (hpid : pid < numIds) (hout : s.thread pid = .out) :
    (s.acquire pid operation).Ok := by
  have hflags : (s.flock.flockAcquire pid operation).1.waitq.Flags :=
    FlockT.flags_flockAcquire h.flags
  have hview := @FlockT.view_flockAcquire s.flock pid operation
  have hsame : update s.thread pid .out = s.thread := update_eq_self_of_eq hout
  rw [WaitSys.acquire]
  split
  · next k hk =>
    rw [Flock.flockAcquire_eq (kindOf_eq_some hk)] at hview
    revert hflags hview
    generalize s.flock.flockAcquire pid operation = r
    intro hflags hview
    obtain ⟨fl, out⟩ := r
    split_ifs at hview with hb hn
    · obtain ⟨hfl, rfl⟩ := Prod.mk.inj hview
      rw [settle, hsame]
      exact h.skip hout hflags (hfl ▸ rfl) fun k => hfl ▸ rfl
    · obtain ⟨hfl, rfl⟩ := Prod.mk.inj hview
      refine ⟨?_, hflags⟩
      have henroll := h.mirrors.enroll (k := k) hpid (congrArg WaiterPc.kind? hout)
      rw [← hfl] at henroll
      rw [settle, kinds_update]
      exact henroll
    · obtain ⟨hfl, rfl⟩ := Prod.mk.inj hview
      rw [settle, hsame]
      refine h.skip hout hflags ?_ fun k' => ?_
      · rw [hfl]
        cases k <;> rfl
      · rw [hfl, Flock.grant_waiting]
  · next hk =>
    have hfl : (s.flock.flockAcquire pid operation).1.view = s.flock.view :=
      (congrArg Prod.fst hview).trans (Flock.flockAcquire_of_kindOf_none hk).1
    exact h.skip hout hflags (hfl ▸ rfl) fun k => hfl ▸ rfl

/-- A woken thread keeps the invariant. -/
theorem Ok.resume (h : s.Ok) (ht : s.resume pid = some t) : t.Ok := by
  rw [WaitSys.resume] at ht
  split at ht
  · next k hpc =>
    have hflags : (s.flock.loop pid k).1.waitq.Flags := FlockT.flags_loop h.flags
    have hview := @FlockT.view_loop s.flock pid k
    rw [Flock.loop_eq] at hview
    cases ht
    revert hflags hview
    generalize s.flock.loop pid k = r
    intro hflags hview
    obtain ⟨fl, out⟩ := r
    split_ifs at hview with hb
    · obtain ⟨hfl, rfl⟩ := Prod.mk.inj hview
      refine ⟨?_, hflags⟩
      have hkinds : update (fun p => (s.thread p).kind?) pid (some k) = fun p =>
          (s.thread p).kind? :=
        update_eq_self_of_eq (congrArg WaiterPc.kind? hpc)
      rw [settle, kinds_update, WaiterPc.kind?, hkinds]
      exact h.mirrors.congr (hfl ▸ rfl) (fun k => hfl ▸ rfl) (fun _ _ => rfl) le_rfl
    · obtain ⟨hfl, rfl⟩ := Prod.mk.inj hview
      refine ⟨?_, hflags⟩
      have hleave := h.mirrors.leave (congrArg WaiterPc.kind? hpc)
      rw [settle, kinds_update]
      refine hleave.congr ?_ (fun k' => ?_) (fun _ _ => rfl) le_rfl
      · rw [hfl]
        cases k <;> rfl
      · rw [hfl, Flock.grant_waiting]
  · cases ht

theorem Ok.release (h : s.Ok) {lockType : BitVec 32} : (s.release lockType).Ok := by
  have hq : (s.flock.flockRelease lockType).1.waitq = s.flock.waitq := FlockT.waitq_flockRelease
  have hview : (s.flock.flockRelease lockType).1.view = (s.flock.view.flockRelease lockType).1 :=
    congrArg Prod.fst FlockT.view_flockRelease
  have hkinds : (fun p => ((s.release lockType).thread p).kind?) = fun p =>
      (s.thread p).kind? := by
    funext p
    rw [WaitSys.release]
    split_ifs
    · exact WaiterPc.kind?_wake (s.thread p)
    · rfl
  refine ⟨?_, ?_⟩
  · rw [hkinds]
    refine h.mirrors.congr (congrArg WaitArray.view hq) (fun k => ?_) (fun _ _ => rfl) le_rfl
    rw [show (s.release lockType).flock.view = _ from hview, Flock.flockRelease_waiting]
  · rw [show (s.release lockType).flock.waitq = _ from hq]
    exact h.flags

theorem ok_of_reachable (h : waitMachine.Reachable s) : s.Ok := by
  refine h.invariant ?_ ?_
  · rintro s ⟨pids, clock, since, rfl⟩
    exact ⟨.init, fun p => .inl rfl⟩
  · intro s a t hs ht
    cases a with
    | acquire pid operation =>
      obtain ⟨⟨hpid, hout⟩, rfl⟩ := of_guard ht
      exact hs.acquire hpid hout
    | resume pid => exact hs.resume ht
    | release pid lockType =>
      obtain ⟨-, rfl⟩ := of_guard ht
      exact hs.release

end WaitSys

/-- The wait queue mirrors the waiters. Reference: `kern/flock/flock.c:7`. -/
theorem waitq_mirrors_waiters {s : WaitSys} (h : waitMachine.Reachable s) :
    let q := toList s.flock.waitq.pids s.flock.waitq.len
    q.Nodup ∧ (∀ p, p ∈ q ↔ ∃ k w, s.thread p = .blocked k w) ∧
      q.Pairwise (fun p p' => s.since p < s.since p') ∧
      (∀ p, s.flock.waitq.inq p = if p ∈ q then 1 else 0) ∧
      (∀ p k w, s.thread p = .blocked k w → s.flock.waitq.req p = k.code.setWidth 8) ∧
      s.flock.waitingShared = (s.waiters .sh).card ∧ s.flock.waitingExclusive =
      (s.waiters .ex).card ∧ (s.flock.waitq.len : Int) =
      s.flock.waitingShared + s.flock.waitingExclusive ∧ s.flock.waitq.len ≤ numIds := by
  obtain ⟨hmirrors, hflags⟩ := WaitSys.ok_of_reachable h
  have hlen : s.flock.view.waitq.pids.length = s.flock.waitq.len := length_toList
  refine ⟨hmirrors.nodup, fun p => (hmirrors.mem p).trans WaiterPc.isSome_kind?, hmirrors.order,
    fun p => ?_, ?_, hmirrors.waiting_eq_card .sh, hmirrors.waiting_eq_card .ex, ?_, ?_⟩
  · have hinq := hmirrors.inq p
    rw [FlockT.view, WaitArray.view, decide_eq_true_eq] at hinq
    split_ifs with hp
    · exact (hflags p).resolve_left (hinq.2 hp)
    · exact not_not.1 fun hne => hp (hinq.1 hne)
  · intro p k w hpc
    exact hmirrors.req p k (congrArg WaiterPc.kind? hpc)
  · rw [← hlen]
    exact hmirrors.length_eq_waiting
  · rw [← hlen]
    exact hmirrors.length_le

/-- A reader holds the lock, a writer and a second reader wait behind it. -/
theorem waitq_mirrors_waiters_writer_then_reader :
    ∃ s, waitMachine.Reachable s ∧ s.flock.waitq.len = 2 ∧ s.flock.waitq.pids 0 = 7 ∧
    s.flock.waitq.pids 1 = 3 ∧
      s.flock.waitq.req 7 = 2 ∧ s.flock.waitq.req 3 = 1 ∧ s.waiters .ex = {7} ∧
      s.waiters .sh = {3} := by
  have h₀ : waitMachine.Reachable
      { flock := .init fun _ => 0, thread := fun _ => .out, clock := 0, since := fun _ => 0 } :=
      .init ⟨_, _, _, rfl⟩
  have h₁ := h₀.step (a := .acquire 5 lockSh) rfl
  have h₂ := h₁.step (a := .acquire 7 lockEx) rfl
  have h₃ := h₂.step (a := .acquire 3 lockSh) rfl
  obtain ⟨-, -, -, -, hreq, -⟩ := waitq_mirrors_waiters h₃
  exact ⟨_, h₃, rfl, rfl, rfl, hreq 7 .ex false rfl, hreq 3 .sh false rfl, by
    decide +kernel, by decide +kernel⟩

end MCertikos
