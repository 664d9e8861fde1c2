import Mathlib.Data.List.Rotate
import MCertikos.Thread.Sched

/-!
# The ready queue

`Sched.ReadyQueue` says that the ready queue is a well-formed list of exactly the ready threads. A
`thread_wakeup` keeps it as long as every thread on the channel is asleep (`Sched.Ok.wakeup`), and
`thread_spawn` as long as the running thread has a child id left (`Sched.Ok.spawn`). Neither is
checked by the functions themselves. The second is checked by `sys_spawn`, the only caller. The
first is not checked at all: a woken thread keeps its channel until it runs again, so that a second
wakeup of the channel enqueues it a second time and cuts the queue
(`ready_thread_lost_by_second_wakeup`).
-/

namespace MCertikos

open Transition LinkedList

/-! ## Ready queues of a pool -/

namespace ThreadPool

variable {pool : ThreadPool} {q : List Nat} {pid : Nat}

/-- The ready queue represents the list `q`, which holds each ready thread once and no other. -/
def Ready (pool : ThreadPool) (q : List Nat) : Prop :=
  pool.Holds numIds q ∧ ∀ pid, pid ∈ q ↔ pid < numIds ∧ (pool.tcb pid).state = .ready

/-- A thread that is not ready is made ready and enqueued. -/
theorem Ready.enqueue (h : pool.Ready q) (hp : pid < numIds) (hs : (pool.tcb pid).state ≠ .ready) :
    ((pool.tcbSetState pid .ready).tqueueEnqueue numIds pid).Ready (q ++ [pid]) := by
  have hq : pid ∉ q := fun hm => hs ((h.2 pid).1 hm).2
  refine ⟨(h.1.tcbSetState _).tqueueEnqueue hq (Nat.ne_of_lt hp), fun p => ?_⟩
  rw [sameThreads_tqueueEnqueue.state, tcbSetState_state, List.mem_append, List.mem_singleton, h.2]
  rcases eq_or_ne p pid with rfl | hne
  · simp [hp]
  · simp [hne]

/-- The first ready thread is dequeued and run. -/
theorem Ready.dequeue (h : pool.Ready (pid :: q)) :
    (pool.tqueueDequeue numIds).2 = pid ∧
      ((pool.tqueueDequeue numIds).1.tcbSetState pid .run).Ready q := by
  obtain ⟨hpid, hq, hsame⟩ := h.1.tqueueDequeue_cons
  refine ⟨hpid, hq.tcbSetState _, fun p => ?_⟩
  have hpq : pid ∉ q := (List.nodup_cons.1 h.1.nodup).1
  rw [tcbSetState_state, hsame.state]
  rcases eq_or_ne p pid with rfl | hne
  · simp [hpq]
  · rw [if_neg hne, ← h.2, List.mem_cons, or_iff_right hne]

/-- A change to a thread that is ready neither before nor after it. -/
theorem Ready.congr {pool' : ThreadPool} (h : pool.Ready q) (hq : pool'.Holds numIds q)
    (hs : ∀ p, (pool'.tcb p).state = .ready ↔ (pool.tcb p).state = .ready) : pool'.Ready q :=
  ⟨hq, fun p => by rw [h.2, hs]⟩

end ThreadPool

namespace Sched

/-- The ready queue is a well-formed doubly linked list that holds each ready thread once and no
other thread. -/
def ReadyQueue (s : Sched) : Prop := ∃ q, s.pool.Ready q

/-- What the running thread must see to it when it takes an action: it spawns its own children
while it has child ids left, as `sys_spawn` checks (`kern/trap/TSyscall/TSyscall.c:133`), and it
wakes up a channel when all threads on that channel are asleep. -/
def Disciplined (s : Sched) : ThreadAction → Prop
  | .spawn id _ => id = s.curid ∧ (s.container id).nchildren < maxChildren
  | .wakeup chan =>
    ∀ pid < numIds, (s.pool.tcb pid).channel = chan → (s.pool.tcb pid).state = .sleep
  | _ => True

/-- The invariant of disciplined runs: besides the ready queue, the current thread is running,
every living thread has its id from its parent's child count, and the dead have no children. -/
structure Ok (s : Sched) : Prop where
  queue : s.ReadyQueue
  cur : s.curid < numIds ∧ (s.pool.tcb s.curid).state = .run
  family : ∀ pid, (s.pool.tcb pid).state ≠ .dead → pid ≠ 0 →
    (pid - 1) % maxChildren < (s.container ((pid - 1) / maxChildren)).nchildren
  barren : ∀ pid, (s.pool.tcb pid).state = .dead → (s.container pid).nchildren = 0

variable {s t : Sched} {quota : BitVec 32} {chan : Nat}

/-! ## The steps -/

/-- A change to the pool that keeps the dead dead and the living alive. -/
theorem Ok.withPool (h : s.Ok) (hq : t.ReadyQueue) (hc : t.container = s.container)
    (hdead : ∀ p, (t.pool.tcb p).state = .dead ↔ (s.pool.tcb p).state = .dead)
    (hcur : t.curid < numIds ∧ (t.pool.tcb t.curid).state = .run) : t.Ok where
  queue := hq
  cur := hcur
  family p hp h0 := by
    rw [hc]
    exact h.family p (fun hd => hp ((hdead p).2 hd)) h0
  barren p hp := by
    rw [hc]
    exact h.barren p ((hdead p).1 hp)

/-- `thread_yield`: the running thread goes to the end of the queue and the first one runs. -/
theorem Ok.yield (h : s.Ok) : s.threadYield.Ok := by
  obtain ⟨q, hq⟩ := h.queue
  obtain ⟨hlt, hrun⟩ := h.cur
  have henq := hq.enqueue hlt (by rw [hrun]; nofun)
  set pool := (s.pool.tcbSetState s.curid .ready).tqueueEnqueue numIds s.curid with hpool
  have hst : ∀ p, (pool.tcb p).state = if p = s.curid then .ready else (s.pool.tcb p).state :=
    fun p => by rw [hpool, ThreadPool.sameThreads_tqueueEnqueue.state,
      ThreadPool.tcbSetState_state]
  obtain ⟨x, q', hxq⟩ : ∃ x q', q ++ [s.curid] = x :: q' := by
    cases q with
    | nil => exact ⟨_, _, rfl⟩
    | cons y q => exact ⟨_, _, rfl⟩
  rw [hxq] at henq
  obtain ⟨hx, hdeq⟩ := henq.dequeue
  obtain ⟨-, -, hsame⟩ := henq.1.tqueueDequeue_cons
  have hxlt : x < numIds ∧ (pool.tcb x).state = .ready := (henq.2 x).1 (.head _)
  have heq : s.threadYield =
      { s with pool := (pool.tqueueDequeue numIds).1.tcbSetState x .run, curid := x } := by
    simp only [threadYield, ← hpool, hx]
  rw [heq]
  refine h.withPool ⟨q', hdeq⟩ rfl (fun p => ?_) ⟨hxlt.1, by simp⟩
  show (((pool.tqueueDequeue numIds).1.tcbSetState x .run).tcb p).state = .dead ↔ _
  rw [ThreadPool.tcbSetState_state, hsame.state]
  split_ifs with hpx
  · subst hpx
    have hp := hxlt.2
    rw [hst] at hp
    split_ifs at hp with hpc
    · subst hpc; simp [hrun]
    · simp [hp]
  · rw [hst]
    split_ifs with hpc
    · subst hpc; simp [hrun]
    · rfl

/-- `thread_sleep`: the running thread leaves and the first ready thread runs. -/
theorem Ok.sleep (h : s.Ok) (hs : s.threadSleep chan = some t) : t.Ok := by
  obtain ⟨q, hq⟩ := h.queue
  obtain ⟨hlt, hrun⟩ := h.cur
  cases q with
  | nil =>
    rw [threadSleep, hq.1.tqueueDequeue_nil] at hs
    cases hs
  | cons x q =>
    obtain ⟨hx, hdeq⟩ := hq.dequeue
    obtain ⟨-, hholds, hsame⟩ := hq.1.tqueueDequeue_cons
    have hxlt : x < numIds ∧ (s.pool.tcb x).state = .ready := (hq.2 x).1 (.head _)
    have hxc : x ≠ s.curid := fun he => by
      rw [he, hrun] at hxlt
      exact absurd hxlt.2 nofun
    set pool := (s.pool.tqueueDequeue numIds).1 with hpool
    have hst : ∀ p, ((((pool.tcbSetChan s.curid chan).tcbSetState s.curid .sleep).tcbSetState x
        .run).tcb p).state =
        if p = x then .run else if p = s.curid then .sleep else (s.pool.tcb p).state := by
      intro p
      rw [ThreadPool.tcbSetState_state, ThreadPool.tcbSetState_state, ThreadPool.tcbSetChan_state,
        hsame.state]
    have ht : t = { s with
        pool := ((pool.tcbSetChan s.curid chan).tcbSetState s.curid .sleep).tcbSetState x .run
        curid := x
        inSleep := Function.update s.inSleep s.curid true } := by
      simp only [threadSleep, hx, ← hpool, if_neg (Nat.ne_of_lt hxlt.1)] at hs
      exact (Option.some.inj hs).symm
    subst ht
    refine h.withPool ⟨q, hdeq.congr ?_ fun p => ?_⟩ rfl (fun p => ?_) ⟨hxlt.1, by simp⟩
    · exact ((hholds.tcbSetChan _).tcbSetState _).tcbSetState _
    · rw [hst, ThreadPool.tcbSetState_state, hsame.state]
      split_ifs with h1 h2
      · rfl
      · subst h2; simp [hrun]
      · rfl
    · show ((((pool.tcbSetChan s.curid chan).tcbSetState s.curid .sleep).tcbSetState x
        .run).tcb p).state = .dead ↔ _
      rw [hst]
      split_ifs with h1 h2
      · subst h1; simp [hxlt.2]
      · subst h2; simp [hrun]
      · rfl

/-- The tidying up of `thread_sleep`. -/
theorem Ok.tidy (h : s.Ok) : s.tidy.Ok := by
  obtain ⟨q, hq⟩ := h.queue
  have hst : ∀ p, (s.tidy.pool.tcb p).state = (s.pool.tcb p).state := fun p =>
    ThreadPool.tcbSetChan_state 0 p
  refine h.withPool ⟨q, hq.congr (hq.1.tcbSetChan 0) fun p => by rw [← hst]⟩ rfl
    (fun p => by rw [hst]) ⟨h.cur.1, ?_⟩
  rw [hst]
  exact h.cur.2

/-- The loop of `thread_wakeup` over threads that are asleep if they are on the channel. -/
theorem ready_foldl_wakeupOne {l : List Nat} (hl : l.Nodup) (hlt : ∀ p ∈ l, p < numIds)
    {pool : ThreadPool} {q : List Nat} (h : pool.Ready q)
    (hsleep : ∀ p ∈ l, (pool.tcb p).channel = chan → (pool.tcb p).state = .sleep) :
    ∃ q', (l.foldl (wakeupOne chan) pool).Ready q' ∧
      ∀ p, ((l.foldl (wakeupOne chan) pool).tcb p).state = (pool.tcb p).state ∨
        (pool.tcb p).state = .sleep ∧ ((l.foldl (wakeupOne chan) pool).tcb p).state = .ready := by
  induction l generalizing pool q with
  | nil => exact ⟨q, h, fun p => .inl rfl⟩
  | cons x l ih =>
    obtain ⟨hxl, hl⟩ := List.nodup_cons.1 hl
    rw [List.foldl_cons]
    by_cases hc : chan = (pool.tcb x).channel
    · have hx : (pool.tcb x).state = .sleep := hsleep x (.head _) hc.symm
      set pool' := (pool.tcbSetState x .ready).tqueueEnqueue numIds x with hpool'
      have hone : wakeupOne chan pool x = pool' := if_pos hc
      have hst : ∀ p, (pool'.tcb p).state = if p = x then .ready else (pool.tcb p).state :=
        fun p => by
        rw [hpool', ThreadPool.sameThreads_tqueueEnqueue.state, ThreadPool.tcbSetState_state]
      have hch : ∀ p, (pool'.tcb p).channel = (pool.tcb p).channel := fun p => by
        rw [hpool', ThreadPool.sameThreads_tqueueEnqueue.channel, ThreadPool.tcbSetState_channel]
      rw [hone]
      obtain ⟨q', hq', hall⟩ := ih hl (fun p hp => hlt p (.tail _ hp))
        (h.enqueue (hlt x (.head _)) (by rw [hx]; nofun)) fun p hp hpc => by
          have hpx : p ≠ x := fun he => hxl (he ▸ hp)
          rw [hst, if_neg hpx]
          exact hsleep p (.tail _ hp) (by rw [← hch]; exact hpc)
      refine ⟨q', hq', fun p => ?_⟩
      rcases eq_or_ne p x with rfl | hpx
      · -- once ready, a thread stays ready in the rest of the loop
        rcases hall p with hp | ⟨hp, -⟩
        · exact .inr ⟨hx, by rw [hp, hst, if_pos rfl]⟩
        · rw [hst, if_pos rfl] at hp
          cases hp
      · have hp := hall p
        rwa [← hpool', hst, if_neg hpx] at hp
    · rw [show wakeupOne chan pool x = pool from if_neg hc]
      exact ih hl (fun p hp => hlt p (.tail _ hp)) h fun p hp => hsleep p (.tail _ hp)

/-- `thread_wakeup` of a channel on which all threads are asleep. -/
theorem Ok.wakeup (h : s.Ok)
    (hsleep : ∀ pid < numIds, (s.pool.tcb pid).channel = chan → (s.pool.tcb pid).state = .sleep) :
    (s.threadWakeup chan).Ok := by
  obtain ⟨q, hq⟩ := h.queue
  have hrange : ∀ p ∈ List.range numIds, (s.pool.tcb p).channel = chan →
      (s.pool.tcb p).state = .sleep := fun p hp => hsleep p (List.mem_range.1 hp)
  obtain ⟨q', hq', hall⟩ := ready_foldl_wakeupOne List.nodup_range
    (fun p hp => List.mem_range.1 hp) hq hrange
  refine h.withPool ⟨q', hq'⟩ rfl (fun p => ?_) ⟨h.cur.1, ?_⟩
  · rcases hall p with hp | ⟨hp, hp'⟩
    · show (((List.range numIds).foldl (wakeupOne chan) s.pool).tcb p).state = .dead ↔ _
      rw [hp]
    · show (((List.range numIds).foldl (wakeupOne chan) s.pool).tcb p).state = .dead ↔ _
      simp [hp, hp']
  · rcases hall s.curid with hp | ⟨hp, -⟩
    · exact hp.trans h.cur.2
    · rw [h.cur.2] at hp
      cases hp

/-- `thread_spawn` by the running thread with a child id left. -/
theorem Ok.spawn (h : s.Ok) (hn : (s.container s.curid).nchildren < maxChildren) :
    (s.threadSpawn s.curid quota).1.Ok := by
  obtain ⟨q, hq⟩ := h.queue
  obtain ⟨hlt, hrun⟩ := h.cur
  set child := s.curid * maxChildren + 1 + (s.container s.curid).nchildren with hchild
  by_cases hcc : containerCanConsume s.container s.curid quota = true
  swap
  · have : s.threadSpawn s.curid quota = (s, numIds) := by simp [threadSpawn, kctxNew, hcc]
    rwa [this]
  by_cases hfull : numIds ≤ child
  · have : s.threadSpawn s.curid quota = (s, numIds) := by
      simp [threadSpawn, kctxNew, hcc, containerSplit, ← hchild, hfull]
    rwa [this]
  have hne : child ≠ s.curid := by
    simp only [maxChildren] at hchild
    omega
  have hslot : (child - 1) / maxChildren = s.curid ∧
      (child - 1) % maxChildren = (s.container s.curid).nchildren := by
    simp only [maxChildren] at hchild hn ⊢
    omega
  have hdead : (s.pool.tcb child).state = .dead := by
    by_contra hd
    have := h.family child hd (by omega)
    rw [hslot.1, hslot.2] at this
    omega
  have hpool : (s.threadSpawn s.curid quota).1.pool =
      (s.pool.tcbSetState child .ready).tqueueEnqueue numIds child := by
    have : child ≠ numIds := by omega
    simp [threadSpawn, kctxNew, hcc, containerSplit, ← hchild, hfull, this]
  have hcur : (s.threadSpawn s.curid quota).1.curid = s.curid := by
    simp only [threadSpawn, kctxNew]
    split_ifs <;> rfl
  have hch : ∀ p, ((s.threadSpawn s.curid quota).1.container p).nchildren =
      if p = s.curid then (s.container s.curid).nchildren + 1 else (s.container p).nchildren := by
    intro p
    have hnum : child ≠ numIds := by omega
    have h0 := h.barren child hdead
    simp only [threadSpawn, kctxNew, hcc, if_true, containerSplit, ← hchild, if_neg hfull, ne_eq,
      hnum, not_false_eq_true, Function.update_apply, if_neg hne.symm]
    split_ifs with h1 h2
    · rfl
    · rw [h2, h0]
    · rfl
  have hst : ∀ p, ((s.threadSpawn s.curid quota).1.pool.tcb p).state =
      if p = child then .ready else (s.pool.tcb p).state := fun p => by
    rw [hpool, ThreadPool.sameThreads_tqueueEnqueue.state, ThreadPool.tcbSetState_state]
  refine ⟨⟨q ++ [child], ?_⟩, ?_, fun p hp h0 => ?_, fun p hp => ?_⟩
  · rw [hpool]
    exact hq.enqueue (by omega) (by rw [hdead]; nofun)
  · rw [hcur, hst, if_neg hne.symm]
    exact ⟨hlt, hrun⟩
  · rw [hst] at hp
    rw [hch]
    split_ifs at hp with hpc
    · subst hpc
      rw [hslot.1, hslot.2, if_pos rfl]
      exact Nat.lt_succ_self _
    · have := h.family p hp h0
      split_ifs with hpar
      · rw [hpar] at this
        omega
      · exact this
  · rw [hst] at hp
    split_ifs at hp with hpc
    rw [hch, if_neg fun he => by rw [he, hrun] at hp; cases hp]
    exact h.barren p hp

/-! ## Whole runs -/

/-- The thread pool after boot. -/
def bootPool : ThreadPool :=
  ((((threadInit 0).pool.tcbSetState 1 .ready).tqueueEnqueue numIds 1).tqueueRemove numIds
    1).tcbSetState 1 .run

/-- Boot creates thread 1 as the only child of thread 0. -/
theorem boot_eq {realQuota : BitVec 32} (hq : 10000 ≤ realQuota) :
    boot realQuota =
      { pool := bootPool
        curid := 1
        container := (containerSplit (containerInit realQuota) 0 10000).1
        inSleep := fun _ => false } := by
  have hcc : containerCanConsume (containerInit realQuota) 0 10000 = true := by
    simpa [containerCanConsume, containerInit] using hq
  have hchild : (containerSplit (containerInit realQuota) 0 10000).2 = 1 := rfl
  have hkctx : (threadInit realQuota).kctxNew 0 10000 =
      ({ threadInit realQuota with
        container := (containerSplit (containerInit realQuota) 0 10000).1 }, 1) := by
    rw [kctxNew, show (threadInit realQuota).container = containerInit
      realQuota from rfl, if_pos hcc, hchild]
  simp only [boot, kernMain, show (threadInit realQuota).curid = 0 from rfl, threadSpawn, hkctx]
  rfl

/-- Threads 0 and 1 are running after boot and all others are dead. -/
theorem bootPool_state (p : Nat) :
    (bootPool.tcb p).state = if p = 1 then .run else if p = 0 then .run else .dead := by
  rw [bootPool, ThreadPool.tcbSetState_state]
  split_ifs with h1 h0
  · rfl
  · subst h0; rfl
  · simp [ThreadPool.tqueueRemove, ThreadPool.tqueueEnqueue, threadInit, ThreadPool.tqueueInit,
      ThreadPool.tcbSetState, ThreadPool.tcbSetPrev, ThreadPool.tcbSetNext,
      ThreadPool.tqueueSetHead, ThreadPool.tqueueSetTail, h1, h0]

/-- The invariant holds after the boot. -/
theorem ok_boot {realQuota : BitVec 32} (hq : 10000 ≤ realQuota) : (boot realQuota).Ok := by
  rw [boot_eq hq]
  have hn : ∀ p, ((containerSplit (containerInit realQuota) 0 10000).1 p).nchildren =
      if p = 0 then 1 else 0 := by
    intro p
    rcases eq_or_ne p 0 with rfl | h0
    · rfl
    · rcases eq_or_ne p 1 with rfl | h1
      · rfl
      · simp [containerSplit, containerInit, numIds, maxChildren, h0, h1]
  refine ⟨⟨[], .empty, fun p => ?_⟩, ⟨Nat.lt_of_sub_eq_succ rfl, rfl⟩, fun p hp h0 => ?_,
    fun p hp => ?_⟩
  · show p ∈ [] ↔ p < numIds ∧ (bootPool.tcb p).state = .ready
    rw [bootPool_state]
    split_ifs <;> simp
  · have hp1 : p = 1 := by
      change (bootPool.tcb p).state ≠ .dead at hp
      rw [bootPool_state] at hp
      by_contra h1
      simp [h1, h0] at hp
    subst hp1
    show 0 < ((containerSplit (containerInit realQuota) 0 10000).1 0).nchildren
    rw [hn]
    decide
  · change (bootPool.tcb p).state = .dead at hp
    rw [bootPool_state] at hp
    show ((containerSplit (containerInit realQuota) 0 10000).1 p).nchildren = 0
    rw [hn, if_neg]
    rintro rfl
    simp at hp

/-- A disciplined step keeps the invariant. -/
theorem Ok.step {a : ThreadAction} (h : s.Ok) (ha : s.Disciplined a)
    (hs : threadMachine.step s a = some t) : t.Ok := by
  cases a with
  | spawn id quota =>
    obtain ⟨rfl, hn⟩ := ha
    simp only [threadMachine] at hs
    split_ifs at hs with hg
    obtain rfl := Option.some.inj hs
    exact h.spawn hn
  | yield =>
    obtain rfl := Option.some.inj hs
    exact h.yield
  | sleep chan =>
    simp only [threadMachine] at hs
    split_ifs at hs with hg
    exact h.sleep hs
  | tidy =>
    simp only [threadMachine] at hs
    split_ifs at hs with hg
    obtain rfl := Option.some.inj hs
    exact h.tidy
  | wakeup chan =>
    obtain rfl := Option.some.inj hs
    exact h.wakeup ha

end Sched

/-- In every run from boot in which the running thread spawns only while it has child ids left and
wakes up only channels whose threads are all asleep, the ready queue is well formed and holds each
ready thread exactly once and no other thread. -/
theorem ready_queue_of_disciplined {realQuota : BitVec 32} {s : Sched} (hq : 10000 ≤ realQuota)
    (h : threadMachine.Runs Sched.Disciplined (Sched.boot realQuota) s) : s.ReadyQueue :=
  (h.invariant (fun _ _ _ ht ha hu => Sched.Ok.step ht ha hu) (Sched.ok_boot hq)).queue

/-- Thread 1 spawns a child, sleeps, and is woken up by it. -/
theorem ready_queue_of_disciplined_one_wakeup :
    ∃ s, threadMachine.Runs Sched.Disciplined (Sched.boot 20000) s ∧
      (s.pool.tcb 1).state = .ready ∧ s.ReadyQueue := by
  have h₀ : threadMachine.Runs Sched.Disciplined (Sched.boot 20000) (Sched.boot 20000) := .refl
  have h₁ := h₀.tail (a := ThreadAction.spawn 1 100) ⟨rfl, by decide⟩ rfl
  have h₂ := h₁.tail (a := ThreadAction.sleep 4096) trivial rfl
  have h₃ := h₂.tail (a := ThreadAction.wakeup 4096)
    (by unfold Sched.Disciplined; decide +kernel) rfl
  exact ⟨_, h₃, by decide +kernel, ready_queue_of_disciplined (by decide) h₃⟩

/-- Thread 1 spawns threads 4 and 5 and sleeps. Thread 4 wakes it up and yields, and thread 5 wakes
it up again before it has run: thread 1 is enqueued a second time, and thread 4, which is ready, is
no longer in the queue. -/
theorem ready_thread_lost_by_second_wakeup :
    ∃ s, threadMachine.Reachable s ∧ (s.pool.tcb 4).state = .ready ∧ ¬ s.ReadyQueue := by
  have hrun : (threadMachine.replay (Sched.boot 20000)
      [.spawn 1 100, .spawn 1 100, .sleep 4096, .wakeup 4096, .yield, .wakeup 4096]).map
      (fun s => ((s.pool.tqueue numIds).head, (s.pool.tcb 1).next, (s.pool.tcb 4).state)) =
      some (1, numIds, .ready) := by decide +kernel
  obtain ⟨s, hs, hobs⟩ := Option.map_eq_some_iff.1 hrun
  simp only [Prod.mk.injEq] at hobs
  obtain ⟨hhead, hnext, hready⟩ := hobs
  refine ⟨s, (Machine.Runs.of_replay hs).reachable (.init ⟨20000, by decide, rfl⟩), hready, ?_⟩
  rintro ⟨q, hq, hmem⟩
  have h4 : 4 ∈ q := (hmem 4).2 ⟨by decide, hready⟩
  -- the forward chain ends at its head
  cases q with
  | nil => cases h4
  | cons x q =>
    obtain rfl : x = 1 := hq.head.symm.trans hhead
    have hxn : (s.pool.tcb 1).next = q.headD numIds := hq.links.2.1
    rw [hnext] at hxn
    cases q with
    | nil => simp at h4
    | cons y q => exact absurd (.tail _ (hxn ▸ .head _)) hq.proper

/-! ## Round robin -/

namespace Sched

variable {s : Sched} {q : List Nat}

theorem Ok.yield_rotate (h : s.Ok) (hq : s.pool.Ready q) :
    ∃ q', s.threadYield.pool.Ready q' ∧ s.threadYield.curid :: q' = (s.curid :: q).rotate 1 := by
  have henq := hq.enqueue h.cur.1 (by rw [h.cur.2]; nofun)
  rw [List.rotate_cons_succ, List.rotate_zero]
  cases hx : q ++ [s.curid] with
  | nil => simp at hx
  | cons x q' =>
    rw [hx] at henq
    obtain ⟨hnew, hdeq⟩ := henq.dequeue
    simp only [threadYield, hnew]
    exact ⟨q', hdeq, rfl⟩

end Sched

/-- Threads that only yield run in turn: after a disciplined run from the boot, `n` calls of
`thread_yield` rotate the list of the running thread and the ready ones by `n`, so that each of
them runs once in as many calls as they are. Reference: `thread_yield`
(`kern/thread/PThread/PThread.c:59`). -/
theorem yield_round_robin {realQuota : BitVec 32} {s : Sched} {q : List Nat}
    (hquota : 10000 ≤ realQuota)
    (h : threadMachine.Runs Sched.Disciplined (Sched.boot realQuota) s)
    (hq : s.pool.Ready q) (n : Nat) :
    ∃ q', (Sched.threadYield^[n] s).pool.Ready q' ∧
      (Sched.threadYield^[n] s).curid :: q' = (s.curid :: q).rotate n := by
  have hok := h.invariant (fun _ _ _ ht ha hu => Sched.Ok.step ht ha hu) (Sched.ok_boot hquota)
  induction n generalizing s q with
  | zero => exact ⟨q, hq, (List.rotate_zero _).symm⟩
  | succ n ih =>
    obtain ⟨q', hq', heq⟩ := hok.yield_rotate hq
    obtain ⟨q'', hq'', heq'⟩ := ih (h.tail (a := ThreadAction.yield) trivial rfl) hq' hok.yield
    rw [heq, List.rotate_rotate, Nat.add_comm] at heq'
    exact ⟨q'', hq'', heq'⟩

/-- Thread 1 spawns thread 4, and both yield. -/
theorem yield_round_robin_two :
    ∃ s q q', threadMachine.Runs Sched.Disciplined (Sched.boot 20000) s ∧ 4 ∈ q ∧
    (Sched.threadYield^[2] s).curid :: q' = (s.curid :: q).rotate 2 := by
  have h₀ : threadMachine.Runs Sched.Disciplined (Sched.boot 20000) (Sched.boot 20000) := .refl
  have h := h₀.tail (a := ThreadAction.spawn 1 100) ⟨rfl, by decide⟩ rfl
  obtain ⟨q, hq⟩ := ((Sched.ok_boot (by decide)).spawn (s := Sched.boot 20000) (by decide)).queue
  obtain ⟨q', -, heq⟩ := yield_round_robin (by decide) h hq 2
  exact ⟨_, q, q', h, (hq.2 4).2 (by decide +kernel), heq⟩

end MCertikos
