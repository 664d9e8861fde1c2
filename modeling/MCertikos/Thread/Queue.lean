import MCertikos.Lib.LinkedList
import MCertikos.Lib.Transition

/-!
# Thread control blocks and thread queues

The pool of thread control blocks (`kern/thread/PTCBIntro`) and the thread queues threaded through
it (`kern/thread/PTQueueIntro`, `kern/thread/PTQueueInit`). The index `NUM_IDS` stands for no
thread. Arrays are functions on indices; the kernel indexes them with thread ids below `NUM_IDS`
only. Of `struct TCB` the fields that the thread code reads and writes are modelled.

`ThreadPool.Holds` says that a queue represents a list of thread ids; the lemmas after it are the
specifications of `tqueue_enqueue`, `tqueue_dequeue` and `tqueue_remove` for that queue. All queues
share the links of the threads. `ThreadPool.Touches` says which threads an operation relinks, and
`queues_refine_lists` that the operations are those of lists on the whole pool.
-/

namespace MCertikos

open LinkedList Function

/-- Number of thread ids. Reference: `NUM_IDS` (`kern/lib/x86.h:109`). -/
def numIds : Nat := 64

/-- Reference: `NUM_CPUS` (`kern/lib/x86.h:108`). -/
def numCpus : Nat := 8

/-- Reference: `t_state` (`kern/lib/thread.h:8`). -/
inductive TState where
  | ready
  | run
  | sleep
  | dead
  deriving DecidableEq, Repr

/-- A thread control block. Channels are addresses, with 0 for `NULL`. Reference: `struct TCB`
(`kern/thread/PTCBIntro/PTCBIntro.c:22`). -/
structure TCB where
  state : TState
  prev : Nat
  next : Nat
  channel : Nat

/-- Reference: `struct TQueue` (`kern/thread/PTQueueIntro/PTQueueIntro.c:12`). -/
structure TQueue where
  head : Nat
  tail : Nat

/-- The thread control blocks and the thread queues. Reference: `TCBPool`
(`kern/thread/PTCBIntro/PTCBIntro.c:32`), `TQueuePool`
(`kern/thread/PTQueueIntro/PTQueueIntro.c:31`). -/
structure ThreadPool where
  tcb : Nat → TCB
  tqueue : Nat → TQueue

namespace ThreadPool

variable (s : ThreadPool) (chid pid : Nat)

/-- Reference: `tcb_set_state` (`kern/thread/PTCBIntro/PTCBIntro.c:39`). -/
def tcbSetState (state : TState) : ThreadPool :=
  { s with tcb := update s.tcb pid { s.tcb pid with state } }

/-- Reference: `tcb_set_prev` (`kern/thread/PTCBIntro/PTCBIntro.c:59`). -/
def tcbSetPrev (prev : Nat) : ThreadPool :=
  { s with tcb := update s.tcb pid { s.tcb pid with prev } }

/-- Reference: `tcb_set_next` (`kern/thread/PTCBIntro/PTCBIntro.c:69`). -/
def tcbSetNext (next : Nat) : ThreadPool :=
  { s with tcb := update s.tcb pid { s.tcb pid with next } }

/-- Reference: `tcb_set_chan` (`kern/thread/PTCBIntro/PTCBIntro.c:90`). -/
def tcbSetChan (channel : Nat) : ThreadPool :=
  { s with tcb := update s.tcb pid { s.tcb pid with channel } }

/-- Reference: `tqueue_set_head` (`kern/thread/PTQueueIntro/PTQueueIntro.c:38`). -/
def tqueueSetHead (head : Nat) : ThreadPool :=
  { s with tqueue := update s.tqueue chid { s.tqueue chid with head } }

/-- Reference: `tqueue_set_tail` (`kern/thread/PTQueueIntro/PTQueueIntro.c:48`). -/
def tqueueSetTail (tail : Nat) : ThreadPool :=
  { s with tqueue := update s.tqueue chid { s.tqueue chid with tail } }

/-- The pool after initialisation: every thread is dead and every queue empty. Reference:
`tcb_init_at_id` (`kern/thread/PTCBIntro/PTCBIntro.c:74`), `tqueue_init_at_id`
(`kern/thread/PTQueueIntro/PTQueueIntro.c:53`), `tqueue_init`
(`kern/thread/PTQueueInit/PTQueueInit.c:8`). -/
def tqueueInit : ThreadPool where
  tcb _ := { state := .dead, prev := numIds, next := numIds, channel := 0 }
  tqueue _ := { head := numIds, tail := numIds }

/-- Reference: `tqueue_enqueue` (`kern/thread/PTQueueInit/PTQueueInit.c:26`). -/
def tqueueEnqueue : ThreadPool :=
  let tail := (s.tqueue chid).tail
  if tail = numIds then
    (((s.tcbSetPrev pid numIds).tcbSetNext pid numIds).tqueueSetHead chid pid).tqueueSetTail chid
      pid
  else
    (((s.tcbSetNext tail pid).tcbSetPrev pid tail).tcbSetNext pid numIds).tqueueSetTail chid pid

/-- Reference: `tqueue_dequeue` (`kern/thread/PTQueueInit/PTQueueInit.c:48`). -/
def tqueueDequeue : ThreadPool × Nat :=
  let head := (s.tqueue chid).head
  if head ≠ numIds then
    let next := (s.tcb head).next
    let s' :=
      if next = numIds then (s.tqueueSetHead chid numIds).tqueueSetTail chid numIds
      else (s.tcbSetPrev next numIds).tqueueSetHead chid next
    ((s'.tcbSetPrev head numIds).tcbSetNext head numIds, head)
  else (s, numIds)

/-- Reference: `tqueue_remove` (`kern/thread/PTQueueInit/PTQueueInit.c:76`). -/
def tqueueRemove : ThreadPool :=
  let prev := (s.tcb pid).prev
  let next := (s.tcb pid).next
  let s' :=
    if prev = numIds then
      if next = numIds then (s.tqueueSetHead chid numIds).tqueueSetTail chid numIds
      else (s.tcbSetPrev next numIds).tqueueSetHead chid next
    else if next = numIds then (s.tcbSetNext prev numIds).tqueueSetTail chid prev
    else (if prev ≠ next then s.tcbSetNext prev next else s).tcbSetPrev next prev
  (s'.tcbSetPrev pid numIds).tcbSetNext pid numIds

/-! ## What a queue represents -/

/-- The queue `chid` represents the list `q` of thread ids. -/
def Holds (q : List Nat) : Prop :=
  Represents numIds (fun p => (s.tcb p).next) (fun p => (s.tcb p).prev) (s.tqueue chid).head
    (s.tqueue chid).tail q

section
variable {s chid pid} {t : ThreadPool} {q : List Nat} {Q : Nat → List Nat}

/-- A queue represents the same list after a step that leaves alone its ends and the links of its
threads. -/
theorem Holds.congr (h : s.Holds chid q) (hq : t.tqueue chid = s.tqueue chid)
    (hn : ∀ p ∈ q, (t.tcb p).next = (s.tcb p).next)
    (hp : ∀ p ∈ q, (t.tcb p).prev = (s.tcb p).prev) :
    t.Holds chid q := by
  unfold Holds
  rw [hq]
  exact Represents.congr h hn hp

/-- A step leaves alone the states and the channels of all threads. -/
structure SameThreads (s t : ThreadPool) : Prop where
  state : ∀ p, (t.tcb p).state = (s.tcb p).state
  channel : ∀ p, (t.tcb p).channel = (s.tcb p).channel

/-- A field that an update writes back unchanged is unchanged everywhere. -/
theorem proj_update {α : Type*} {f : Nat → TCB} {i : Nat} {v : TCB} (π : TCB → α)
    (h : π v = π (f i)) (p : Nat) : π (update f i v p) = π (f p) := by
  rcases eq_or_ne p i with rfl | hp
  · rw [update_self, h]
  · rw [update_of_ne hp]

theorem SameThreads.trans {u : ThreadPool} (h₁ : SameThreads s t) (h₂ : SameThreads t u) :
    SameThreads s u :=
  ⟨fun p => (h₂.state p).trans (h₁.state p), fun p => (h₂.channel p).trans (h₁.channel p)⟩

theorem sameThreads_tcbSetPrev (v : Nat) : SameThreads s (s.tcbSetPrev pid v) :=
  ⟨proj_update TCB.state (by rfl), proj_update TCB.channel (by rfl)⟩

theorem sameThreads_tcbSetNext (v : Nat) : SameThreads s (s.tcbSetNext pid v) :=
  ⟨proj_update TCB.state (by rfl), proj_update TCB.channel (by rfl)⟩

theorem sameThreads_tqueueSetHead (v : Nat) : SameThreads s (s.tqueueSetHead chid v) :=
  ⟨fun _ => rfl, fun _ => rfl⟩

theorem sameThreads_tqueueSetTail (v : Nat) : SameThreads s (s.tqueueSetTail chid v) :=
  ⟨fun _ => rfl, fun _ => rfl⟩

@[simp] theorem tcbSetState_state (st : TState) (p : Nat) :
    ((s.tcbSetState pid st).tcb p).state = if p = pid then st else (s.tcb p).state := by
  rcases eq_or_ne p pid with rfl | hp
  · simp [tcbSetState]
  · simp [tcbSetState, hp]

@[simp] theorem tcbSetState_channel (st : TState) (p : Nat) :
    ((s.tcbSetState pid st).tcb p).channel = (s.tcb p).channel :=
  proj_update TCB.channel (by rfl) p

@[simp] theorem tcbSetChan_state (c p : Nat) :
    ((s.tcbSetChan pid c).tcb p).state = (s.tcb p).state :=
  proj_update TCB.state (by rfl) p

theorem Holds.tcbSetState (h : s.Holds chid q) (st : TState) :
    (s.tcbSetState pid st).Holds chid q :=
  h.congr rfl (fun p _ => proj_update TCB.next (by rfl) p) fun p _ =>
    proj_update TCB.prev (by rfl) p

theorem Holds.tcbSetChan (h : s.Holds chid q) (c : Nat) : (s.tcbSetChan pid c).Holds chid q :=
  h.congr rfl (fun p _ => proj_update TCB.next (by rfl) p) fun p _ =>
    proj_update TCB.prev (by rfl) p

/-! ## Enqueue -/

/-- The `next` links after `tqueue_enqueue`. -/
theorem tqueueEnqueue_next : (fun p => ((s.tqueueEnqueue chid pid).tcb p).next) =
    update
      (if (s.tqueue chid).tail = numIds then fun p => (s.tcb p).next
        else update (fun p => (s.tcb p).next) (s.tqueue chid).tail pid) pid numIds := by
  funext p
  simp only [tqueueEnqueue]
  split_ifs with ht <;>
    simp only [tqueueSetHead, tqueueSetTail, tcbSetNext, tcbSetPrev, update_apply] <;>
    split_ifs <;> simp_all

/-- The `prev` links after `tqueue_enqueue`. -/
theorem tqueueEnqueue_prev : (fun p => ((s.tqueueEnqueue chid pid).tcb p).prev) =
    update (fun p => (s.tcb p).prev) pid (s.tqueue chid).tail := by
  funext p
  simp only [tqueueEnqueue]
  split_ifs with ht <;>
    simp only [tqueueSetHead, tqueueSetTail, tcbSetNext, tcbSetPrev, update_apply] <;>
    split_ifs <;> simp_all

/-- `tqueue_enqueue` of a thread that is not in the queue appends it. -/
theorem Holds.tqueueEnqueue (h : s.Holds chid q) (hq : pid ∉ q) (hp : pid ≠ numIds) :
    (s.tqueueEnqueue chid pid).Holds chid (q ++ [pid]) := by
  have hends : ((s.tqueueEnqueue chid pid).tqueue chid).head =
        (if (s.tqueue chid).tail = numIds then pid else (s.tqueue chid).head) ∧
      ((s.tqueueEnqueue chid pid).tqueue chid).tail = pid := by
    simp only [ThreadPool.tqueueEnqueue]
    split_ifs <;> simp [tqueueSetHead, tqueueSetTail, tcbSetNext, tcbSetPrev]
  unfold Holds
  rw [tqueueEnqueue_next, tqueueEnqueue_prev, hends.1, hends.2]
  exact Represents.append h hq hp

theorem sameThreads_tqueueEnqueue : SameThreads s (s.tqueueEnqueue chid pid) := by
  simp only [tqueueEnqueue]
  split_ifs
  · exact (((sameThreads_tcbSetPrev _).trans (sameThreads_tcbSetNext _)).trans
      (sameThreads_tqueueSetHead _)).trans (sameThreads_tqueueSetTail _)
  · exact (((sameThreads_tcbSetNext _).trans (sameThreads_tcbSetPrev _)).trans
      (sameThreads_tcbSetNext _)).trans (sameThreads_tqueueSetTail _)

/-! ## Remove -/

/-- The links after `tqueue_remove`. The code does not link a thread to itself; in a list without
duplicates this case does not arise. -/
theorem tqueueRemove_links (chid : Nat)
    (h : (s.tcb pid).prev = numIds ∨ (s.tcb pid).prev ≠ (s.tcb pid).next) :
    (fun p => ((s.tqueueRemove chid pid).tcb p).next) =
      update
        (if (s.tcb pid).prev = numIds then fun p => (s.tcb p).next
          else update (fun p => (s.tcb p).next) (s.tcb pid).prev (s.tcb pid).next) pid numIds ∧
    (fun p => ((s.tqueueRemove chid pid).tcb p).prev) =
      update
        (if (s.tcb pid).next = numIds then fun p => (s.tcb p).prev
          else update (fun p => (s.tcb p).prev) (s.tcb pid).next (s.tcb pid).prev) pid
        numIds := by
  constructor <;>
  · funext p
    simp only [tqueueRemove]
    split_ifs <;>
      simp only [tqueueSetHead, tqueueSetTail, tcbSetNext, tcbSetPrev, update_apply] <;>
      grind

/-- The ends of the queue after `tqueue_remove`. -/
theorem tqueueRemove_ends (s : ThreadPool) (chid pid : Nat) :
    ((s.tqueueRemove chid pid).tqueue chid).head =
        (if (s.tcb pid).prev = numIds then (s.tcb pid).next else (s.tqueue chid).head) ∧
      ((s.tqueueRemove chid pid).tqueue chid).tail =
        if (s.tcb pid).next = numIds then (s.tcb pid).prev else (s.tqueue chid).tail := by
  simp only [tqueueRemove]
  split_ifs <;> simp_all [tqueueSetHead, tqueueSetTail, tcbSetNext, tcbSetPrev]

theorem tqueueRemove_self : ((s.tqueueRemove chid pid).tcb pid).prev = numIds ∧
    ((s.tqueueRemove chid pid).tcb pid).next = numIds := by
  simp only [tqueueRemove, tcbSetNext, tcbSetPrev, update_self, and_self]

/-- `tqueue_remove` takes a thread out of the list, wherever it stands. -/
theorem Holds.tqueueRemove {l₁ l₂ : List Nat} (h : s.Holds chid (l₁ ++ pid :: l₂)) :
    (s.tqueueRemove chid pid).Holds chid (l₁ ++ l₂) := by
  have hnot : pid ∉ l₁ ++ l₂ := (List.nodup_middle.1 h.nodup).notMem
  have hne : (s.tcb pid).prev = numIds ∨ (s.tcb pid).prev ≠ (s.tcb pid).next := by
    obtain ⟨hprev, hnext⟩ := h.links.neighbours
    refine or_iff_not_imp_left.2 fun hp he => ?_
    have hmem₁ : (s.tcb pid).prev ∈ l₁ := by
      rcases List.eq_nil_or_concat' l₁ with rfl | ⟨l, y, rfl⟩
      · exact absurd hprev hp
      · rw [List.getLastD_concat] at hprev
        rw [hprev]
        exact List.mem_append_right _ (.head _)
    have hmem₂ : (s.tcb pid).next ∈ l₂ := by
      cases l₂ with
      | nil => exact absurd (he.trans hnext) hp
      | cons y l => exact hnext ▸ .head _
    have hdisj := (List.nodup_append.1 h.nodup).2.2 _ hmem₁ _ (.tail _ hmem₂)
    exact hdisj he
  obtain ⟨hlinks, hlinks'⟩ := tqueueRemove_links chid hne
  obtain ⟨hhead, htail⟩ := tqueueRemove_ends s chid pid
  unfold Holds
  rw [hlinks, hlinks', hhead, htail]
  refine Represents.congr (Represents.remove h) (fun y hy => ?_) fun y hy => ?_ <;>
    exact update_of_ne (ne_of_mem_of_not_mem hy hnot) _ _

theorem sameThreads_tqueueRemove : SameThreads s (s.tqueueRemove chid pid) := by
  simp only [tqueueRemove]
  refine SameThreads.trans ?_ ((sameThreads_tcbSetPrev _).trans (sameThreads_tcbSetNext _))
  split_ifs
  · exact (sameThreads_tqueueSetHead _).trans (sameThreads_tqueueSetTail _)
  · exact (sameThreads_tcbSetPrev _).trans (sameThreads_tqueueSetHead _)
  · exact (sameThreads_tcbSetNext _).trans (sameThreads_tqueueSetTail _)
  · exact (sameThreads_tcbSetNext _).trans (sameThreads_tcbSetPrev _)
  · exact sameThreads_tcbSetPrev _

/-! ## Dequeue -/

/-- `tqueue_dequeue` of an empty queue changes nothing. -/
theorem Holds.tqueueDequeue_nil (h : s.Holds chid []) : s.tqueueDequeue chid = (s, numIds) := by
  have hh : (s.tqueue chid).head = numIds := h.head
  simp [ThreadPool.tqueueDequeue, hh]

/-- Taking off the first thread is removing it. -/
theorem Holds.tqueueDequeue_eq_remove (h : s.Holds chid (pid :: q)) :
    s.tqueueDequeue chid = (s.tqueueRemove chid pid, pid) := by
  have hhead : (s.tqueue chid).head = pid := h.head
  have hprev : (s.tcb pid).prev = numIds := h.links.1
  have hp : pid ≠ numIds := fun he => h.proper (he ▸ .head _)
  simp only [ThreadPool.tqueueDequeue, ThreadPool.tqueueRemove, hhead, hprev, if_pos hp, if_true]

/-- `tqueue_dequeue` takes off the first thread. -/
theorem Holds.tqueueDequeue_cons (h : s.Holds chid (pid :: q)) :
    (s.tqueueDequeue chid).2 = pid ∧ (s.tqueueDequeue chid).1.Holds chid q ∧
      SameThreads s (s.tqueueDequeue chid).1 := by
  rw [h.tqueueDequeue_eq_remove]
  have hnil : s.Holds chid ([] ++ pid :: q) := h
  exact ⟨rfl, hnil.tqueueRemove, sameThreads_tqueueRemove⟩

/-! ## The pool of queues -/

/-- A step relinks only threads of a list, and sets the ends of one queue only. -/
structure Touches (s t : ThreadPool) (chid : Nat) (q : List Nat) : Prop where
  tqueue : ∀ c ≠ chid, t.tqueue c = s.tqueue c
  tcb : ∀ p, p ∉ q → t.tcb p = s.tcb p

theorem Touches.refl : Touches s s chid q := ⟨fun _ _ => rfl, fun _ _ => rfl⟩

theorem Touches.trans {u : ThreadPool} (h₁ : Touches s t chid q) (h₂ : Touches t u chid q) :
    Touches s u chid q :=
  ⟨fun c hc => (h₂.tqueue c hc).trans (h₁.tqueue c hc), fun p hp =>
    (h₂.tcb p hp).trans (h₁.tcb p hp)⟩

theorem Touches.tcbSetPrev (h : Touches s t chid q) (hp : pid ∈ q) (v : Nat) :
    Touches s (t.tcbSetPrev pid v) chid q :=
  h.trans ⟨fun _ _ => rfl, fun _ hn => update_of_ne (ne_of_mem_of_not_mem hp hn).symm _ _⟩

theorem Touches.tcbSetNext (h : Touches s t chid q) (hp : pid ∈ q) (v : Nat) :
    Touches s (t.tcbSetNext pid v) chid q :=
  h.trans ⟨fun _ _ => rfl, fun _ hn => update_of_ne (ne_of_mem_of_not_mem hp hn).symm _ _⟩

theorem Touches.tqueueSetHead (h : Touches s t chid q) (v : Nat) :
    Touches s (t.tqueueSetHead chid v) chid q :=
  h.trans ⟨fun _ hc => update_of_ne hc _ _, fun _ _ => rfl⟩

theorem Touches.tqueueSetTail (h : Touches s t chid q) (v : Nat) :
    Touches s (t.tqueueSetTail chid v) chid q :=
  h.trans ⟨fun _ hc => update_of_ne hc _ _, fun _ _ => rfl⟩

theorem Holds.tail_mem (h : s.Holds chid q) (ht : (s.tqueue chid).tail ≠ numIds) :
    (s.tqueue chid).tail ∈ q := by
  have htail : (s.tqueue chid).tail = q.getLastD numIds := h.tail
  rcases List.eq_nil_or_concat' q with rfl | ⟨l, y, rfl⟩
  · exact absurd htail ht
  · rw [htail, List.getLastD_concat]
    exact List.mem_append_right _ (.head _)

/-- The neighbours of a thread are in its list. -/
theorem Holds.neighbours_mem (h : s.Holds chid q) (hp : pid ∈ q) :
    ((s.tcb pid).prev ≠ numIds → (s.tcb pid).prev ∈ q) ∧
      ((s.tcb pid).next ≠ numIds → (s.tcb pid).next ∈ q) := by
  obtain ⟨l₁, l₂, rfl⟩ := List.append_of_mem hp
  obtain ⟨hprev, hnext⟩ := h.links.neighbours
  refine ⟨fun hne => List.mem_append_left _ ?_, fun hne => List.mem_append_right _ (.tail _ ?_)⟩
  · rcases List.eq_nil_or_concat' l₁ with rfl | ⟨l, y, rfl⟩
    · exact absurd hprev hne
    · rw [hprev, List.getLastD_concat]
      exact List.mem_append_right _ (.head _)
  · cases l₂ with
    | nil => exact absurd hnext hne
    | cons y l => exact hnext ▸ .head _

theorem Holds.touches_tqueueEnqueue (h : s.Holds chid q) :
    Touches s (s.tqueueEnqueue chid pid) chid (pid :: q) := by
  have hpid : pid ∈ pid :: q := .head _
  simp only [ThreadPool.tqueueEnqueue]
  split_ifs with ht
  · exact (((Touches.refl.tcbSetPrev hpid _).tcbSetNext hpid _).tqueueSetHead _).tqueueSetTail _
  · have htail : (s.tqueue chid).tail ∈ pid :: q := .tail _ (h.tail_mem ht)
    exact (((Touches.refl.tcbSetNext htail _).tcbSetPrev hpid _).tcbSetNext hpid _).tqueueSetTail _

theorem Holds.touches_tqueueRemove (h : s.Holds chid q) (hp : pid ∈ q) :
    Touches s (s.tqueueRemove chid pid) chid q := by
  obtain ⟨hprev, hnext⟩ := h.neighbours_mem hp
  simp only [ThreadPool.tqueueRemove]
  refine Touches.tcbSetNext (Touches.tcbSetPrev ?_ hp _) hp _
  split_ifs with h1 h2 h2 h3
  · exact (Touches.refl.tqueueSetHead _).tqueueSetTail _
  · exact (Touches.refl.tcbSetPrev (hnext h2) _).tqueueSetHead _
  · exact (Touches.refl.tcbSetNext (hprev h1) _).tqueueSetTail _
  · exact (Touches.refl.tcbSetNext (hprev h1) _).tcbSetPrev (hnext h2) _
  · exact Touches.refl.tcbSetPrev (hnext h2) _

/-- The queues represent disjoint lists of thread ids. -/
structure Queues (s : ThreadPool) (Q : Nat → List Nat) : Prop where
  holds : ∀ c < numIds + numCpus, s.Holds c (Q c)
  ids : ∀ c < numIds + numCpus, ∀ p ∈ Q c, p < numIds
  disjoint : ∀ c < numIds + numCpus, ∀ c' < numIds + numCpus, c ≠ c' → (Q c).Disjoint (Q c')

/-- One queue gets another list; the threads that are relinked are in no other queue. -/
theorem Queues.update {q q' : List Nat} (h : s.Queues Q) (hq' : t.Holds chid q')
    (hids : ∀ p ∈ q', p < numIds) (ht : Touches s t chid q) (hsub : q' ⊆ q)
    (hother : ∀ c < numIds + numCpus, c ≠ chid → q.Disjoint (Q c)) :
    t.Queues (update Q chid q') := by
  refine ⟨fun c hc => ?_, fun c hc p hp => ?_, fun c hc c' hc' hne => ?_⟩
  · rcases eq_or_ne c chid with rfl | hcc
    · rwa [update_self]
    · rw [update_of_ne hcc]
      have hsame : ∀ p ∈ Q c, t.tcb p = s.tcb p := fun p hp =>
        ht.tcb p fun hpq => hother c hc hcc hpq hp
      exact (h.holds c hc).congr (ht.tqueue c hcc) (fun p hp => by rw [hsame p hp])
        fun p hp => by rw [hsame p hp]
  · rcases eq_or_ne c chid with rfl | hcc
    · exact hids p (by rwa [update_self] at hp)
    · exact h.ids c hc p (by rwa [update_of_ne hcc] at hp)
  · rcases eq_or_ne c chid with rfl | hcc
    · rw [update_self, update_of_ne hne.symm]
      exact List.disjoint_of_subset_left hsub (hother c' hc' hne.symm)
    · rw [update_of_ne hcc]
      rcases eq_or_ne c' chid with rfl | hcc'
      · rw [update_self]
        exact fun p hp hp' => hother c hc hcc (hsub hp') hp
      · rw [update_of_ne hcc']
        exact h.disjoint c hc c' hc' hne

theorem Queues.tqueueEnqueue (h : s.Queues Q) (hc : chid < numIds + numCpus) (hp : pid < numIds)
    (hnot : ∀ c < numIds + numCpus, pid ∉ Q c) :
    (s.tqueueEnqueue chid pid).Queues (Function.update Q chid (Q chid ++ [pid])) := by
  have hq := h.holds chid hc
  refine h.update (hq.tqueueEnqueue (hnot chid hc) (Nat.ne_of_lt hp)) (fun p hpm => ?_)
    hq.touches_tqueueEnqueue (fun p hpm => ?_) fun c hc' hne => ?_
  · rcases List.mem_append.1 hpm with hpm | hpm
    · exact h.ids chid hc p hpm
    · exact List.mem_singleton.1 hpm ▸ hp
  · simpa [or_comm] using hpm
  · rw [List.disjoint_cons_left]
    exact ⟨hnot c hc', h.disjoint chid hc c hc' hne.symm⟩

theorem Queues.tqueueRemove (h : s.Queues Q) (hc : chid < numIds + numCpus) (hp : pid ∈ Q chid) :
    (s.tqueueRemove chid pid).Queues (Function.update Q chid ((Q chid).erase pid)) := by
  have hq := h.holds chid hc
  have hsub : (Q chid).erase pid ⊆ Q chid := List.erase_subset
  refine h.update ?_ (fun p hpm => h.ids chid hc p (hsub hpm)) (hq.touches_tqueueRemove hp) hsub
    fun c hc' hne => h.disjoint chid hc c hc' hne.symm
  obtain ⟨l₁, l₂, heq⟩ := List.append_of_mem hp
  rw [heq] at hq ⊢
  have hnot : pid ∉ l₁ := fun hm => (List.nodup_append.1 hq.nodup).2.2 _ hm _ (.head _) rfl
  rw [List.erase_append_right _ hnot, List.erase_cons_head]
  exact hq.tqueueRemove

end

end ThreadPool

/-- The operations on thread queues are those on lists, for each queue of the pool. -/
theorem queues_refine_lists {s : ThreadPool} {Q : Nat → List Nat} (h : s.Queues Q) {chid : Nat}
    (hc : chid < numIds + numCpus) :
    (∀ pid < numIds, (∀ c < numIds + numCpus, pid ∉ Q c) →
      (s.tqueueEnqueue chid pid).Queues (update Q chid (Q chid ++ [pid]))) ∧
    (Q chid = [] → s.tqueueDequeue chid = (s, numIds)) ∧
    (∀ pid q, Q chid = pid :: q → (s.tqueueDequeue chid).2 = pid ∧
      (s.tqueueDequeue chid).1.Queues (update Q chid q) ∧
      ((s.tqueueDequeue chid).1.tcb pid).prev = numIds ∧
      ((s.tqueueDequeue chid).1.tcb pid).next = numIds) ∧
    (∀ pid ∈ Q chid, (s.tqueueRemove chid pid).Queues (update Q chid ((Q chid).erase pid)) ∧
      ((s.tqueueRemove chid pid).tcb pid).prev = numIds ∧
      ((s.tqueueRemove chid pid).tcb pid).next = numIds) := by
  have hq := h.holds chid hc
  refine ⟨fun pid hp hnot => h.tqueueEnqueue hc hp hnot, fun hnil => ?_, fun pid q heq => ?_,
    fun pid hp => ⟨h.tqueueRemove hc hp, ThreadPool.tqueueRemove_self⟩⟩
  · rw [hnil] at hq
    exact hq.tqueueDequeue_nil
  · have hrem := h.tqueueRemove hc (heq ▸ .head _ : pid ∈ Q chid)
    rw [heq] at hq hrem
    rw [List.erase_cons_head] at hrem
    rw [hq.tqueueDequeue_eq_remove]
    exact ⟨rfl, hrem, ThreadPool.tqueueRemove_self⟩

/-- Two queues after boot: three threads are put into one of them and the middle one is removed. -/
theorem queues_refine_lists_three :
    let s := (((ThreadPool.tqueueInit.tqueueEnqueue 64 1).tqueueEnqueue 64 2).tqueueEnqueue 64 3)
    (s.tqueueRemove 64 2).Queues (update (fun _ => []) 64 [1, 3]) := by
  have hinit : ThreadPool.tqueueInit.Queues fun _ => [] :=
    ⟨fun _ _ => LinkedList.Represents.empty, fun _ _ _ hp => absurd hp List.not_mem_nil,
      fun _ _ _ _ _ => List.disjoint_nil_left _⟩
  have hlt : 64 < numIds + numCpus := by decide
  have h1 := (queues_refine_lists hinit hlt).1 1 (by decide) fun _ _ => List.not_mem_nil
  have h2 := (queues_refine_lists h1 hlt).1 2 (by decide) (by decide)
  have h3 := (queues_refine_lists h2 hlt).1 3 (by decide) (by decide)
  have h4 := ((queues_refine_lists h3 hlt).2.2.2 2 (by decide)).1
  simpa using h4

end MCertikos
