import MCertikos.Mem.Container
import Mathlib.Order.CompletePartialOrder

/-!
# Process ids

A process id is the index of a container, and the same index selects the thread control block, the
kernel stack and the page directory of the process. `container_split` computes the id of a child
from the id of the parent and from the number of children it has; the number is bounded in
`sys_spawn`.

`procMachine` has the calls of `sys_spawn` by any processes in any order, with any quotas, together
with the steps of the scheduler and the pages that processes allocate and free. Its history
variable `born` has the ids that were given out. On the containers it does what `Mem.sysSpawn` says
(`Procs.sysSpawn_refines`).
-/

namespace MCertikos

open Transition Function

/-! ## Processes -/

/-- The bytes of entry `i` of a table whose entries have `size` bytes, as offsets into the table.
The tables `CONTAINER`, `TCBPool`, `proc_kstack` and `PDirPool` have `NUM_IDS` entries each. -/
def tableEntry (size i : Nat) : Set Nat := Set.Ico (i * size) ((i + 1) * size)

theorem disjoint_tableEntry {size i j : Nat} (h : i ≠ j) :
    Disjoint (tableEntry size i) (tableEntry size j) := by
  rw [Set.disjoint_left]
  rintro x ⟨hi, hi'⟩ ⟨hj, hj'⟩
  rcases Nat.lt_or_gt_of_ne h with hlt | hlt
  · have hle : (i + 1) * size ≤ j * size := Nat.mul_le_mul_right size hlt
    omega
  · have hle : (j + 1) * size ≤ i * size := Nat.mul_le_mul_right size hlt
    omega

/-- The size of `struct kstack`, which ends at `kstack_hi`. Reference: `KSTACK_SIZE`
(`kern/lib/kstack.h:9`). -/
def kstackSize : Nat := 4096

/-- The scheduler, the stack pointers that `kctx_new` sets, and the ids of the processes created so
far, the latest first. -/
structure Procs where
  sched : Sched
  /-- `kctx_pool[pid].esp` of a new process, as an offset into `proc_kstack`. -/
  esp : Nat → Nat
  /-- History variable. -/
  born : List Nat

namespace Procs

variable (s : Procs) (id : Nat)

/-- The container of a process. -/
def container : SContainer := s.sched.container id

/-- There is a process with this id. -/
def Exists : Prop := id < numIds ∧ (s.container id).used = true

instance : Decidable (s.Exists id) := inferInstanceAs (Decidable (_ ∧ _))

/-- Creates a process as a child of `id`. Loading the image and the user registers are not
modelled. Reference: `proc_create` (`kern/proc/PProc/PProc.c:37`), with the stack pointer that
`kctx_new` sets (`kern/thread/PKCtxNew/PKCtxNew.c:22`). -/
def procCreate (quota : BitVec 32) : Procs × Nat :=
  let (sched, pid) := s.sched.threadSpawn id quota
  if pid ≠ numIds then
    ({ sched
       esp := update s.esp pid ((pid + 1) * kstackSize)
       born := pid :: s.born }, pid)
  else ({ s with sched }, pid)

/-- Reference: `sys_spawn` (`kern/trap/TSyscall/TSyscall.c:113`). -/
def sysSpawn (elfId : Nat) (quota : BitVec 32) : Procs × Except SpawnError Nat :=
  if ¬ containerCanConsume s.sched.container id quota then (s, .error .exceedsQuota)
  else if numIds < id * maxChildren + 1 + maxChildren then (s, .error .maxNumChildren)
  else if (s.container id).nchildren = maxChildren then (s, .error .invalChildId)
  else if elfId < 1 ∨ 7 < elfId then (s, .error .invalPid)
  else
    let (s', pid) := s.procCreate id quota
    (s', if pid = numIds then .error .invalPid else .ok pid)

/-- `container_alloc` and `container_free` change the usage of a container and nothing else of
it. -/
def setUsage (usage : BitVec 32) : Procs :=
  { s with sched.container :=
      update s.sched.container id { s.sched.container id with usage } }

/-- The state after boot: thread 0 has created the first process. Reference: `kern_main`
(`kern/init/init.c:23`). -/
def boot (realQuota : BitVec 32) : Procs :=
  let s : Procs := { sched := .threadInit realQuota, esp := fun _ => 0, born := [] }
  let (s', pid) := s.procCreate 0 10000
  { s' with
    sched.pool := (s'.sched.pool.tqueueRemove numIds pid).tcbSetState pid .run
    sched.curid := pid }

end Procs

/-- The calls of processes and the steps of the scheduler. -/
inductive ProcAction where
  | spawn (id elfId : Nat) (quota : BitVec 32)
  | use (id : Nat) (usage : BitVec 32)
  | yield
  | sleep (chan : Nat)
  | tidy
  | wakeup (chan : Nat)

/-- Processes spawn children, allocate and free pages, yield, sleep and wake up others, in any
order. Any process may make the next call of `sys_spawn`, whichever the scheduler runs. -/
def procMachine : Machine Procs ProcAction where
  Init s := ∃ realQuota, 10000 ≤ realQuota ∧ s = Procs.boot realQuota
  step s
    | .spawn id elfId quota => if s.Exists id then some (s.sysSpawn id elfId quota).1 else none
    | .use id usage => if s.Exists id then some (s.setUsage id usage) else none
    | .yield => some { s with sched := s.sched.threadYield }
    | .sleep chan => (s.sched.threadSleep chan).map fun sched => { s with sched }
    | .tidy => some { s with sched := s.sched.tidy }
    | .wakeup chan => some { s with sched := s.sched.threadWakeup chan }

namespace Procs

variable {s : Procs} {id elfId : Nat} {quota : BitVec 32}

/-! ## What `sys_spawn` does -/

/-- `proc_create` for a parent whose quota is large enough, with a free id. -/
theorem procCreate_of_lt (hcan : containerCanConsume s.sched.container id quota)
    (hlt : nextChild s.sched.container id < numIds) :
    (s.procCreate id quota).2 = nextChild s.sched.container id ∧
      (s.procCreate id quota).1.sched.container =
        (containerSplit s.sched.container id quota).1 ∧
      (s.procCreate id quota).1.esp = update s.esp (nextChild s.sched.container id)
        ((nextChild s.sched.container id + 1) * kstackSize) ∧
      (s.procCreate id quota).1.born = nextChild s.sched.container id :: s.born := by
  have hpid : (containerSplit s.sched.container id quota).2 = nextChild s.sched.container id := by
    rw [containerSplit_of_lt hlt]
  simp only [procCreate, Sched.threadSpawn, Sched.kctxNew, if_pos hcan, hpid, ne_eq, hlt.ne,
    not_false_eq_true, if_true, and_self]

/-- `sys_spawn` refuses the call and changes nothing, or it creates the next child of the
caller. -/
theorem sysSpawn_spec (h : Family s.sched.container) (id elfId : Nat) (quota : BitVec 32) :
    (∃ e, s.sysSpawn id elfId quota = (s, .error e)) ∨
      (s.container id).nchildren < maxChildren ∧ nextChild s.sched.container id < numIds ∧
        containerCanConsume s.sched.container id quota ∧
        s.sysSpawn id elfId quota =
          ((s.procCreate id quota).1, .ok (nextChild s.sched.container id)) := by
  unfold sysSpawn
  by_cases hcan : containerCanConsume s.sched.container id quota
  swap
  · exact .inl ⟨_, if_pos hcan⟩
  rw [if_neg (not_not.2 hcan)]
  by_cases hmax : numIds < id * maxChildren + 1 + maxChildren
  · exact .inl ⟨_, if_pos hmax⟩
  rw [if_neg hmax]
  by_cases hnc : (s.container id).nchildren = maxChildren
  · exact .inl ⟨_, if_pos hnc⟩
  rw [if_neg hnc]
  by_cases helf : elfId < 1 ∨ 7 < elfId
  · exact .inl ⟨_, if_pos helf⟩
  rw [if_neg helf]
  have hfew : (s.container id).nchildren < maxChildren := lt_of_le_of_ne (h.few id) hnc
  -- the two bounds of `sys_spawn` keep the index of the child inside the tables
  have hlt : nextChild s.sched.container id < numIds := by
    have : (s.sched.container id).nchildren < maxChildren := hfew
    rw [nextChild]
    omega
  have hpid := (procCreate_of_lt hcan hlt).1
  refine .inr ⟨hfew, hlt, hcan, ?_⟩
  simp only [hpid, if_neg hlt.ne]

/-- `sys_spawn` does to the containers what `Mem.sysSpawn` says, with the same result. -/
theorem sysSpawn_refines (s : Procs) (table : AllocTable) (id elfId : Nat) (quota : BitVec 32) :
    (Mem.sysSpawn { table, container := s.sched.container } id elfId quota) =
      ({ table, container := (s.sysSpawn id elfId quota).1.sched.container },
        (s.sysSpawn id elfId quota).2) := by
  have hcreate : containerCanConsume s.sched.container id quota →
      (s.procCreate id quota).2 = (containerSplit s.sched.container id quota).2 ∧
        (s.procCreate id quota).1.sched.container =
          (containerSplit s.sched.container id quota).1 := by
    intro hcan
    by_cases hlt : nextChild s.sched.container id < numIds
    · obtain ⟨hp, hc, -, -⟩ := procCreate_of_lt hcan hlt
      rw [hp, hc, containerSplit_of_lt hlt]
      exact ⟨rfl, rfl⟩
    · have hsplit := containerSplit_of_le (q := quota) (Nat.le_of_not_lt hlt)
      simp only [procCreate, Sched.threadSpawn, Sched.kctxNew, if_pos hcan, hsplit, ne_eq,
        not_true_eq_false, if_false, and_self]
  unfold sysSpawn Mem.sysSpawn container
  dsimp only
  by_cases hcan : containerCanConsume s.sched.container id quota
  swap
  · rw [if_pos hcan, if_pos hcan]
  rw [if_neg (not_not.2 hcan), if_neg (not_not.2 hcan), if_neg (not_not.2 hcan)]
  obtain ⟨hpid, hcont⟩ := hcreate hcan
  split_ifs <;> simp_all [Mem.allocMemQuota]

/-! ## Ids over runs -/

/-- The ids that were given out are those of the containers in use, each once. -/
structure Ok (s : Procs) : Prop where
  family : Family s.sched.container
  root : (s.container 0).used
  lt : ∀ i, (s.container i).used → i < numIds
  born : ∀ i, i ∈ s.born ↔ i ≠ 0 ∧ (s.container i).used
  nodup : s.born.Nodup
  esp : ∀ i ∈ s.born, s.esp i = (i + 1) * kstackSize

namespace Ok

/-- What changes only the queues, or the quotas and usages, keeps the ids. -/
theorem congr {t : Procs} (h : s.Ok) (hesp : t.esp = s.esp) (hborn : t.born = s.born)
    (hc : ∀ i, (t.container i).used = (s.container i).used ∧
      (t.container i).parent = (s.container i).parent ∧
      (t.container i).nchildren = (s.container i).nchildren) : t.Ok := by
  refine ⟨h.family.congr hc, ?_, fun i hu => ?_, fun i => ?_, ?_, fun i hi => ?_⟩
  · rw [(hc 0).1]
    exact h.root
  · rw [(hc i).1] at hu
    exact h.lt i hu
  · rw [hborn, (hc i).1]
    exact h.born i
  · rw [hborn]
    exact h.nodup
  · rw [hborn] at hi
    rw [hesp]
    exact h.esp i hi

theorem setThreads (h : s.Ok) (pool : ThreadPool) (curid : Nat) :
    Ok { s with sched.pool := pool, sched.curid := curid } :=
  h.congr rfl rfl fun _ => ⟨rfl, rfl, rfl⟩

/-- The next child of a container is a process that was never created. -/
theorem nextChild_notMem (h : s.Ok) (hn : (s.container id).nchildren < maxChildren) :
    nextChild s.sched.container id ∉ s.born := by
  intro hmem
  have hused := ((h.born _).1 hmem).2
  have hfree : (s.container (nextChild s.sched.container id)).used = false :=
    h.family.used_nextChild hn
  rw [hfree] at hused
  cases hused

/-- `proc_create` with a free id. -/
theorem procCreate (h : s.Ok) (hused : (s.container id).used)
    (hn : (s.container id).nchildren < maxChildren)
    (hcan : containerCanConsume s.sched.container id quota)
    (hlt : nextChild s.sched.container id < numIds) : (s.procCreate id quota).1.Ok := by
  obtain ⟨-, hc, hesp, hborn⟩ := procCreate_of_lt hcan hlt
  have hnot := h.nextChild_notMem hn
  have hne := (lt_nextChild s.sched.container id).ne
  have hpos : nextChild s.sched.container id ≠ 0 := (lt_nextChild s.sched.container id).ne_bot
  -- a container is in use afterwards if it was, or if it is the new one
  have husedIff : ∀ i, ((s.procCreate id quota).1.container i).used ↔
      i = nextChild s.sched.container id ∨ (s.container i).used := by
    intro i
    rw [container, hc, containerSplit_of_lt hlt]
    dsimp only
    rcases eq_or_ne i id with rfl | hi
    · rw [update_self]
      exact ⟨.inr, fun _ => hused⟩
    rw [update_of_ne hi]
    rcases eq_or_ne i (nextChild s.sched.container id) with rfl | hin
    · rw [update_self]
      exact ⟨fun _ => .inl rfl, fun _ => rfl⟩
    · rw [update_of_ne hin]
      exact ⟨.inr, fun hor => hor.resolve_left hin⟩
  refine ⟨?_, (husedIff 0).2 (.inr h.root), fun i hu => ?_, fun i => ?_, ?_, fun i hi => ?_⟩
  · rw [hc]
    exact h.family.split hused hn
  · rcases (husedIff i).1 hu with rfl | hu
    · exact hlt
    · exact h.lt i hu
  · rw [hborn, List.mem_cons, h.born, husedIff]
    constructor
    · rintro (rfl | ⟨hi, hu⟩)
      · exact ⟨hpos, .inl rfl⟩
      · exact ⟨hi, .inr hu⟩
    · rintro ⟨hi, rfl | hu⟩
      · exact .inl rfl
      · exact .inr ⟨hi, hu⟩
  · rw [hborn]
    exact List.nodup_cons.2 ⟨hnot, h.nodup⟩
  · rw [hesp]
    rw [hborn] at hi
    rcases List.mem_cons.1 hi with rfl | hi
    · rw [update_self]
    · have hin : i ≠ nextChild s.sched.container id := fun he => hnot (he ▸ hi)
      rw [update_of_ne hin]
      exact h.esp i hi

theorem sysSpawn (h : s.Ok) (hid : s.Exists id) : (s.sysSpawn id elfId quota).1.Ok := by
  rcases sysSpawn_spec h.family id elfId quota with ⟨e, heq⟩ | ⟨hn, hlt, hcan, heq⟩
  · rw [heq]
    exact h
  · rw [heq]
    exact h.procCreate hid.2 hn hcan hlt

/-- Thread 0 has no child before it creates the first process. -/
theorem boot {realQuota : BitVec 32} (hq : 10000 ≤ realQuota) : (Procs.boot realQuota).Ok := by
  let s₀ : Procs := { sched := .threadInit realQuota, esp := fun _ => 0, born := [] }
  have hinit : ∀ i ≠ 0, (s₀.container i).used = false := fun i hi => by
    simp only [s₀, container, Sched.threadInit, containerInit, update_of_ne hi]
  have h₀ : s₀.Ok := by
    refine ⟨.init realQuota, rfl, fun i hu => ?_, fun i => ?_, List.nodup_nil,
      fun i hi => absurd hi List.not_mem_nil⟩
    · rcases eq_or_ne i 0 with rfl | hi
      · decide
      · rw [hinit i hi] at hu
        cases hu
    · refine ⟨fun hi => absurd hi List.not_mem_nil, ?_⟩
      rintro ⟨hi, hu⟩
      rw [hinit i hi] at hu
      cases hu
  have hcan : containerCanConsume s₀.sched.container 0 10000 := by
    simp only [s₀, Sched.threadInit, containerCanConsume, containerInit, update_self,
      decide_eq_true_eq]
    exact hq
  have hfew : (s₀.container 0).nchildren < maxChildren := Nat.succ_pos 2
  have hlt : nextChild s₀.sched.container 0 < numIds := by
    show 1 < numIds
    decide
  have hok : (s₀.procCreate 0 10000).1.Ok := h₀.procCreate rfl hfew hcan hlt
  unfold Procs.boot
  dsimp only [s₀] at hok ⊢
  rcases hp : Procs.procCreate _ 0 10000 with ⟨s', pid⟩
  rw [hp] at hok
  exact hok.setThreads _ _

end Ok

/-- Every reachable state is in order. -/
theorem ok_of_reachable (h : procMachine.Reachable s) : s.Ok := by
  refine h.invariant ?_ fun s a t hs ht => ?_
  · rintro s ⟨realQuota, hq, hs⟩
    rw [hs]
    exact .boot hq
  · cases a with
    | spawn id elfId quota =>
      obtain ⟨hid, rfl⟩ := of_guard ht
      exact hs.sysSpawn hid
    | use id usage =>
      obtain ⟨-, rfl⟩ := of_guard ht
      refine hs.congr rfl rfl fun i => ?_
      rcases eq_or_ne i id with rfl | hi
      · simp [setUsage, container]
      · simp [setUsage, container, update_of_ne hi]
    | yield =>
      cases ht
      exact hs.congr rfl rfl fun i => ⟨rfl, rfl, rfl⟩
    | sleep chan =>
      simp only [procMachine, Sched.threadSleep, Option.map_eq_some_iff,
        Option.ite_none_left_eq_some, Option.some.injEq] at ht
      obtain ⟨sched, ⟨-, rfl⟩, rfl⟩ := ht
      exact hs.congr rfl rfl fun i => ⟨rfl, rfl, rfl⟩
    | tidy =>
      cases ht
      exact hs.congr rfl rfl fun i => ⟨rfl, rfl, rfl⟩
    | wakeup chan =>
      cases ht
      exact hs.congr rfl rfl fun i => ⟨rfl, rfl, rfl⟩

end Procs

/-- A call of `sys_spawn` by an existing process is refused and changes nothing, or returns an id
between 1 and `NUM_IDS - 1` that was never given out, which is the next child of the caller. The
ids given out are all different, so no two processes have an entry of a table in common, and each
has the kernel stack with its own number. -/
theorem spawned_ids_fresh {s : Procs} (h : procMachine.Reachable s) :
    (∀ id elfId quota, s.Exists id →
      (∃ e, s.sysSpawn id elfId quota = (s, .error e)) ∨
      ∃ t pid, s.sysSpawn id elfId quota = (t, .ok pid) ∧ 1 ≤ pid ∧ pid < numIds ∧
        pid ∉ s.born ∧ t.born = pid :: s.born ∧ (t.container pid).parent = id ∧
        pid = 3 * id + 1 + (s.container id).nchildren) ∧
    (∀ pid, pid ∈ s.born ↔ pid ≠ 0 ∧ s.Exists pid) ∧
    s.born.Pairwise (fun p q => p ≠ q ∧
      ∀ size, Disjoint (tableEntry size p) (tableEntry size q)) ∧
    ∀ pid ∈ s.born, s.esp pid = (pid + 1) * kstackSize := by
  have hok := Procs.ok_of_reachable h
  refine ⟨fun id elfId quota hid => ?_, fun pid => ?_, ?_, hok.esp⟩
  · rcases Procs.sysSpawn_spec hok.family id elfId quota with hrefused | ⟨hn, hlt, hcan, heq⟩
    · exact .inl hrefused
    · obtain ⟨-, hc, -, hborn⟩ := Procs.procCreate_of_lt hcan hlt
      have hpos := lt_nextChild s.sched.container id
      refine .inr ⟨_, _, heq, by omega, hlt, hok.nextChild_notMem hn, hborn, ?_, ?_⟩
      · rw [Procs.container, hc, containerSplit_of_lt hlt]
        simp only [update_of_ne hpos.ne', update_self]
      · rw [nextChild, maxChildren, Procs.container, Nat.mul_comm]
  · rw [hok.born]
    exact ⟨fun h => ⟨h.1, hok.lt pid h.2, h.2⟩, fun h => ⟨h.1, h.2.2⟩⟩
  · exact hok.nodup.imp fun hne => ⟨hne, fun _ => disjoint_tableEntry hne⟩

/-- The first process, whose id is 1, spawns two children; the first of them has the id 4 and
spawns one with the id 13. -/
theorem spawned_ids_fresh_boot :
    ∃ s, procMachine.Reachable s ∧ s.born = [13, 5, 4, 1] ∧
      s.born.Pairwise (fun p q => p ≠ q ∧
        ∀ size, Disjoint (tableEntry size p) (tableEntry size q)) := by
  have hinit : procMachine.Reachable (Procs.boot 20000) := .init ⟨_, by decide, rfl⟩
  have hrun : ∃ s, procMachine.replay (Procs.boot 20000)
      [.spawn 1 1 1000, .spawn 1 2 1000, .spawn 4 3 100] = some s ∧ s.born = [13, 5, 4, 1] := by
    refine ⟨_, rfl, ?_⟩
    decide
  obtain ⟨s, hs, hborn⟩ := hrun
  have hr := (Machine.Runs.of_replay hs).reachable hinit
  exact ⟨s, hr, hborn, (spawned_ids_fresh hr).2.2.1⟩

end MCertikos
