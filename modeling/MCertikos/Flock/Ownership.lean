import MCertikos.Flock.File

/-!
# Ownership of a lock object through descriptors

Who holds the lock of an inode is recorded in three places: the state and the counters of the lock
object, the `holding_flock` field of each open file, and, while a call is under way, the program
counter of the process that makes it. `FileSys.owed` reads the last two together: it is the lock a
descriptor is entitled to between two critical sections. The invariant `FileSys.Ok` says that a
descriptor's request is granted exactly when it is owed, that a slot of the file table in use by a
live descriptor is used by that descriptor only, and that each program counter is consistent with
the file it works on. With the invariant, every step of the processes is a step of the threads that
share the lock object or none (`FileSys.Moves`), so that what holds for those threads holds for
the processes; `flock_accounting` is the result.
-/

namespace MCertikos

open Transition

/-! ## What a descriptor is owed -/

/-- The descriptor a program counter is about. -/
def FilePc.fd? : FilePc → Option Nat
  | .user => none
  | .unlocking fd _ | .unlocked fd _ _ | .converting fd _ _ | .converted fd _ _
  | .acquiring fd _ _ | .blocked fd _ _ | .acquired fd _ _ _ | .closing fd _ | .closed fd =>
    some fd

/-- The lock a descriptor is owed when its file's `holding_flock` is `held` and its process works
on this descriptor at the given point. -/
def FilePc.due (held : BitVec 32) : FilePc → BitVec 32
  | .user | .unlocking _ _ | .converting _ _ _ => held
  | .unlocked _ _ _ | .converted _ _ _ | .acquiring _ _ _ | .blocked _ _ _ | .closed _ => 0
  | .acquired _ _ operation v => if v = 0 then lockType operation else 0
  | .closing _ ff => if ff.type = .inode then ff.holdingFlock else 0

/-- The process is past the table section of `file_close` for this descriptor. -/
def FilePc.Closing (fd : Nat) : FilePc → Prop
  | .closing fd' _ | .closed fd' => fd' = fd
  | _ => False

/-- A program counter about to close a descriptor is about that descriptor. -/
theorem FilePc.Closing.fd? {fd : Nat} : ∀ {pc : FilePc}, pc.Closing fd → pc.fd? = some fd
  | .closing _ _, h | .closed _, h => congrArg some h

namespace FileSys

/-- The lock a descriptor is owed: 0, `LOCK_SH` or `LOCK_EX`. -/
def owed (s : FileSys) (p fd : Nat) : BitVec 32 :=
  match s.openfiles p fd with
  | none => 0
  | some f =>
    if (s.pc p).fd? = some fd then (s.pc p).due (s.file f).holdingFlock
    else (s.file f).holdingFlock

/-- A descriptor is live while it is open and not being closed. -/
def Live (s : FileSys) (p fd f : Nat) : Prop := s.openfiles p fd = some f ∧ ¬ (s.pc p).Closing fd

/-- What a program counter promises about its descriptor, its file and its thread. -/
def PcOk (s : FileSys) (p : Nat) : Prop :=
  match s.pc p with
  | .user => s.lock.thread p = .out
  | .unlocking fd f =>
    s.openfiles p fd = some f ∧ s.lock.thread p = .out ∧ (s.file f).holdingFlock ≠ 0
  | .unlocked fd f r => s.openfiles p fd = some f ∧ s.lock.thread p = .out ∧ r = 0
  | .converting fd f operation =>
    s.openfiles p fd = some f ∧ s.lock.thread p = .out ∧ lockType operation ≠ lockUn ∧
      (s.file f).holdingFlock ≠ 0
  | .converted fd f operation =>
    s.openfiles p fd = some f ∧ s.lock.thread p = .out ∧ lockType operation ≠ lockUn
  | .acquiring fd f operation =>
    s.openfiles p fd = some f ∧ s.lock.thread p = .out ∧ lockType operation ≠ lockUn ∧
      (s.file f).holdingFlock = 0
  | .blocked fd f operation =>
    s.openfiles p fd = some f ∧ (s.file f).holdingFlock = 0 ∧
      ∃ k w, lockType operation = k.code ∧ s.lock.thread p = .waiting k fd w
  | .acquired fd f operation v =>
    s.openfiles p fd = some f ∧ s.lock.thread p = .out ∧ (s.file f).holdingFlock = 0 ∧
      (v = 0 → ∃ k : LockKind, lockType operation = k.code)
  | .closing fd _ | .closed fd => s.lock.thread p = .out ∧ ∃ f, s.openfiles p fd = some f

/-- The invariant. -/
structure Ok (s : FileSys) : Prop where
  granted : ∀ p fd k, (p, fd) ∈ s.lock.granted k ↔ s.owed p fd = k.code
  owed : ∀ p fd, s.owed p fd = 0 ∨ ∃ k : LockKind, s.owed p fd = k.code
  pcs : ∀ p, s.PcOk p
  live : ∀ p fd f, s.Live p fd f → (s.file f).ref = 1 ∧ (s.file f).type = .inode
  unique : ∀ p fd p' fd' f, s.Live p fd f → s.Live p' fd' f → p = p' ∧ fd = fd'

section
variable {s t : FileSys} {p fd f : Nat} {operation : BitVec 32}

/-! ## Local changes -/

@[simp] theorem goto_pc_self (pc : FilePc) : (s.goto p pc).pc p = pc := by simp [goto]

theorem goto_pc_ne {q : Nat} (hq : q ≠ p) (pc : FilePc) : (s.goto p pc).pc q = s.pc q := by
  simp [goto, hq]

/-- A descriptor is owed the same after a step that leaves alone its entry, the `holding_flock` of
its file while it is live, and the place of its process with respect to it. -/
theorem owed_congr (hopen : t.openfiles p fd = s.openfiles p fd)
    (hpc : t.pc p = s.pc p ∨ (s.pc p).fd? ≠ some fd ∧ (t.pc p).fd? ≠ some fd)
    (hheld : ∀ g, s.Live p fd g → (t.file g).holdingFlock = (s.file g).holdingFlock) :
    t.owed p fd = s.owed p fd := by
  unfold owed
  rw [hopen]
  cases ho : s.openfiles p fd with
  | none => rfl
  | some g =>
    simp only
    rcases hpc with hpc | ⟨h1, h2⟩
    · by_cases hc : (s.pc p).Closing fd
      · -- the slot may have been taken over while its old descriptor is being closed
        rw [hpc, if_pos hc.fd?, if_pos hc.fd?]
        generalize s.pc p = pc at hc
        cases pc <;> simp [FilePc.Closing] at hc <;> rfl
      · rw [hpc, hheld g ⟨ho, hc⟩]
    · rw [if_neg h1, if_neg h2, hheld g ⟨ho, fun hc => h1 hc.fd?⟩]

/-- The promises of a program counter survive a step that leaves alone its process's descriptors,
the `holding_flock` of their files, and the side of the wait loop its thread is on. -/
theorem PcOk.mono {q : Nat} (h : s.PcOk q) (hpc : t.pc q = s.pc q)
    (hopen : t.openfiles q = s.openfiles q)
    (hheld : ∀ fd g, s.Live q fd g → (t.file g).holdingFlock = (s.file g).holdingFlock)
    (hth : s.lock.thread q = .out → t.lock.thread q = .out)
    (hwait : ∀ k tag w, s.lock.thread q = .waiting k tag w →
      ∃ w', t.lock.thread q = .waiting k tag w') : t.PcOk q := by
  unfold PcOk at h ⊢
  rw [hpc, hopen]
  unfold Live at hheld
  cases hq : s.pc q with
  | user => rw [hq] at h; exact hth h
  | unlocking fd g =>
    rw [hq] at h hheld
    exact ⟨h.1, hth h.2.1, by rw [hheld fd g ⟨h.1, id⟩]; exact h.2.2⟩
  | unlocked fd g r => rw [hq] at h; exact ⟨h.1, hth h.2.1, h.2.2⟩
  | converting fd g op =>
    rw [hq] at h hheld
    exact ⟨h.1, hth h.2.1, h.2.2.1, by rw [hheld fd g ⟨h.1, id⟩]; exact h.2.2.2⟩
  | converted fd g op => rw [hq] at h; exact ⟨h.1, hth h.2.1, h.2.2⟩
  | acquiring fd g op =>
    rw [hq] at h hheld
    exact ⟨h.1, hth h.2.1, h.2.2.1, by rw [hheld fd g ⟨h.1, id⟩]; exact h.2.2.2⟩
  | blocked fd g op =>
    rw [hq] at h hheld
    obtain ⟨ho, hh, k, w, hk, hw⟩ := h
    obtain ⟨w', hw'⟩ := hwait k fd w hw
    exact ⟨ho, by rw [hheld fd g ⟨ho, id⟩]; exact hh, k, w', hk, hw'⟩
  | acquired fd g op v =>
    rw [hq] at h hheld
    exact ⟨h.1, hth h.2.1, by rw [hheld fd g ⟨h.1, id⟩]; exact h.2.2.1, h.2.2.2⟩
  | closing fd ff | closed fd => rw [hq] at h; exact ⟨hth h.1, h.2⟩

/-- What a new state of the lock object leaves alone when `p` works on its descriptor `fd`. -/
structure Keeps (p fd : Nat) (l l' : LockSys) : Prop where
  granted : ∀ d, d ≠ (p, fd) → ∀ k, d ∈ l'.granted k ↔ d ∈ l.granted k
  out : ∀ q, q ≠ p → l.thread q = .out → l'.thread q = .out
  waiting : ∀ q, q ≠ p → ∀ k tag w, l.thread q = .waiting k tag w →
    ∃ w', l'.thread q = .waiting k tag w'

theorem Keeps.refl (l : LockSys) : Keeps p fd l l :=
  ⟨fun _ _ _ => .rfl, fun _ _ h => h, fun _ _ _ _ w h => ⟨w, h⟩⟩

/-- A step is local to the descriptor `fd` of `p` when everything else is as before: the entries of
other descriptors, the files of those that are live, the program counters and threads of other
processes, and the locks granted to other descriptors. -/
structure LocalTo (p fd : Nat) (s t : FileSys) : Prop where
  pc : ∀ q, q ≠ p → t.pc q = s.pc q
  before : ∀ fd', (s.pc p).fd? = some fd' → fd' = fd
  after : ∀ fd', (t.pc p).fd? = some fd' → fd' = fd
  openfiles : ∀ p' fd', (p', fd') ≠ (p, fd) → t.openfiles p' fd' = s.openfiles p' fd'
  file : ∀ p' fd' g, (p', fd') ≠ (p, fd) → s.Live p' fd' g → t.file g = s.file g
  lock : Keeps p fd s.lock t.lock

/-- A local step does not touch what other descriptors are owed. -/
theorem LocalTo.owed_of_ne (hl : LocalTo p fd s t) {p' fd' : Nat} (hne : (p', fd') ≠ (p, fd)) :
    t.owed p' fd' = s.owed p' fd' := by
  refine owed_congr (hl.openfiles _ _ hne) ?_ fun g hg => by rw [hl.file _ _ _ hne hg]
  by_cases hp : p' = p
  · subst hp
    have hfd : fd' ≠ fd := fun he => hne (he ▸ rfl)
    exact .inr ⟨fun he => hfd (hl.before _ he), fun he => hfd (hl.after _ he)⟩
  · exact .inl (hl.pc p' hp)

/-- Nor does it open or close them. -/
theorem LocalTo.live_of_ne (hl : LocalTo p fd s t) {p' fd' g : Nat} (hne : (p', fd') ≠ (p, fd))
    (hg : t.Live p' fd' g) : s.Live p' fd' g := by
  refine ⟨hl.openfiles _ _ hne ▸ hg.1, fun hc => ?_⟩
  by_cases hp : p' = p
  · subst hp
    exact hne (by rw [hl.before _ hc.fd?])
  · exact hg.2 (by rwa [hl.pc p' hp])

/-- A local step keeps the invariant once it does so at the descriptor it works on. -/
theorem LocalTo.ok (hl : LocalTo p fd s t) (h : s.Ok)
    (hself : ∀ k, (p, fd) ∈ t.lock.granted k ↔ t.owed p fd = k.code)
    (howed : t.owed p fd = 0 ∨ ∃ k : LockKind, t.owed p fd = k.code) (hpc : t.PcOk p)
    (hlive : ∀ f, t.Live p fd f → (t.file f).ref = 1 ∧ (t.file f).type = .inode ∧
      ∀ p' fd', s.Live p' fd' f → (p', fd') = (p, fd)) : t.Ok where
  granted p' fd' k := by
    by_cases hd : (p', fd') = (p, fd)
    · cases hd; exact hself k
    · rw [hl.lock.granted _ hd, hl.owed_of_ne hd, h.granted]
  owed p' fd' := by
    by_cases hd : (p', fd') = (p, fd)
    · cases hd; exact howed
    · rw [hl.owed_of_ne hd]; exact h.owed p' fd'
  pcs q := by
    by_cases hq : q = p
    · subst hq; exact hpc
    · have hne : ∀ fd', (q, fd') ≠ (p, fd) := fun fd' he => hq (congrArg Prod.fst he)
      exact (h.pcs q).mono (hl.pc q hq) (funext fun fd' => hl.openfiles _ _ (hne fd'))
        (fun fd' g hg => by rw [hl.file _ _ _ (hne fd') hg]) (hl.lock.out q hq)
        (hl.lock.waiting q hq)
  live p' fd' g hg := by
    by_cases hd : (p', fd') = (p, fd)
    · cases hd
      exact ⟨(hlive g hg).1, (hlive g hg).2.1⟩
    · have hg' := hl.live_of_ne hd hg
      rw [hl.file _ _ _ hd hg']
      exact h.live _ _ _ hg'
  unique p' fd' q fd'' g h1 h2 := by
    by_cases hd1 : (p', fd') = (p, fd) <;> by_cases hd2 : (q, fd'') = (p, fd)
    · cases hd1; cases hd2; exact ⟨rfl, rfl⟩
    · cases hd1
      exact absurd ((hlive g h1).2.2 _ _ (hl.live_of_ne hd2 h2)) hd2
    · cases hd2
      exact absurd ((hlive g h2).2.2 _ _ (hl.live_of_ne hd1 h1)) hd1
    · exact h.unique _ _ _ _ _ (hl.live_of_ne hd1 h1) (hl.live_of_ne hd2 h2)

end

end FileSys

/-! ## The lock object's side of a step -/

namespace LockSys

variable {s : LockSys} {p fd : Nat}

/-- What a critical section of `flock_acquire` for a free request may leave behind. -/
structure Settles (s : LockSys) (p fd : Nat) (r : LockSys × Flock.Outcome) : Prop where
  thread : ∀ q, q ≠ p → r.1.thread q = s.thread q
  granted : ∀ d, d ≠ (p, fd) → ∀ k, d ∈ r.1.granted k ↔ d ∈ s.granted k
  sleep : r.2 = .sleep → r.1.Free p fd
  failed : ∀ v, r.2 = .ret v → v ≠ 0 → r.1.Free p fd
  out : ∀ v, r.2 = .ret v → r.1.thread p = .out

/-- A section for a request of kind `k`. -/
theorem settles_settle (hf : s.Free p fd) (k : LockKind) (r : Flock × Flock.Outcome) :
    Settles s p fd (s.settle p fd k r) ∧
      ((s.settle p fd k r).2 = .sleep →
        (s.settle p fd k r).1.thread p = .waiting k fd false) ∧
      ((s.settle p fd k r).2 = .ret 0 →
        ∀ k', (p, fd) ∈ (s.settle p fd k r).1.granted k' ↔ k' = k) := by
  obtain ⟨fl, o⟩ := r
  cases o with
  | sleep =>
    exact ⟨⟨fun q hq => by
      simp [settle, hq], fun d _ k' => Iff.rfl, fun _ => hf, fun v hv => (by cases hv),
        fun v hv => by cases hv⟩, fun _ => by simp [settle], fun hv => by cases hv⟩
  | ret v =>
    refine ⟨⟨fun q hq => by simp [settle, hq], fun d hd k' => ?_, fun hv => (by cases hv),
      fun v' hv hne => ?_, fun _ _ => by simp [settle]⟩, fun hv => (by cases hv), fun hv k' => ?_⟩
    · simp only [settle]
      split
      · by_cases hk : k' = k
        · subst hk; simp [hd]
        · simp [hk]
      · rfl
    · cases hv
      simpa [settle, hne, Free] using hf
    · cases hv
      by_cases hk : k' = k
      · subst hk; simp [settle]
      · simpa [settle, hk] using hf k'

/-- `flock_acquire`, up to its return or its first sleep. -/
theorem acquire_spec {operation : BitVec 32} (hf : s.Free p fd) (hpc : s.thread p = .out)
    (hun : lockType operation ≠ lockUn) :
    Settles s p fd (s.acquire p fd operation) ∧
      ((s.acquire p fd operation).2 = .sleep → ∃ k, lockType operation = LockKind.code k ∧
        (s.acquire p fd operation).1.thread p = .waiting k fd false) ∧
      ((s.acquire p fd operation).2 = .ret 0 → ∃ k, lockType operation = LockKind.code k ∧
        ∀ k', (p, fd) ∈ (s.acquire p fd operation).1.granted k' ↔ k' = k) := by
  cases hk : kindOf (lockType operation) with
  | some k =>
    have he := kindOf_eq_some hk
    obtain ⟨h1, h2, h3⟩ := settles_settle hf k (s.flock.flockAcquire p operation)
    simp only [acquire, hk]
    exact ⟨h1, fun h => ⟨k, he, h2 h⟩, fun h => ⟨k, he, h3 h⟩⟩
  | none =>
    have hfl : (s.flock.flockAcquire p operation).1 = s.flock :=
      (Flock.flockAcquire_of_kindOf_none hk).1
    have ho : (s.flock.flockAcquire p operation).2 = .ret (-1) := by
      unfold kindOf at hk
      split_ifs at hk with h1 h2
      simp [Flock.flockAcquire, h1, h2, hun]
    simp only [acquire, hk, hfl, ho]
    exact ⟨⟨fun _ _ => rfl, fun _ _ _ => Iff.rfl, fun _ => hf, fun _ _ _ => hf, fun _ _ => hpc⟩,
      fun hv => (by cases hv), fun hv => by cases hv⟩

/-- A release moves no thread into or out of its wait loop. -/
theorem release_thread (v : BitVec 32) (q : Nat) :
    (s.thread q = .out → (s.release p fd v).1.thread q = .out) ∧
      ∀ k tag w, s.thread q = .waiting k tag w →
        ∃ w', (s.release p fd v).1.thread q = .waiting k tag w' := by
  simp only [release]
  split
  · exact ⟨fun h => by
      simp [h, ThreadPc.wake], fun k tag w h => ⟨true, by simp [h, ThreadPc.wake]⟩⟩
  · exact ⟨id, fun k tag w h => ⟨w, h⟩⟩

/-- A release of a granted request takes that request back, and no other. -/
theorem release_granted {k : LockKind} (hk : ∀ k', (p, fd) ∈ s.granted k' ↔ k' = k) :
    (∀ d, d ≠ (p, fd) → ∀ k', d ∈ (s.release p fd k.code).1.granted k' ↔ d ∈ s.granted k') ∧
      (s.release p fd k.code).1.Free p fd := by
  simp only [release, kindOf_code, Free]
  refine ⟨fun d hd k' => ?_, fun k' => ?_⟩
  · by_cases hk' : k' = k
    · subst hk'; simp [hd]
    · simp [hk']
  · by_cases hk' : k' = k
    · subst hk'; simp
    · simp [hk', hk]

end LockSys

/-! ## Steps on one descriptor -/

namespace FileSys

variable {s t : FileSys} {p fd f : Nat} {operation : BitVec 32}

/-- The state after a step on one descriptor: a new state of the lock object and its threads, a new
`holding_flock` in the slot `f`, and a new program counter of `p`. -/
def put (s : FileSys) (p f : Nat) (lock : LockSys) (v : BitVec 32) (pc : FilePc) : FileSys :=
  ({ s with lock }.setHolding f v).goto p pc

/-- Writing back the old `holding_flock` changes nothing. -/
theorem put_self (lock : LockSys) (pc : FilePc) :
    s.put p f lock (s.file f).holdingFlock pc = { s with lock }.goto p pc := by
  simp [put, setHolding]

theorem Keeps.of_settles {l : LockSys} {r : LockSys × Flock.Outcome}
    (h : LockSys.Settles l p fd r) : Keeps p fd l r.1 :=
  ⟨h.granted, fun q hq he => (h.thread q hq).trans he,
    fun q hq _ _ w he => ⟨w, (h.thread q hq).trans he⟩⟩

/-- A step on a live descriptor keeps the invariant when the request of that descriptor is granted
afterwards exactly as it is owed afterwards. -/
theorem Ok.put (h : s.Ok) (hf : s.Live p fd f)
    (hbefore : ∀ fd', (s.pc p).fd? = some fd' → fd' = fd) {lock : LockSys} {v : BitVec 32}
    {pc : FilePc} (hafter : pc = .user ∨ pc.fd? = some fd ∧ ¬ pc.Closing fd)
    (hk : Keeps p fd s.lock lock)
    (hself : ∀ k, (p, fd) ∈ lock.granted k ↔ pc.due v = k.code)
    (hdue : pc.due v = 0 ∨ ∃ k : LockKind, pc.due v = k.code)
    (hpc : (s.put p f lock v pc).PcOk p) : (s.put p f lock v pc).Ok := by
  have howed : (s.put p f lock v pc).owed p fd = pc.due v := by
    have ho : (s.put p f lock v pc).openfiles p fd = some f := hf.1
    have hp : (s.put p f lock v pc).pc p = pc := goto_pc_self pc
    have hv : ((s.put p f lock v pc).file f).holdingFlock = v := by
      simp [FileSys.put, setHolding, goto]
    simp only [FileSys.owed, ho, hp, hv]
    rcases hafter with rfl | ⟨ha, -⟩
    · rfl
    · rw [if_pos ha]
  have hp : (s.put p f lock v pc).pc p = pc := goto_pc_self pc
  have hl : LocalTo p fd s (s.put p f lock v pc) := by
    refine ⟨fun q hq => goto_pc_ne hq pc, hbefore, fun fd' he => ?_, fun _ _ _ => rfl,
      fun p' fd' g hd hg => ?_, hk⟩
    · rw [hp] at he
      rcases hafter with rfl | ⟨ha, -⟩
      · cases he
      · rw [ha] at he; cases he; rfl
    · have hne : g ≠ f := by
        rintro rfl
        obtain ⟨rfl, rfl⟩ := h.unique _ _ _ _ _ hg hf
        exact hd rfl
      simp [FileSys.put, setHolding, goto, hne]
  refine hl.ok h (fun k => by rw [howed]; exact hself k) (by rw [howed]; exact hdue) hpc
    fun g hg => ?_
  have hg' : g = f := Option.some.inj (hg.1.symm.trans hf.1)
  subst hg'
  obtain ⟨href, htype⟩ := h.live _ _ _ hf
  refine ⟨by simpa [FileSys.put, setHolding, goto] using href,
    by simpa [FileSys.put, setHolding, goto] using htype, fun p' fd' hl' => ?_⟩
  obtain ⟨rfl, rfl⟩ := h.unique _ _ _ _ _ hl' hf
  rfl

/-- A step that leaves the lock object alone and what is owed to the descriptor. -/
theorem Ok.put_same (h : s.Ok) (hf : s.Live p fd f)
    (hbefore : ∀ fd', (s.pc p).fd? = some fd' → fd' = fd) {v : BitVec 32} {pc : FilePc}
    (hafter : pc = .user ∨ pc.fd? = some fd ∧ ¬ pc.Closing fd) (hdue : pc.due v = s.owed p fd)
    (hpc : (s.put p f s.lock v pc).PcOk p) : (s.put p f s.lock v pc).Ok := by
  refine h.put hf hbefore hafter (.refl _) (fun k => ?_) ?_ hpc
  · rw [hdue]; exact h.granted p fd k
  · rw [hdue]; exact h.owed p fd

/-- What is owed to a descriptor its process works on. -/
theorem owed_eq_due (hf : s.openfiles p fd = some f) (hpc : (s.pc p).fd? = some fd) :
    s.owed p fd = (s.pc p).due (s.file f).holdingFlock := by
  simp only [owed, hf, if_pos hpc]

/-- A process outside the lock code owes its descriptors what their files record. -/
theorem owed_of_user (hf : s.openfiles p fd = some f) (hpc : s.pc p = .user) :
    s.owed p fd = (s.file f).holdingFlock := by
  simp [owed, hf, hpc, FilePc.fd?]

/-- A granted request is granted as one kind only. -/
theorem Ok.granted_iff (h : s.Ok) {k : LockKind} (hk : s.owed p fd = k.code) (k' : LockKind) :
    (p, fd) ∈ s.lock.granted k' ↔ k' = k := by
  rw [h.granted, hk]
  exact ⟨fun e => (LockKind.code_inj e).symm, fun e => e ▸ rfl⟩

/-- A descriptor that is owed nothing has no granted request. -/
theorem Ok.free (h : s.Ok) (ho : s.owed p fd = 0) : s.lock.Free p fd := fun k hk => by
  rw [h.granted, ho] at hk
  exact k.code_ne_zero hk.symm

/-- A step that keeps the invariant and does at most one step of the threads that share the
lock. -/
def Moves (s t : FileSys) : Prop :=
  t.Ok ∧ (t.lock = s.lock ∨ ∃ a, lockMachine.step s.lock a = some t.lock)

/-- The release of the lock a live descriptor is owed, for an unlock or a conversion. -/
theorem Ok.releaseThen (h : s.Ok) (hl : s.lock.Ok) (hf : s.Live p fd f)
    (hfd : (s.pc p).fd? = some fd) (hdue : s.owed p fd = (s.file f).holdingFlock)
    (hne : (s.file f).holdingFlock ≠ 0) (hout : s.lock.thread p = .out) {pc : Int → FilePc}
    (hafter : (pc 0).fd? = some fd ∧ ¬ (pc 0).Closing fd ∧ (pc 0).due (s.file f).holdingFlock = 0)
    (hpc : ∀ lock : LockSys, lock.thread p = .out →
      (s.put p f lock (s.file f).holdingFlock (pc 0)).PcOk p) :
    Moves s (s.releaseThen p fd (s.file f).holdingFlock pc) := by
  obtain ⟨k, hk⟩ : ∃ k : LockKind, s.owed p fd = k.code :=
    (h.owed p fd).resolve_left fun he => hne (hdue ▸ he)
  rw [hdue] at hk
  have hiff := h.granted_iff (hdue.trans hk)
  obtain ⟨hkeep, hfree⟩ := LockSys.release_granted hiff
  obtain ⟨-, hres, -⟩ := hl.agrees.release ((hiff k).2 rfl)
  have heq : s.releaseThen p fd (s.file f).holdingFlock pc =
      s.put p f (s.lock.release p fd k.code).1 (s.file f).holdingFlock (pc 0) := by
    rw [put_self, FileSys.releaseThen, hk]
    simp only [LockSys.release, hres]
  rw [heq]
  refine ⟨h.put hf (fun fd' he => ?_) (.inr ⟨hafter.1, hafter.2.1⟩) ?_ (fun k' => ?_)
    (.inl hafter.2.2) (hpc _ ((LockSys.release_thread _ _).1 hout)), .inr ⟨.release p fd k, ?_⟩⟩
  · rw [hfd] at he; cases he; rfl
  · exact ⟨hkeep, fun q _ => (LockSys.release_thread _ q).1, fun q _ =>
      (LockSys.release_thread _ q).2⟩
  · rw [hafter.2.2]
    exact ⟨fun he => absurd he (hfree k'), fun he => absurd he.symm k'.code_ne_zero⟩
  · simp only [lockMachine, if_pos (And.intro hout ((hiff k).2 rfl))]
    rfl

/-- The invariant does not depend on what calls return. -/
theorem Ok.leave {r : Int} (h : s.Ok) : (s.leave p r).Ok :=
  ⟨h.granted, h.owed, h.pcs, h.live, h.unique⟩

theorem Moves.leave {r : Int} (h : Moves s t) : Moves s (t.leave p r) := ⟨h.1.leave, h.2⟩

/-- The start of `file_flock`. -/
theorem Ok.fileFlock (h : s.Ok) (hs : s.fileFlock p fd operation = some t) : Moves s t := by
  unfold FileSys.fileFlock at hs
  split at hs
  case h_2 => cases hs
  case h_1 f hpc ho =>
    obtain rfl := Option.some.inj hs
    have hf : s.Live p fd f := ⟨ho, by rw [hpc]; exact id⟩
    have hbefore : ∀ fd', (s.pc p).fd? = some fd' → fd' = fd := by rw [hpc]; nofun
    have hout : s.lock.thread p = .out := by
      have := h.pcs p
      rwa [PcOk, hpc] at this
    have howed := owed_of_user ho hpc
    -- every branch stays or moves to a point that owes the descriptor what it owed before
    have hgo : ∀ pc : FilePc, pc.fd? = some fd ∧ ¬ pc.Closing fd →
        pc.due (s.file f).holdingFlock = (s.file f).holdingFlock → (s.goto p pc).PcOk p →
        Moves s (s.goto p pc) := by
      intro pc hafter hdue hok
      have heq : s.goto p pc = s.put p f s.lock (s.file f).holdingFlock pc := (put_self _ _).symm
      refine ⟨?_, .inl rfl⟩
      rw [heq] at hok ⊢
      exact h.put_same hf hbefore (.inr hafter) (hdue.trans howed.symm) hok
    have hstay : Moves s s := ⟨h, .inl rfl⟩
    split_ifs with h1 h2 h3 h4 h5
    · exact hstay.leave
    · refine hgo _ ⟨rfl, id⟩ rfl ?_
      rw [PcOk, goto_pc_self]
      exact ⟨ho, hout, h3⟩
    · exact hstay.leave
    · exact hstay.leave
    · refine hgo _ ⟨rfl, id⟩ rfl ?_
      rw [PcOk, goto_pc_self]
      exact ⟨ho, hout, h2, h4⟩
    · refine hgo _ ⟨rfl, id⟩ (not_not.1 h4).symm ?_
      rw [PcOk, goto_pc_self]
      exact ⟨ho, hout, h2, not_not.1 h4⟩

/-! ## Opening and closing -/

/-- The end of `sys_open`. -/
theorem Ok.sysOpen (h : s.Ok) (hs : s.sysOpen p fd f = some t) : Moves s t := by
  unfold FileSys.sysOpen at hs
  split at hs
  case h_2 => cases hs
  case h_1 hpc ho =>
    split_ifs at hs with href
    obtain rfl := Option.some.inj hs
    set t : FileSys := { s with file := _, openfiles := _ } with ht
    have hnot : ∀ p' fd', ¬ s.Live p' fd' f := by
      intro p' fd' hg
      have := (h.live _ _ _ hg).1
      omega
    have hopen : t.openfiles p fd = some f := by simp [ht]
    have howed : t.owed p fd = 0 := by rw [owed_of_user hopen hpc]; simp [ht]
    have hl : LocalTo p fd s t := by
      refine ⟨fun _ _ => rfl, by rw [hpc]; nofun, by rw [show t.pc p = .user from hpc]; nofun,
        fun p' fd' hd => ?_, fun p' fd' g _ hg => ?_, .refl _⟩
      · by_cases hp : p' = p
        · subst hp
          have hfd : fd' ≠ fd := fun he => hd (he ▸ rfl)
          simp [ht, hfd]
        · simp [ht, hp]
      · have hne : g ≠ f := fun he => hnot _ _ (he ▸ hg)
        simp [ht, hne]
    have hfree : s.lock.Free p fd := h.free (by simp [FileSys.owed, ho])
    refine ⟨hl.ok h (fun k => ?_) (.inl howed) ?_ fun g hg => ?_, .inl rfl⟩
    · rw [howed]
      exact ⟨fun he => absurd he (hfree k), fun he => absurd he.symm k.code_ne_zero⟩
    · have := h.pcs p
      rw [PcOk, hpc] at this
      rw [PcOk, show t.pc p = .user from hpc]
      exact this
    · have hg' : g = f := Option.some.inj (hg.1.symm.trans hopen)
      subst hg'
      exact ⟨by simp [ht], by simp [ht], fun p' fd' hg => absurd hg (hnot p' fd')⟩

/-- The table section of `file_close`: the descriptor keeps its lock through the copy `ff`. -/
theorem Ok.fileClose (h : s.Ok) (hs : s.fileClose p fd = some t) : Moves s t := by
  unfold FileSys.fileClose at hs
  split at hs
  case h_2 => cases hs
  case h_1 f hpc ho =>
    have hf : s.Live p fd f := ⟨ho, by rw [hpc]; exact id⟩
    obtain ⟨href, htype⟩ := h.live p fd f hf
    have hout : s.lock.thread p = .out := by
      have := h.pcs p
      rwa [PcOk, hpc] at this
    rw [href, if_neg (by decide), if_neg (by decide)] at hs
    obtain rfl := Option.some.inj hs
    set t := FileSys.goto _ p (.closing fd (s.file f)) with ht
    have htp : t.pc p = .closing fd (s.file f) := goto_pc_self _
    have howed : t.owed p fd = s.owed p fd := by
      rw [owed_of_user ho hpc]
      simp only [FileSys.owed, show t.openfiles p fd = some f from ho, htp, FilePc.fd?, FilePc.due,
        htype, if_true]
    have hl : LocalTo p fd s t := by
      refine ⟨fun q hq => goto_pc_ne hq _, by rw [hpc]; nofun, ?_, fun _ _ _ => rfl,
        fun p' fd' g hd hg => ?_, .refl _⟩
      · rw [htp]
        intro fd' he
        exact (Option.some.inj he).symm
      · have hne : g ≠ f := by
          rintro rfl
          obtain ⟨rfl, rfl⟩ := h.unique _ _ _ _ _ hg hf
          exact hd rfl
        simp [ht, goto, hne]
    refine ⟨hl.ok h (fun k => ?_) ?_ ?_ fun g hg => ?_, .inl rfl⟩
    · rw [howed]; exact h.granted p fd k
    · rw [howed]; exact h.owed p fd
    · rw [PcOk, htp]
      exact ⟨hout, f, ho⟩
    · exact absurd (by rw [htp]; exact rfl) hg.2

/-- The rest of `file_close`, with or without a release. -/
theorem Ok.closing {ff : LockFile} {lock : LockSys} (h : s.Ok) (hpc : s.pc p = .closing fd ff)
    (hk : Keeps p fd s.lock lock) (hfree : lock.Free p fd) (hout : lock.thread p = .out) :
    ({ s with lock }.goto p (.closed fd)).Ok := by
  set t := FileSys.goto _ p (.closed fd)
  have htp : t.pc p = .closed fd := goto_pc_self _
  have hp := h.pcs p
  rw [PcOk, hpc] at hp
  obtain ⟨-, f, ho⟩ := hp
  have howed : t.owed p fd = 0 := by
    simp only [FileSys.owed, show t.openfiles p fd = some f from ho, htp, FilePc.fd?, FilePc.due,
      if_true]
  have hl : LocalTo p fd s t := by
    refine ⟨fun q hq => goto_pc_ne hq _, ?_, ?_, fun _ _ _ => rfl, fun _ _ _ _ _ => rfl, hk⟩
    · rw [hpc]
      intro fd' he
      exact (Option.some.inj he).symm
    · rw [htp]
      intro fd' he
      exact (Option.some.inj he).symm
  refine hl.ok h (fun k => ?_) (.inl howed) ?_ fun g hg => absurd (by rw [htp]; exact rfl) hg.2
  · rw [howed]
    exact ⟨fun he => absurd he (hfree k), fun he => absurd he.symm k.code_ne_zero⟩
  · rw [PcOk, htp]
    exact ⟨hout, f, ho⟩

/-- The end of `sys_close`. -/
theorem Ok.closed (h : s.Ok) (hpc : s.pc p = .closed fd) :
    ({ s with
      openfiles := Function.update s.openfiles p (Function.update (s.openfiles p) fd none) }.goto p
        .user).Ok := by
  set t := FileSys.goto _ p .user with ht
  have htp : t.pc p = .user := goto_pc_self _
  have hp := h.pcs p
  rw [PcOk, hpc] at hp
  obtain ⟨hout, f, ho⟩ := hp
  have hopen : t.openfiles p fd = none := by simp [ht, goto]
  have howed : t.owed p fd = 0 := by simp [FileSys.owed, hopen]
  have hfree : s.lock.Free p fd := by
    refine h.free ?_
    rw [owed_eq_due ho (by rw [hpc]; rfl), hpc]
    rfl
  have hl : LocalTo p fd s t := by
    refine ⟨fun q hq => goto_pc_ne hq _, ?_, by rw [htp]; nofun, fun p' fd' hd => ?_,
      fun _ _ _ _ _ => rfl, .refl _⟩
    · rw [hpc]
      intro fd' he
      exact (Option.some.inj he).symm
    · by_cases hp : p' = p
      · subst hp
        have hfd : fd' ≠ fd := fun he => hd (he ▸ rfl)
        simp [ht, goto, hfd]
      · simp [ht, goto, hp]
  refine hl.ok h (fun k => ?_) (.inl howed) (by rw [PcOk, htp]; exact hout) fun g hg => ?_
  · rw [howed]
    exact ⟨fun he => absurd he (hfree k), fun he => absurd he.symm k.code_ne_zero⟩
  · exact absurd (hopen.symm.trans hg.1) nofun

end FileSys

end MCertikos
