import MCertikos.Flock.Ownership

/-!
# Accounting of a lock object through descriptors

Each critical section of a process keeps the ownership invariant and is at most one step of the
threads that share the lock object (`FileSys.Ok.advance`), so that along every run both the
invariant of the descriptors and that of the lock object hold (`FileSys.ok_of_reachable`). The
result is `flock_accounting`: the state of the lock object and its holder count are what the
granted locks say they are.
-/

namespace MCertikos

open Transition

namespace FileSys

variable {s t : FileSys} {p fd f : Nat} {operation : BitVec 32}

/-! ## The sections of `file_flock` -/

/-- A process that works on a descriptor works on no other. -/
theorem fd_eq_of_fd? (hfd : (s.pc p).fd? = some fd) :
    ∀ fd', (s.pc p).fd? = some fd' → fd' = fd := fun _ he => Option.some.inj (he.symm.trans hfd)

/-- A call of `flock_acquire` or a return to its wait loop, seen from the descriptor: the process
goes on to wait, or returns with the result. -/
theorem Ok.settles {r : LockSys × Flock.Outcome} (h : s.Ok) (hf : s.Live p fd f)
    (hfd : (s.pc p).fd? = some fd) (hheld : (s.file f).holdingFlock = 0)
    (hset : LockSys.Settles s.lock p fd r)
    (hsleep : r.2 = .sleep → ∃ k, lockType operation = LockKind.code k ∧
      r.1.thread p = .waiting k fd false)
    (hgrant : r.2 = .ret 0 → ∃ k, lockType operation = LockKind.code k ∧
      ∀ k', (p, fd) ∈ r.1.granted k' ↔ k' = k) :
    (r.2 = .sleep → ({ s with lock := r.1 }.goto p (.blocked fd f operation)).Ok) ∧
      ∀ v, r.2 = .ret v → ({ s with lock := r.1 }.goto p (.acquired fd f operation v)).Ok := by
  refine ⟨fun hr => ?_, fun v hr => ?_⟩
  · obtain ⟨k, hk, hw⟩ := hsleep hr
    have hfree := hset.sleep hr
    rw [← put_self (f := f), hheld]
    refine h.put hf (fd_eq_of_fd? hfd) (.inr ⟨rfl, id⟩) (.of_settles hset)
      (fun k' => ?_) (.inl rfl) ?_
    · exact ⟨fun he => absurd he (hfree k'), fun he => absurd he.symm k'.code_ne_zero⟩
    · rw [PcOk, FileSys.put, goto_pc_self]
      exact ⟨hf.1, by simp [goto, setHolding], k, false, hk, hw⟩
  · rw [← put_self (f := f), hheld]
    refine h.put hf (fd_eq_of_fd? hfd) (.inr ⟨rfl, id⟩) (.of_settles hset) (fun k' => ?_) ?_ ?_
    · by_cases hv : v = 0
      · subst hv
        obtain ⟨k, hk, hiff⟩ := hgrant hr
        simp only [FilePc.due, if_true, hk]
        rw [hiff]
        exact ⟨fun he => he ▸ rfl, fun he => (LockKind.code_inj he).symm⟩
      · have hfree := hset.failed v hr hv
        simp only [FilePc.due, if_neg hv]
        exact ⟨fun he => absurd he (hfree k'), fun he => absurd he.symm k'.code_ne_zero⟩
    · by_cases hv : v = 0
      · subst hv
        obtain ⟨k, hk, -⟩ := hgrant hr
        exact .inr ⟨k, by simp [FilePc.due, hk]⟩
      · exact .inl (by simp [FilePc.due, hv])
    · rw [PcOk, FileSys.put, goto_pc_self]
      refine ⟨hf.1, hset.out v hr, by simp [goto, setHolding], fun hv => ?_⟩
      obtain ⟨k, hk, -⟩ := hgrant (hv ▸ hr)
      exact ⟨k, hk⟩

/-- A process inside `file_flock` works on a descriptor that is live. -/
theorem live_of_pc {pc : FilePc} (hpc : s.pc p = pc) (hfd : pc.fd? = some fd)
    (hopen : ¬ pc.Closing fd) (ho : s.openfiles p fd = some f) : (s.pc p).fd? = some fd ∧
      s.Live p fd f ∧ s.owed p fd = pc.due (s.file f).holdingFlock := by
  subst hpc
  exact ⟨hfd, ⟨ho, hopen⟩, owed_eq_due ho hfd⟩

/-- Every critical section and every assignment inside `file_flock` and `file_close`. -/
theorem Ok.advance (h : s.Ok) (hl : s.lock.Ok) (hs : s.advance p = some t) : Moves s t := by
  have hp := h.pcs p
  unfold PcOk at hp
  unfold FileSys.advance at hs
  cases hpc : s.pc p with
  | user => rw [hpc] at hs; cases hs
  | unlocking fd f =>
    rw [hpc] at hs hp
    obtain rfl := Option.some.inj hs
    obtain ⟨ho, hout, hne⟩ := hp
    obtain ⟨hfd, hf, howed⟩ := live_of_pc hpc rfl id ho
    refine h.releaseThen hl hf hfd howed hne hout ⟨rfl, id, rfl⟩ fun lock hth => ?_
    rw [PcOk, FileSys.put, goto_pc_self]
    exact ⟨ho, hth, rfl⟩
  | unlocked fd f r =>
    rw [hpc] at hs hp
    obtain ⟨ho, hout, rfl⟩ := hp
    obtain rfl := Option.some.inj hs
    obtain ⟨hfd, hf, howed⟩ := live_of_pc hpc rfl id ho
    rw [if_pos rfl]
    refine Moves.leave ⟨h.put_same hf (fd_eq_of_fd? hfd) (.inl rfl) howed.symm ?_, .inl rfl⟩
    rw [PcOk, FileSys.put, goto_pc_self]
    exact hout
  | converting fd f operation =>
    rw [hpc] at hs hp
    obtain rfl := Option.some.inj hs
    obtain ⟨ho, hout, hun, hne⟩ := hp
    obtain ⟨hfd, hf, howed⟩ := live_of_pc hpc rfl id ho
    refine h.releaseThen hl hf hfd howed hne hout ⟨rfl, id, rfl⟩ fun lock hth => ?_
    rw [PcOk, FileSys.put, goto_pc_self]
    exact ⟨ho, hth, hun⟩
  | converted fd f operation =>
    rw [hpc] at hs hp
    obtain rfl := Option.some.inj hs
    obtain ⟨ho, hout, hun⟩ := hp
    obtain ⟨hfd, hf, howed⟩ := live_of_pc hpc rfl id ho
    refine ⟨h.put_same hf (fd_eq_of_fd? hfd) (.inr ⟨rfl, id⟩) howed.symm ?_, .inl rfl⟩
    rw [PcOk, FileSys.put, goto_pc_self]
    exact ⟨ho, hout, hun, by simp [goto, setHolding]⟩
  | acquiring fd f operation =>
    rw [hpc] at hs hp
    obtain ⟨ho, hout, hun, hheld⟩ := hp
    obtain ⟨hfd, hf, howed⟩ := live_of_pc hpc rfl id ho
    have hfree : s.lock.Free p fd := h.free howed
    obtain ⟨hset, hsleep, hgrant⟩ := LockSys.acquire_spec hfree hout hun
    obtain ⟨h1, h2⟩ := h.settles hf hfd hheld hset hsleep hgrant
    have hstep : lockMachine.step s.lock (.acquire p fd operation) =
        some (s.lock.acquire p fd operation).1 := if_pos ⟨hout, hfree⟩
    simp only at hs
    split at hs
    · next hr => obtain rfl := Option.some.inj hs; exact ⟨h1 hr, .inr ⟨_, hstep⟩⟩
    · next v hr => obtain rfl := Option.some.inj hs; exact ⟨h2 v hr, .inr ⟨_, hstep⟩⟩
  | blocked fd f operation =>
    rw [hpc] at hs hp
    obtain ⟨ho, hheld, k, w, hk, hw⟩ := hp
    obtain ⟨hfd, hf, howed⟩ := live_of_pc hpc rfl id ho
    cases w with
    | false =>
      rw [show s.lock.resume p = none by simp [LockSys.resume, hw]] at hs
      cases hs
    | true =>
      have hr : s.lock.resume p = some (s.lock.settle p fd k (s.lock.flock.loop p k)) := by
        simp [LockSys.resume, hw]
      obtain ⟨hset, hsleep, hgrant⟩ :=
        LockSys.settles_settle (hl.pending p k fd true hw) k (s.lock.flock.loop p k)
      have hstep : lockMachine.step s.lock (.resume p) =
          some (s.lock.settle p fd k (s.lock.flock.loop p k)).1 := by
        simp only [lockMachine, hr, Option.map_some]
      rw [hr] at hs
      generalize s.lock.settle p fd k (s.lock.flock.loop p k) = r at *
      obtain ⟨h1, h2⟩ := h.settles hf hfd hheld hset
        (fun he => ⟨k, hk, hsleep he⟩) (fun he => ⟨k, hk, hgrant he⟩)
      obtain ⟨lock, o⟩ := r
      cases o with
      | sleep =>
        obtain rfl := Option.some.inj hs
        have hsame : ({ s with lock } : FileSys) =
            { s with lock }.goto p (.blocked fd f operation) := by
          simp [goto, ← hpc]
        rw [hsame]
        exact ⟨h1 rfl, .inr ⟨_, hstep⟩⟩
      | ret v =>
        obtain rfl := Option.some.inj hs
        exact ⟨h2 v rfl, .inr ⟨_, hstep⟩⟩
  | acquired fd f operation v =>
    rw [hpc] at hs hp
    obtain ⟨ho, hout, hheld, -⟩ := hp
    obtain rfl := Option.some.inj hs
    obtain ⟨hfd, hf, howed⟩ := live_of_pc hpc rfl id ho
    have hput : ∀ v, FilePc.due v .user = s.owed p fd → Moves s (s.put p f s.lock v .user) := by
      intro v hv
      refine ⟨h.put_same hf (fd_eq_of_fd? hfd) (.inl rfl) hv ?_, .inl rfl⟩
      rw [PcOk, FileSys.put, goto_pc_self]
      exact hout
    by_cases hv : v = 0
    · rw [if_pos hv]
      exact (hput (lockType operation) (by rw [howed]; simp [FilePc.due, hv])).leave
    · have hsame : s.goto p .user = s.put p f s.lock (s.file f).holdingFlock .user :=
        (put_self _ _).symm
      rw [if_neg hv, hsame]
      exact (hput _ (by rw [howed]; simp [FilePc.due, hv, hheld])).leave
  | closing fd ff =>
    rw [hpc] at hs hp
    obtain ⟨hout, f, ho⟩ := hp
    have howed := owed_eq_due ho (by rw [hpc]; rfl)
    rw [hpc] at howed
    simp only at hs
    split_ifs at hs with hc
    · obtain rfl := Option.some.inj hs
      rw [FilePc.due, if_pos hc.1] at howed
      obtain ⟨k, hk⟩ := (h.owed p fd).resolve_left fun he => hc.2 (howed ▸ he)
      have hiff := h.granted_iff hk
      obtain ⟨hkeep, hfree⟩ := LockSys.release_granted hiff
      rw [← howed, hk]
      refine ⟨h.closing hpc ⟨hkeep, fun q _ => (LockSys.release_thread _ q).1,
        fun q _ => (LockSys.release_thread _ q).2⟩ hfree ((LockSys.release_thread _ _).1 hout),
        .inr ⟨.release p fd k, if_pos ⟨hout, (hiff k).2 rfl⟩⟩⟩
    · obtain rfl := Option.some.inj hs
      have hzero : s.owed p fd = 0 := by
        rw [howed, FilePc.due]
        split_ifs with ht
        · exact not_not.1 fun hne => hc ⟨ht, hne⟩
        · rfl
      exact ⟨h.closing hpc (.refl _) (h.free hzero) hout, .inl rfl⟩
  | closed fd =>
    rw [hpc] at hs
    obtain rfl := Option.some.inj hs
    exact ⟨h.closed hpc, .inl rfl⟩

/-! ## Whole runs -/

/-- Every step of the processes. -/
theorem Ok.step {a : FileAction} (h : s.Ok) (hl : s.lock.Ok) (hs : fileMachine.step s a = some t) :
    Moves s t := by
  cases a with
  | sysOpen p fd f => exact h.sysOpen hs
  | fileFlock p fd operation => exact h.fileFlock hs
  | fileClose p fd => exact h.fileClose hs
  | advance p => exact h.advance hl hs

/-- In every reachable state both invariants hold. -/
theorem ok_of_reachable (h : fileMachine.Reachable s) : s.Ok ∧ s.lock.Ok := by
  suffices hI : s.Ok ∧ lockMachine.Reachable s.lock from
    ⟨hI.1, LockSys.ok_of_reachable hI.2⟩
  refine Machine.Reachable.invariant (I := fun s => s.Ok ∧ lockMachine.Reachable s.lock)
    (fun s hs => ?_) (fun s a t hs ht => ?_) h
  · obtain ⟨hlock, hopen, hpc⟩ := hs
    have howed : ∀ p fd, s.owed p fd = 0 := fun p fd => by simp [owed, hopen]
    have hnot : ∀ p fd f, ¬ s.Live p fd f := fun p fd f hf => by simp [Live, hopen] at hf
    refine ⟨⟨fun p fd k => ?_, fun p fd => .inl (howed p fd), fun p => ?_,
      fun p fd f hf => absurd hf (hnot p fd f), fun p fd _ _ f hf => absurd hf (hnot p fd f)⟩,
      .init hlock⟩
    · rw [howed, show s.lock = _ from hlock]
      exact ⟨fun he => absurd he (Finset.notMem_empty _), fun he => absurd he.symm k.code_ne_zero⟩
    · rw [PcOk, hpc, show s.lock = _ from hlock]
  · obtain ⟨hok, hlock⟩ := hs.1.step (LockSys.ok_of_reachable hs.2) ht
    refine ⟨hok, ?_⟩
    rcases hlock with he | ⟨b, hb⟩
    · rw [he]; exact hs.2
    · exact .step hs.2 hb

end FileSys

/-- The lock object agrees with the granted locks read the other way round. -/
theorem Agrees.state_iff {fl : Flock} {granted : LockKind → Finset (Nat × Nat)}
    (h : Agrees fl granted) :
    (fl.state = .exclusive ↔ (granted .ex).card = 1 ∧ granted .sh = ∅) ∧
      (fl.state = .shared ↔ (granted .sh).Nonempty ∧ granted .ex = ∅) ∧
      (fl.state = .inactive ↔ granted .sh = ∅ ∧ granted .ex = ∅) := by
  cases hs : fl.state with
  | inactive =>
    obtain ⟨h1, h2⟩ := h.inactive hs
    simp [h1, h2]
  | shared =>
    obtain ⟨h1, h2⟩ := h.shared hs
    simp [h1, h2, h1.ne_empty]
  | exclusive =>
    obtain ⟨h1, h2⟩ := h.exclusive hs
    have hne : granted .ex ≠ ∅ := fun he => by simp [he] at h2
    simp [h1, h2, hne]

/-- In every state that processes reach through their descriptors, in any interleaving, the state
of the lock object and its holder count are those of the granted locks; a lock granted exclusively
is the only one; and once every descriptor is closed the lock object is free. -/
theorem flock_accounting {s : FileSys} (h : fileMachine.Reachable s) :
    (s.lock.flock.state = .exclusive ↔
        (s.lock.granted .ex).card = 1 ∧ s.lock.granted .sh = ∅) ∧
      (s.lock.flock.state = .shared ↔ (s.lock.granted .sh).Nonempty ∧ s.lock.granted .ex = ∅) ∧
      (s.lock.flock.state = .inactive ↔ s.lock.granted .sh = ∅ ∧ s.lock.granted .ex = ∅) ∧
      s.lock.flock.sharedHolders = (s.lock.granted .sh).card ∧
      (∀ d ∈ s.lock.granted .ex, ∀ k, ∀ d' ∈ s.lock.granted k, k = .ex ∧ d' = d) ∧
      ((∀ p fd, s.openfiles p fd = none) →
        s.lock.flock.state = .inactive ∧ s.lock.flock.sharedHolders = 0) := by
  obtain ⟨hok, hlock⟩ := FileSys.ok_of_reachable h
  obtain ⟨hex, hsh, hin⟩ := hlock.agrees.state_iff
  refine ⟨hex, hsh, hin, hlock.agrees.holders, fun d hd k d' hd' => ?_, fun hclosed => ?_⟩
  · have hs := hlock.agrees.state_of_mem hd
    obtain ⟨h1, h2⟩ := hlock.agrees.exclusive hs
    cases k with
    | sh => simp [h1] at hd'
    | ex => exact ⟨rfl, Finset.card_le_one.1 h2.le d' hd' d hd⟩
  · have howed : ∀ p fd, s.owed p fd = 0 := fun p fd => by simp [FileSys.owed, hclosed]
    have hempty : ∀ k, s.lock.granted k = ∅ := fun k =>
      Finset.eq_empty_of_forall_notMem fun d hd => hok.free (howed d.1 d.2) k hd
    refine ⟨hin.2 ⟨hempty _, hempty _⟩, ?_⟩
    rw [hlock.agrees.holders, hempty]
    rfl

/-- Two processes open the inode; the first locks it shared and asks to convert to exclusive, and
between the two halves of the conversion the second locks it shared. -/
theorem flock_accounting_conversion :
    ∃ s, fileMachine.Reachable s ∧ s.pc 1 = .converted 3 0 lockEx ∧
      s.lock.granted .sh = {(2, 3)} ∧ s.lock.flock.sharedHolders = 1 := by
  have h₀ : fileMachine.Reachable
      { lock := { flock := flockInit, thread := fun _ => .out, granted := fun _ => ∅ }
        file := fun _ => { type := .none, ref := 0, holdingFlock := 0 }
        openfiles := fun _ _ => none
        pc := fun _ => .user
        ret := fun _ => 0 } := .init ⟨rfl, fun _ _ => rfl, fun _ => rfl⟩
  have h₁ := h₀.step (a := .sysOpen 1 3 0) rfl
  have h₂ := h₁.step (a := .sysOpen 2 3 1) rfl
  have h₃ := h₂.step (a := .fileFlock 1 3 lockSh) rfl
  have h₄ := h₃.step (a := .advance 1) rfl
  have h₅ := h₄.step (a := .advance 1) rfl
  have h₆ := h₅.step (a := .fileFlock 1 3 lockEx) rfl
  have h₇ := h₆.step (a := .fileFlock 2 3 lockSh) rfl
  have h₈ := h₇.step (a := .advance 2) rfl
  have h₉ := h₈.step (a := .advance 1) rfl
  refine ⟨_, h₉, rfl, rfl, ?_⟩
  exact (flock_accounting h₉).2.2.2.1.trans rfl

end MCertikos
