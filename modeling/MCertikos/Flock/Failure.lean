import MCertikos.Flock.File

/-!
# Calls of `file_flock` that fail

`LockFile.fileFlock` is `file_flock` as one call, without a step of another thread in between: what
it does to the open file and to the lock object, and its result. The call of one process in
`fileMachine` and its next steps compute it (`FileSys.fileFlock_alone`).

A conversion gives up the lock of the file before it asks for the other one, and does not take it
back when the request is refused. A call that fails and is no conversion has no effect.
-/

namespace MCertikos

open Transition

/-- The request of a file that holds no lock. Reference: the end of `file_flock`
(`kern/fs/file.c:216`). -/
def LockFile.acquireNew (f : LockFile) (fl : Flock) (pid : Nat) (operation : BitVec 32) :
    LockFile × Flock × Flock.Outcome :=
  let r := fl.flockAcquire pid operation
  (if r.2 = .ret 0 then { f with holdingFlock := lockType operation } else f, r)

/-- Reference: `file_flock` (`kern/fs/file.c:178`). -/
def LockFile.fileFlock (f : LockFile) (fl : Flock) (pid : Nat) (operation : BitVec 32) :
    LockFile × Flock × Flock.Outcome :=
  if f.type ≠ .inode then (f, fl, .ret (-1))
  else if lockType operation = lockUn then
    if f.holdingFlock ≠ 0 then
      let r := fl.flockRelease f.holdingFlock
      (if r.2.2 = 0 then { f with holdingFlock := 0 } else f, r.1, .ret r.2.2)
    else (f, fl, .ret 0)
  else if f.holdingFlock ≠ 0 then
    if f.holdingFlock = lockType operation then (f, fl, .ret 0)
    else
      -- the result of this release is not looked at
      { f with holdingFlock := 0 }.acquireNew (fl.flockRelease f.holdingFlock).1 pid operation
  else f.acquireNew fl pid operation

/-- The call gives up the lock of the file to ask for another one. -/
def LockFile.Converts (f : LockFile) (operation : BitVec 32) : Prop :=
  f.type = .inode ∧ lockType operation ≠ lockUn ∧ f.holdingFlock ≠ 0 ∧
    f.holdingFlock ≠ lockType operation

instance (f : LockFile) (operation : BitVec 32) : Decidable (f.Converts operation) :=
  inferInstanceAs (Decidable (_ ∧ _))

/-! ## The call as steps of one process -/

@[simp] theorem LockSys.acquire_flock (s : LockSys) (pid tag : Nat) (operation : BitVec 32) :
    (s.acquire pid tag operation).1.flock = (s.flock.flockAcquire pid operation).1 := by
  unfold LockSys.acquire
  split
  · rcases s.flock.flockAcquire pid operation with ⟨fl, _ | _⟩ <;> rfl
  · rfl

@[simp] theorem LockSys.acquire_outcome (s : LockSys) (pid tag : Nat) (operation : BitVec 32) :
    (s.acquire pid tag operation).2 = (s.flock.flockAcquire pid operation).2 := by
  unfold LockSys.acquire
  split
  · rcases s.flock.flockAcquire pid operation with ⟨fl, _ | _⟩ <;> rfl
  · rfl

namespace FileSys

variable {s t u : FileSys} {p fd f : Nat} {operation : BitVec 32}

/-- The process is back from the call with its effect and its result, or it sleeps in it. -/
structure Ends (t : FileSys) (p fd f : Nat) (operation : BitVec 32)
    (r : LockFile × Flock × Flock.Outcome) : Prop where
  file : t.file f = r.1
  flock : t.lock.flock = r.2.1
  pc : t.pc p = if r.2.2 = .sleep then .blocked fd f operation else .user
  ret : ∀ v, r.2.2 = .ret v → t.ret p = v

/-- The process `p` goes on with its call, and no other process has a step. -/
abbrev GoesOn (p : Nat) : FileSys → FileSys → Prop := fileMachine.Runs fun _ a => a = .advance p

/-- A process goes on with its call. -/
theorem GoesOn.advance (h : GoesOn p s t) (hu : t.advance p = some u) : GoesOn p s u :=
  .tail h rfl hu

@[simp] theorem leave_ret (s : FileSys) (p : Nat) (v : Int) : (s.leave p v).ret p = v :=
  Function.update_self ..

@[simp] theorem goto_pc (s : FileSys) (p : Nat) (pc : FilePc) : (s.goto p pc).pc p = pc :=
  Function.update_self ..

theorem advance_unlocking (h : s.pc p = .unlocking fd f) :
    s.advance p = some (s.releaseThen p fd (s.file f).holdingFlock (.unlocked fd f)) := by
  simp only [advance, h]

theorem advance_unlocked {v : Int} (h : s.pc p = .unlocked fd f v) :
    s.advance p = some (((if v = 0 then s.setHolding f 0 else s).goto p .user).leave p v) := by
  simp only [advance, h]

theorem advance_converting (h : s.pc p = .converting fd f operation) :
    s.advance p = some (s.releaseThen p fd (s.file f).holdingFlock
      fun _ => .converted fd f operation) := by
  simp only [advance, h]

theorem advance_converted (h : s.pc p = .converted fd f operation) :
    s.advance p = some ((s.setHolding f 0).goto p (.acquiring fd f operation)) := by
  simp only [advance, h]

theorem advance_acquired {v : Int} (h : s.pc p = .acquired fd f operation v) :
    s.advance p = some
      (((if v = 0 then s.setHolding f (lockType operation) else s).goto p .user).leave p v) := by
  simp only [advance, h]

theorem advance_acquiring (h : s.pc p = .acquiring fd f operation) :
    s.advance p = some ({ s with lock := (s.lock.acquire p fd operation).1 }.goto p
      (match (s.lock.flock.flockAcquire p operation).2 with
        | .sleep => .blocked fd f operation
        | .ret v => .acquired fd f operation v)) := by
  rw [← s.lock.acquire_outcome p fd operation]
  simp only [advance, h]
  split <;> simp_all

/-- The last part of the call, from `flock_acquire` on. -/
theorem acquireNew_alone (h : GoesOn p s t) (hpc : t.pc p = .acquiring fd f operation) :
    ∃ u, GoesOn p s u ∧
      u.Ends p fd f operation ((t.file f).acquireNew t.lock.flock p operation) := by
  have hacq := advance_acquiring hpc
  cases hr : (t.lock.flock.flockAcquire p operation).2 with
  | sleep =>
    rw [hr] at hacq
    refine ⟨_, h.advance hacq, ?_, ?_, ?_, ?_⟩ <;> simp [LockFile.acquireNew, hr] <;> simp [goto]
  | ret v =>
    rw [hr] at hacq
    refine ⟨_, (h.advance hacq).advance (advance_acquired (goto_pc ..)), ?_, ?_, ?_, ?_⟩ <;>
      by_cases hv : v = 0 <;> simp [LockFile.acquireNew, hr, hv] <;> simp [goto, setHolding, leave]

/-- A process that calls `file_flock`, and whose steps are the next ones, computes
`LockFile.fileFlock`. -/
theorem fileFlock_alone (hpc : s.pc p = .user) (hfd : s.openfiles p fd = some f)
    (operation : BitVec 32) :
    ∃ s' t, fileMachine.step s (.fileFlock p fd operation) = some s' ∧ GoesOn p s' t ∧
      t.Ends p fd f operation ((s.file f).fileFlock s.lock.flock p operation) := by
  simp only [fileMachine, FileSys.fileFlock, hpc, hfd, Option.some.injEq, exists_and_left,
    exists_eq_left']
  unfold LockFile.fileFlock
  -- a call that returns at once
  have hleave : ∀ v fl, fl = s.lock.flock → ∃ t, GoesOn p (s.leave p v) t ∧
      t.Ends p fd f operation (s.file f, fl, .ret v) := by
    rintro v _ rfl
    refine ⟨_, .refl, rfl, rfl, hpc, fun w hw => ?_⟩
    rw [leave_ret]
    exact Flock.Outcome.ret.inj hw
  by_cases htype : (s.file f).type ≠ .inode
  · rw [if_pos htype, if_pos htype]
    exact hleave _ _ rfl
  rw [if_neg htype, if_neg htype]
  by_cases hun : lockType operation = lockUn
  · rw [if_pos hun, if_pos hun]
    by_cases hh : (s.file f).holdingFlock ≠ 0
    · rw [if_pos hh, if_pos hh]
      have hrel := GoesOn.advance .refl
        (advance_unlocking (s := s.goto p (.unlocking fd f)) (goto_pc ..))
      refine ⟨_, hrel.advance (advance_unlocked (goto_pc ..)), ?_, ?_, ?_, ?_⟩ <;>
        by_cases hr : (s.lock.flock.flockRelease (s.file f).holdingFlock).2.2 = 0 <;>
        simp [releaseThen, goto, setHolding, leave, LockSys.release, hr]
    · rw [if_neg hh, if_neg hh]
      exact hleave _ _ rfl
  rw [if_neg hun, if_neg hun]
  by_cases hh : (s.file f).holdingFlock ≠ 0
  · rw [if_pos hh, if_pos hh]
    by_cases hsame : (s.file f).holdingFlock = lockType operation
    · rw [if_pos hsame, if_pos hsame]
      exact hleave _ _ rfl
    · rw [if_neg hsame, if_neg hsame]
      have hrel := GoesOn.advance .refl
        (advance_converting (s := s.goto p (.converting fd f operation)) (goto_pc ..))
      have hconv := hrel.advance (advance_converted (goto_pc ..))
      obtain ⟨t, ht, hends⟩ := acquireNew_alone hconv (goto_pc ..)
      refine ⟨t, ht, ?_⟩
      simpa [goto, setHolding, releaseThen, LockSys.release] using hends
  · rw [if_neg hh, if_neg hh]
    obtain ⟨t, ht, hends⟩ :=
      acquireNew_alone (t := s.goto p (.acquiring fd f operation)) .refl (goto_pc ..)
    exact ⟨t, ht, hends⟩

/-- Process 0 holds a shared lock and asks for an exclusive one: it gives up the lock that it has,
gets the other one, and the call returns 0. -/
theorem fileFlock_alone_converts : ∃ s s' t : FileSys, (s.file 0).holdingFlock = lockSh ∧
    fileMachine.step s (.fileFlock 0 0 lockEx) = some s' ∧ GoesOn 0 s' t ∧
    (t.file 0).holdingFlock = lockEx ∧ t.pc 0 = .user ∧ t.ret 0 = 0 := by
  obtain ⟨s, hpc, hfd, hfile, hlock⟩ : ∃ s : FileSys, s.pc 0 = .user ∧ s.openfiles 0 0 = some 0 ∧
      s.file 0 = ⟨.inode, 1, lockSh⟩ ∧
      s.lock.flock = (flockInit.flockAcquire 0 lockSh).1 :=
    ⟨⟨⟨(flockInit.flockAcquire 0 lockSh).1, fun _ => .out, fun _ => ∅⟩,
      fun _ => ⟨.inode, 1, lockSh⟩, fun _ _ => some 0, fun _ => .user, fun _ => -1⟩,
      rfl, rfl, rfl, rfl⟩
  obtain ⟨s', t, hs, ht, hends⟩ := fileFlock_alone hpc hfd lockEx
  rw [hfile, hlock] at hends
  refine ⟨s, s', t, by rw [hfile], hs, ht, ?_, ?_, ?_⟩
  · rw [hends.file]
    decide
  · rw [hends.pc, if_neg (by decide)]
  · exact hends.ret 0 (by decide)

end FileSys

/-! ## What a failed call leaves -/

/-- A request that fails leaves the lock object alone. -/
theorem Flock.flockAcquire_failed {fl : Flock} {pid : Nat} {operation : BitVec 32}
    (h : (fl.flockAcquire pid operation).2 = .ret (-1)) :
    (fl.flockAcquire pid operation).1 = fl := by
  cases hk : kindOf (lockType operation) with
  | none => exact (Flock.flockAcquire_of_kindOf_none hk).1
  | some k =>
    rw [Flock.flockAcquire_eq (kindOf_eq_some hk)] at h ⊢
    split_ifs at h ⊢ <;> simp_all

/-- A release that fails leaves the lock object alone. -/
theorem Flock.flockRelease_failed {fl : Flock} {v : BitVec 32}
    (h : (fl.flockRelease v).2.2 = -1) : (fl.flockRelease v).1 = fl := by
  by_cases hsh : v = lockSh
  · -- a release of a shared lock never fails
    simp only [Flock.flockRelease, if_pos hsh] at h
    split_ifs at h
  · by_cases hex : v = lockEx
    · simp only [Flock.flockRelease, if_neg hsh, if_pos hex] at h
      split_ifs at h
    · simp only [Flock.flockRelease, if_neg hsh, if_neg hex]

namespace LockFile

variable {f : LockFile} {fl : Flock} {pid : Nat} {operation : BitVec 32}

theorem acquireNew_failed (h : (f.acquireNew fl pid operation).2.2 = .ret (-1)) :
    f.acquireNew fl pid operation = (f, fl, .ret (-1)) := by
  have hr : (fl.flockAcquire pid operation).2 = .ret (-1) := h
  have hfl := Flock.flockAcquire_failed hr
  have hne : (Flock.Outcome.ret (-1)) ≠ .ret 0 := by decide
  simp only [acquireNew, hr, if_neg hne]
  exact congrArg (Prod.mk f) (Prod.ext hfl hr)

/-- A conversion that fails has dropped the lock of the file. -/
theorem Converts.failed (hc : f.Converts operation)
    (h : (f.fileFlock fl pid operation).2.2 = .ret (-1)) :
    f.fileFlock fl pid operation =
      ({ f with holdingFlock := 0 }, (fl.flockRelease f.holdingFlock).1, .ret (-1)) := by
  obtain ⟨htype, hun, hh, hne⟩ := hc
  unfold fileFlock at h ⊢
  rw [if_neg (not_not.2 htype), if_neg hun, if_pos hh, if_neg hne] at h ⊢
  exact acquireNew_failed h

/-- A call that fails and is no conversion changes neither the file nor the lock object. -/
theorem failed_flock_unchanged (f : LockFile) (fl : Flock) (pid : Nat) (operation : BitVec 32)
    (hc : ¬ f.Converts operation) (h : (f.fileFlock fl pid operation).2.2 = .ret (-1)) :
    (f.fileFlock fl pid operation).1 = f ∧ (f.fileFlock fl pid operation).2.1 = fl := by
  unfold fileFlock at h ⊢
  by_cases htype : f.type ≠ .inode
  · rw [if_pos htype]
    exact ⟨rfl, rfl⟩
  rw [if_neg htype] at h ⊢
  by_cases hun : lockType operation = lockUn
  · rw [if_pos hun] at h ⊢
    by_cases hh : f.holdingFlock ≠ 0
    · rw [if_pos hh] at h ⊢
      have hr : (fl.flockRelease f.holdingFlock).2.2 = -1 := Flock.Outcome.ret.inj h
      have hne : (fl.flockRelease f.holdingFlock).2.2 ≠ 0 := by rw [hr]; decide
      exact ⟨if_neg hne, Flock.flockRelease_failed hr⟩
    · rw [if_neg hh]
      exact ⟨rfl, rfl⟩
  rw [if_neg hun] at h ⊢
  by_cases hh : f.holdingFlock ≠ 0
  · rw [if_pos hh] at h ⊢
    have hsame : f.holdingFlock = lockType operation := by
      by_contra hne
      exact hc ⟨not_not.1 htype, hun, hh, hne⟩
    rw [if_pos hsame]
    exact ⟨rfl, rfl⟩
  · rw [if_neg hh] at h ⊢
    rw [acquireNew_failed h]
    exact ⟨rfl, rfl⟩

/-- A file as `sys_open` makes it. -/
def opened : LockFile := { type := .inode, ref := 1, holdingFlock := 0 }

/-- A non-blocking exclusive request is refused while another file has a shared lock. -/
theorem failed_flock_unchanged_refused :
    let fl := (opened.fileFlock flockInit 1 lockSh).2.1
    (opened.fileFlock fl 2 (lockEx ||| lockNb)).2.2 = .ret (-1) ∧
      (opened.fileFlock fl 2 (lockEx ||| lockNb)).1 = opened ∧
      (opened.fileFlock fl 2 (lockEx ||| lockNb)).2.1 = fl :=
  ⟨by decide, failed_flock_unchanged _ _ _ _ (by decide) (by decide)⟩

/-- A file with a shared lock loses it to a call with the invalid operation 3. With a second file
that has a shared lock it loses it to a non-blocking upgrade. -/
theorem failed_conversion_drops_lock :
    let a := opened.fileFlock flockInit 1 lockSh
    let b := opened.fileFlock a.2.1 2 lockSh
    let invalid := a.1.fileFlock a.2.1 1 3#32
    let upgrade := a.1.fileFlock b.2.1 1 (lockEx ||| lockNb)
    (a.1.holdingFlock = lockSh ∧ a.2.1.state = .shared ∧ a.2.1.sharedHolders = 1) ∧
      (invalid.2.2 = .ret (-1) ∧ invalid.1.holdingFlock = 0 ∧ invalid.2.1.state = .inactive ∧
        invalid.2.1.sharedHolders = 0) ∧
      b.2.1.sharedHolders = 2 ∧
      (upgrade.2.2 = .ret (-1) ∧ upgrade.1.holdingFlock = 0 ∧ upgrade.2.1.state = .shared ∧
        upgrade.2.1.sharedHolders = 1) := by
  decide

end LockFile

end MCertikos
