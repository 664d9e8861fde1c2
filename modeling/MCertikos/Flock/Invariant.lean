import MCertikos.Flock.System

/-!
# The invariant of a shared lock object

`LockSys.Ok` relates the lock object, the threads and the granted requests in every reachable
state: the state and the holder count agree with the granted requests (`Agrees`), each waiting
counter is the number of threads in that wait loop, every thread that sleeps has its wait condition
true, and a waiting request is not granted. Every step keeps it (`LockStep.ok`), so it holds in
every reachable state (`LockSys.ok_of_reachable`).
-/

namespace MCertikos

open Transition Function

/-- The lock object agrees with the granted requests: it is free, or held shared by at least one
request, or held exclusively by exactly one; and the holder count is the number of shared
grants. -/
structure Agrees (fl : Flock) (granted : LockKind → Finset (Nat × Nat)) : Prop where
  inactive : fl.state = .inactive → granted .sh = ∅ ∧ granted .ex = ∅
  shared : fl.state = .shared → (granted .sh).Nonempty ∧ granted .ex = ∅
  exclusive : fl.state = .exclusive → granted .sh = ∅ ∧ (granted .ex).card = 1
  holders : fl.sharedHolders = (granted .sh).card

/-- The invariant. -/
structure LockSys.Ok (s : LockSys) : Prop where
  agrees : Agrees s.flock s.granted
  waiters : ∀ k, ∃ W : Finset Nat, (∀ p, p ∈ W ↔ ∃ tag w, s.thread p = .waiting k tag w) ∧
    s.flock.waiting k = W.card
  asleep : ∀ p k tag, s.thread p = .waiting k tag false → s.flock.Blocked k
  pending : ∀ p k tag w, s.thread p = .waiting k tag w → s.Free p tag

section
variable {fl fl' : Flock} {granted : LockKind → Finset (Nat × Nat)} {d : Nat × Nat}

/-! ## Grants and releases -/

/-- Only the state and the holder count matter. -/
theorem Agrees.congr (h : Agrees fl granted) (hs : fl'.state = fl.state)
    (hn : fl'.sharedHolders = fl.sharedHolders) : Agrees fl' granted :=
  ⟨fun e => h.inactive (hs ▸ e), fun e => h.shared (hs ▸ e), fun e => h.exclusive (hs ▸ e),
    hn ▸ h.holders⟩

/-- While a request is granted the lock object is held by its kind. -/
theorem Agrees.state_of_mem (h : Agrees fl granted) {k : LockKind} (hd : d ∈ granted k) :
    fl.state = match k with | .sh => .shared | .ex => .exclusive := by
  have hne : granted k ≠ ∅ := Finset.ne_empty_of_mem hd
  cases hs : fl.state with
  | inactive => cases k; exacts [absurd (h.inactive hs).1 hne, absurd (h.inactive hs).2 hne]
  | shared => cases k; exacts [rfl, absurd (h.shared hs).2 hne]
  | exclusive => cases k; exacts [absurd (h.exclusive hs).1 hne, rfl]

/-- Granting a request that does not have to wait. -/
theorem Agrees.grant (h : Agrees fl granted) {k : LockKind} (hb : ¬ fl.Blocked k)
    (hd : ∀ k, d ∉ granted k) :
    Agrees (fl.grant k) (update granted k (insert d (granted k))) := by
  cases k with
  | sh =>
    have hex : granted .ex = ∅ := by
      cases hs : fl.state with
      | inactive => exact (h.inactive hs).2
      | shared => exact (h.shared hs).2
      | exclusive => exact absurd (.inl hs) hb
    refine ⟨fun hs => (by cases hs), fun _ => ?_, fun hs => (by cases hs), ?_⟩
    · simp [hex]
    · simp [Flock.grant, Flock.grantShared, h.holders, hd .sh]
  | ex =>
    have hs : fl.state = .inactive := not_not.1 hb
    obtain ⟨hsh, hex⟩ := h.inactive hs
    refine ⟨fun hs => (by cases hs), fun hs => (by cases hs), fun _ => ?_, ?_⟩
    · simp [hsh, hex]
    · simp [Flock.grant, Flock.grantExclusive, h.holders]

/-- Releasing a granted request: the lock object agrees with what is left, and sleepers are woken
exactly when it becomes free. -/
theorem Agrees.release (h : Agrees fl granted) {k : LockKind} (hd : d ∈ granted k) :
    Agrees (fl.flockRelease k.code).1 (update granted k ((granted k).erase d)) ∧
      (fl.flockRelease k.code).2.2 = 0 ∧
      ((fl.flockRelease k.code).2.1 = true ∧ (fl.flockRelease k.code).1.state = .inactive ∨
        (fl.flockRelease k.code).2.1 = false ∧ (fl.flockRelease k.code).1.state = fl.state) := by
  have hs := h.state_of_mem hd
  cases k with
  | sh =>
    simp only at hs
    have hex := (h.shared hs).2
    have hpos : 0 < (granted .sh).card := Finset.card_pos.2 ⟨d, hd⟩
    have hcard : ((granted .sh).erase d).card = (granted .sh).card - 1 :=
      Finset.card_erase_of_mem hd
    have hlt : (0 : Int) < fl.sharedHolders := by rw [h.holders]; exact_mod_cast hpos
    simp only [LockKind.code_sh, Flock.flockRelease, if_true, hs, hlt, true_and]
    split_ifs with h0
    · -- the last shared holder leaves
      have hempty : (granted .sh).erase d = ∅ := by
        rw [h.holders] at h0
        exact Finset.card_eq_zero.1 (by omega)
      refine ⟨⟨fun _ => ?_, nofun, nofun, ?_⟩, rfl, .inl ⟨rfl, rfl⟩⟩
      · simp [hempty, hex]
      · simp [h0, hempty]
    · refine ⟨⟨nofun, fun _ => ⟨?_, by simpa using hex⟩, nofun, ?_⟩, rfl, .inr ⟨rfl, rfl⟩⟩
      · rw [h.holders] at h0
        simp only [update_self]
        exact Finset.card_pos.1 (by omega)
      · simp only [update_self, hcard, h.holders]
        omega
  | ex =>
    simp only at hs
    obtain ⟨hsh, hex⟩ := h.exclusive hs
    have hne : lockEx ≠ lockSh := by decide
    have hempty : (granted .ex).erase d = ∅ :=
      Finset.card_eq_zero.1 (by rw [Finset.card_erase_of_mem hd, hex])
    simp only [LockKind.code_ex, Flock.flockRelease, if_neg hne, if_true, hs]
    refine ⟨⟨fun _ => ?_, nofun, nofun, ?_⟩, trivial, .inl ⟨trivial, trivial⟩⟩
    · simp [hsh, hempty]
    · simp [h.holders]

/-- A release leaves the waiting counters alone. -/
@[simp] theorem Flock.flockRelease_waiting (t : BitVec 32) (k : LockKind) :
    (fl.flockRelease t).1.waiting k = fl.waiting k := by
  simp only [Flock.flockRelease]
  split_ifs <;> cases k <;> rfl

end

section
variable {s t : LockSys} {p pid tag : Nat} {k : LockKind}

/-! ## The steps keep the invariant -/

/-- Waking a thread does not take it out of its wait loop. -/
theorem ThreadPc.wake_waiting {pc : ThreadPc} :
    (∃ tag w, pc.wake = .waiting k tag w) ↔ ∃ tag w, pc = .waiting k tag w := by
  cases pc <;> simp [ThreadPc.wake]

/-- A thread that stays outside the wait loops, or stays in its own, does not change who waits. -/
theorem waiters_update {thread : Nat → ThreadPc} {pc : ThreadPc}
    (h : (∃ tag w, pc = .waiting k tag w) ↔ ∃ tag w, thread pid = .waiting k tag w) :
    (∃ tag w, update thread pid pc p = .waiting k tag w) ↔
      ∃ tag w, thread p = .waiting k tag w := by
  by_cases hp : p = pid
  · subst hp; simpa using h
  · simp [update_of_ne hp]

/-- One more thread waits. -/
theorem LockSys.Ok.waiters_enroll (h : s.Ok) (hpc : s.thread pid = .out) (k' : LockKind) :
    ∃ W : Finset Nat,
      (∀ p, p ∈ W ↔ ∃ tag' w,
        update s.thread pid (.waiting k tag false) p = .waiting k' tag' w) ∧
      (s.flock.enroll pid k).waiting k' = W.card := by
  obtain ⟨W, hW, hc⟩ := h.waiters k'
  by_cases hk : k' = k
  · subst hk
    have hn : pid ∉ W := by simp [hW, hpc]
    refine ⟨insert pid W, fun p => ?_, by simp [hc, hn]⟩
    by_cases hp : p = pid
    · subst hp; simp
    · simp [hp, hW]
  · refine ⟨W, fun p => ?_, by simp [hc, hk]⟩
    rw [hW p, waiters_update]
    simp [hpc, Ne.symm hk]

/-- One thread less waits. -/
theorem LockSys.Ok.waiters_leave (h : s.Ok) (hpc : s.thread pid = .waiting k tag true)
    (k' : LockKind) :
    ∃ W : Finset Nat,
      (∀ p, p ∈ W ↔ ∃ tag' w, update s.thread pid .out p = .waiting k' tag' w) ∧
      (s.flock.leave pid k).waiting k' = W.card := by
  obtain ⟨W, hW, hc⟩ := h.waiters k'
  by_cases hk : k' = k
  · subst hk
    have hm : pid ∈ W := (hW pid).2 ⟨_, _, hpc⟩
    refine ⟨W.erase pid, fun p => ?_, ?_⟩
    · by_cases hp : p = pid
      · subst hp; simp
      · simp [hp, hW]
    · have := Finset.card_pos.2 ⟨pid, hm⟩
      rw [Flock.leave_waiting, hc, Finset.card_erase_of_mem hm, if_pos rfl]
      omega
  · refine ⟨W, fun p => ?_, by simp [hc, hk]⟩
    rw [hW p, waiters_update]
    simp [hpc, Ne.symm hk]

/-- After a grant every thread that still sleeps is blocked: by a shared holder if it wants the
lock exclusively, by the writer otherwise; a shared grant means that no shared request was
blocked. -/
theorem Flock.Blocked.grant {fl fl' : Flock} {k k' : LockKind} (hb : ¬ fl.Blocked k)
    (hk' : fl.Blocked k') : (fl'.grant k).Blocked k' := by
  cases k with
  | ex =>
    cases k' with
    | sh => exact .inl rfl
    | ex => simp [Flock.Blocked, Flock.ExclusiveBlocked, Flock.grant, Flock.grantExclusive]
  | sh =>
    cases k' with
    | sh => exact absurd hk' hb
    | ex => simp [Flock.Blocked, Flock.ExclusiveBlocked, Flock.grant, Flock.grantShared]

/-- A thread starts to wait. -/
theorem LockSys.Ok.enroll (h : s.Ok) (hpc : s.thread pid = .out) (hf : s.Free pid tag)
    (hb : s.flock.Blocked k) :
    LockSys.Ok { s with
      flock := s.flock.enroll pid k
      thread := update s.thread pid (.waiting k tag false) } where
  agrees := h.agrees.congr (by simp) (by simp)
  waiters := h.waiters_enroll hpc
  asleep p k' tag' hp := by
    by_cases he : p = pid
    · subst he
      simp only [update_self, ThreadPc.waiting.injEq] at hp
      exact hp.1 ▸ hb.enroll
    · simp only [update_of_ne he] at hp
      exact (h.asleep p k' tag' hp).enroll
  pending p k' tag' w hp := by
    by_cases he : p = pid
    · subst he
      simp only [update_self, ThreadPc.waiting.injEq] at hp
      exact hp.2.1 ▸ hf
    · simp only [update_of_ne he] at hp
      exact h.pending p k' tag' w hp

/-- A woken thread finds the lock taken. -/
theorem LockSys.Ok.resleep (h : s.Ok) (hpc : s.thread pid = .waiting k tag true)
    (hb : s.flock.Blocked k) :
    LockSys.Ok { s with thread := update s.thread pid (.waiting k tag false) } where
  agrees := h.agrees
  waiters k' := by
    obtain ⟨W, hW, hc⟩ := h.waiters k'
    refine ⟨W, fun p => ?_, hc⟩
    rw [hW p, waiters_update]
    simp [hpc]
  asleep p k' tag' hp := by
    by_cases he : p = pid
    · subst he
      simp only [update_self, ThreadPc.waiting.injEq] at hp
      exact hp.1 ▸ hb
    · simp only [update_of_ne he] at hp
      exact h.asleep p k' tag' hp
  pending p k' tag' w hp := by
    by_cases he : p = pid
    · subst he
      simp only [update_self, ThreadPc.waiting.injEq] at hp
      exact hp.2.1 ▸ h.pending _ _ _ _ hpc
    · simp only [update_of_ne he] at hp
      exact h.pending p k' tag' w hp

/-- A request of another thread, or under another tag, is as free as it was before a grant. -/
theorem free_insert {granted : LockKind → Finset (Nat × Nat)} {tag' : Nat}
    (hf : ∀ k', (p, tag') ∉ granted k') (hne : (p, tag') ≠ (pid, tag)) (k' : LockKind) :
    (p, tag') ∉ update granted k (insert (pid, tag) (granted k)) k' := by
  by_cases hk : k' = k
  · subst hk
    rw [update_self, Finset.mem_insert]
    rintro (h | h)
    · exact hne h
    · exact hf _ h
  · rw [update_of_ne hk]
    exact hf k'

theorem LockSys.Ok.grant (h : s.Ok) (hpc : s.thread pid = .out) (hf : s.Free pid tag)
    (hb : ¬ s.flock.Blocked k) :
    LockSys.Ok { s with
      flock := s.flock.grant k
      granted := update s.granted k (insert (pid, tag) (s.granted k)) } where
  agrees := h.agrees.grant hb hf
  waiters k' := by simpa using h.waiters k'
  asleep p k' tag' hp := Flock.Blocked.grant hb (h.asleep p k' tag' hp)
  pending p k' tag' w hp := by
    refine free_insert (h.pending p k' tag' w hp) fun he => ?_
    simp only [Prod.mk.injEq] at he
    simp [he.1, hpc] at hp

/-- A woken thread gets the lock. -/
theorem LockSys.Ok.regrant (h : s.Ok) (hpc : s.thread pid = .waiting k tag true)
    (hb : ¬ s.flock.Blocked k) :
    LockSys.Ok
      { flock := (s.flock.leave pid k).grant k
        thread := update s.thread pid .out
        granted := update s.granted k (insert (pid, tag) (s.granted k)) } where
  agrees := by
    have ha : Agrees (s.flock.leave pid k) s.granted := h.agrees.congr (by simp) (by simp)
    refine ha.grant (fun hb' => hb ?_) (h.pending _ _ _ _ hpc)
    cases k with
    | ex => simpa [Flock.Blocked, Flock.ExclusiveBlocked] using hb'
    | sh => exact (Flock.blocked_congr (by simp) (by simp)).1 hb'
  waiters k' := by simpa using h.waiters_leave hpc k'
  asleep p k' tag' hp := by
    by_cases he : p = pid
    · subst he; simp at hp
    · simp only [update_of_ne he] at hp
      exact Flock.Blocked.grant hb (h.asleep p k' tag' hp)
  pending p k' tag' w hp := by
    by_cases he : p = pid
    · subst he; simp at hp
    · simp only [update_of_ne he] at hp
      exact free_insert (h.pending p k' tag' w hp) fun he' => he (Prod.mk.inj he').1

/-- A release keeps the invariant. -/
theorem LockSys.Ok.release (h : s.Ok) (hd : (pid, tag) ∈ s.granted k) :
    (s.release pid tag k.code).1.Ok := by
  obtain ⟨hagree, -, hwake⟩ := h.agrees.release hd
  have hfree : ∀ {p tag'}, s.Free p tag' → ∀ k',
      (p, tag') ∉ update s.granted k ((s.granted k).erase (pid, tag)) k' := by
    intro p tag' hf k' hm
    by_cases hk : k' = k
    · subst hk
      rw [update_self] at hm
      exact hf _ (Finset.mem_of_mem_erase hm)
    · rw [update_of_ne hk] at hm
      exact hf _ hm
  unfold LockSys.release
  rcases hwake with ⟨hw, hs⟩ | ⟨hw, hs⟩
  · -- the lock object became free and everybody was woken
    simp only [hw, if_true, kindOf_code]
    refine ⟨hagree, fun k' => ?_, fun p k' tag' hp => ?_, fun p k' tag' w hp => ?_⟩
    · obtain ⟨W, hW, hc⟩ := h.waiters k'
      exact ⟨W, fun p => by rw [hW p, ThreadPc.wake_waiting], by simpa using hc⟩
    · cases hpc : s.thread p <;> simp [hpc, ThreadPc.wake] at hp
    · cases hpc : s.thread p with
      | out => simp [hpc, ThreadPc.wake] at hp
      | waiting k₀ tag₀ w₀ =>
        simp only [hpc, ThreadPc.wake, ThreadPc.waiting.injEq] at hp
        exact hfree (hp.2.1 ▸ h.pending p k₀ tag₀ w₀ hpc)
  · simp only [hw, Bool.false_eq_true, if_false, kindOf_code]
    exact ⟨hagree, fun k' => by simpa using h.waiters k',
      fun p k' tag' hp => (Flock.blocked_congr hs (by simp)).2 (h.asleep p k' tag' hp),
      fun p k' tag' w hp => hfree (h.pending p k' tag' w hp)⟩

/-- Every step keeps the invariant. -/
theorem LockStep.ok (h : s.Ok) (hst : LockStep s t) : t.Ok := by
  cases hst with
  | refuse => exact h
  | enroll hpc hf hb => exact h.enroll hpc hf hb
  | resleep hpc hb => exact h.resleep hpc hb
  | grant hpc hf hb => exact h.grant hpc hf hb
  | regrant hpc hb => exact h.regrant hpc hb
  | release _ hd => exact h.release hd

/-- The invariant holds in every reachable state. -/
theorem LockSys.ok_of_reachable (h : lockMachine.Reachable s) : s.Ok := by
  refine h.invariant (fun s hs => ?_) fun s a t hok hst => (LockSys.step_cases hst).ok hok
  rw [show s = _ from hs]
  exact
    { agrees := ⟨fun _ => ⟨rfl, rfl⟩, fun e => (nomatch e), fun e => (nomatch e), rfl⟩
      waiters := fun k => ⟨∅, by simp, by cases k <;> rfl⟩
      asleep := fun p k tag hp => (nomatch hp)
      pending := fun p k tag w hp => (nomatch hp) }

end

end MCertikos
