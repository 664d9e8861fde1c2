import MCertikos.Flock.Invariant

/-!
# Waiting requests

Two results about the requests that wait for a lock object. `no_lost_wakeup`: a thread that sleeps
always has a reason to, so no release was missed and the waiters are never all asleep with nobody
left to wake them. `writer_priority`: from the step that enrolls an exclusive request until that
request is granted, no shared request is granted. Both read off the invariant `LockSys.Ok` and the
list `LockStep` of what a step can do.
-/

namespace MCertikos

open Transition

section
variable {s t u : LockSys} {pid tag : Nat}

/-- While a request for the exclusive lock waits, the counter of waiting writers is positive. -/
theorem LockSys.Ok.waitingExclusive_pos {w : Bool} (h : s.Ok)
    (hp : s.thread pid = .waiting .ex tag w) : 0 < s.flock.waitingExclusive := by
  obtain ⟨W, hW, hc⟩ := h.waiters .ex
  have hcard := Finset.card_pos.2 ⟨pid, (hW pid).2 ⟨_, _, hp⟩⟩
  have hw : s.flock.waitingExclusive = W.card := hc
  omega

/-- When no thread waits for the exclusive lock, the counter of waiting writers is zero. -/
theorem LockSys.Ok.waitingExclusive_eq_zero (h : s.Ok)
    (hp : ∀ p tag w, s.thread p ≠ .waiting .ex tag w) : s.flock.waitingExclusive = 0 := by
  obtain ⟨W, hW, hc⟩ := h.waiters .ex
  have hempty : W = ∅ := Finset.eq_empty_of_forall_notMem fun p hm => by
    obtain ⟨tag, w, hpc⟩ := (hW p).1 hm
    exact hp p tag w hpc
  simpa [hempty, Flock.waiting] using hc

/-- A lock object that is not free has a holder. -/
theorem Agrees.exists_granted {fl : Flock} {granted : LockKind → Finset (Nat × Nat)}
    (h : Agrees fl granted) (hs : fl.state ≠ .inactive) : ∃ k d, d ∈ granted k := by
  cases hst : fl.state with
  | inactive => exact absurd hst hs
  | shared => exact ⟨.sh, (h.shared hst).1⟩
  | exclusive =>
    have hc := (h.exclusive hst).2
    exact ⟨.ex, Finset.card_pos.1 (by omega)⟩

/-! ## No lost wake-up -/

/-- A thread that is asleep and not yet woken still has its wait condition true, and when there are
waiters and all of them are asleep, some request is still granted. Reference: `try_acquire_shared`,
`try_acquire_exclusive` and `flock_release` (`kern/flock/flock.c:75`, `:107`, `:171`). -/
theorem no_lost_wakeup (h : lockMachine.Reachable s) :
    (∀ p tag, s.thread p = .waiting .ex tag false → s.flock.state ≠ .inactive) ∧
    (∀ p tag, s.thread p = .waiting .sh tag false →
      s.flock.state = .exclusive ∨ 0 < s.flock.waitingExclusive) ∧
    ((∃ p k tag w, s.thread p = .waiting k tag w) →
      (∀ p k tag w, s.thread p = .waiting k tag w → w = false) → ∃ k d, d ∈ s.granted k) := by
  have hok := LockSys.ok_of_reachable h
  refine ⟨fun p tag hp => hok.asleep p .ex tag hp, fun p tag hp => hok.asleep p .sh tag hp,
    fun ⟨p, k, tag, w, hp⟩ hall => hok.agrees.exists_granted ?_⟩
  obtain rfl := hall p k tag w hp
  have hb := hok.asleep p k tag hp
  cases k with
  | ex => exact hb
  | sh =>
    rcases hb with hb | hb
    · rw [hb]; nofun
    · -- some writer waits; it is asleep too, hence blocked by a holder
      by_contra hs
      refine absurd (hok.waitingExclusive_eq_zero fun q tag' w' hq => ?_) hb.ne'
      obtain rfl := hall q .ex tag' w' hq
      exact hok.asleep q .ex tag' hq hs

/-- Thread 1 holds the lock shared and thread 2 sleeps for it exclusively: the holder is thread
1. -/
theorem no_lost_wakeup_writer_behind_reader :
    ∃ s, lockMachine.Reachable s ∧ s.thread 2 = .waiting .ex 0 false ∧
    s.flock.state ≠ .inactive := by
  have h₀ : lockMachine.Reachable
      { flock := flockInit, thread := fun _ => .out, granted := fun _ => ∅ } := .init rfl
  have h₁ := h₀.step (a := .acquire 1 0 lockSh) rfl
  have h₂ := h₁.step (a := .acquire 2 0 lockEx) rfl
  exact ⟨_, h₂, rfl, (no_lost_wakeup h₂).1 2 0 rfl⟩

/-! ## Writer priority -/

/-- A step taken while a writer waits grants no shared request. -/
theorem LockStep.shared_le (hst : LockStep s t) (hw : 0 < s.flock.waitingExclusive) :
    t.granted .sh ⊆ s.granted .sh := by
  have hsh : s.flock.Blocked .sh := .inr hw
  cases hst with
  | refuse | enroll | resleep => exact subset_rfl
  | @grant pid tag k _ _ hb | @regrant pid tag k _ hb =>
    cases k with
    | sh => exact absurd hsh hb
    | ex => simp
  | @release pid tag k _ _ =>
    simp only [LockSys.release, kindOf_code]
    cases k with
    | sh => simpa using Finset.erase_subset _ _
    | ex => simp

/-- The thread `pid` waits for the exclusive lock under `tag`. -/
def LockSys.WaitsExclusive (pid tag : Nat) (s : LockSys) : Prop :=
  ∃ w, s.thread pid = .waiting .ex tag w

/-- No shared request is granted while a writer waits: across a step taken with
`waiting_exclusive > 0` the shared holders do not grow, and along every run during which a given
exclusive request waits, from its registration on, the shared holders only leave and the next grant
is an exclusive one. Reference: `try_acquire_shared` (`kern/flock/flock.c:75`); Writer Priority
(`FLOCK_IMPLEMENTATION.md:196`). -/
theorem writer_priority (hs : lockMachine.Reachable s) :
    (∀ a t, lockMachine.step s a = some t → 0 < s.flock.waitingExclusive →
      t.granted .sh ⊆ s.granted .sh ∧ t.flock.sharedHolders ≤ s.flock.sharedHolders) ∧
    ∀ pid tag t, lockMachine.Runs (fun r _ => r.WaitsExclusive pid tag) s t →
      (t.granted .sh ⊆ s.granted .sh ∧ t.flock.sharedHolders ≤ s.flock.sharedHolders) ∧
      ∀ a u, t.WaitsExclusive pid tag → lockMachine.step t a = some u →
        ∀ k d, d ∈ u.granted k → d ∉ t.granted k → k = .ex := by
  have hle : ∀ {s t : LockSys}, s.Ok → t.Ok → t.granted .sh ⊆ s.granted .sh →
      t.flock.sharedHolders ≤ s.flock.sharedHolders := by
    intro s t hs ht hsub
    rw [hs.agrees.holders, ht.agrees.holders]
    exact_mod_cast Finset.card_le_card hsub
  refine ⟨fun a t hst hw => ?_, fun pid tag t hrun => ⟨?_, fun a u hwait hst k d hu ht => ?_⟩⟩
  · have hok := LockSys.ok_of_reachable hs
    have hsub := (LockSys.step_cases hst).shared_le hw
    exact ⟨hsub, hle hok (LockSys.ok_of_reachable (hs.step hst)) hsub⟩
  · -- along the run, by the step lemma at each of its states
    have hsub : t.granted .sh ⊆ s.granted .sh := by
      refine hrun.relates (R := fun s t => t.granted .sh ⊆ s.granted .sh) subset_rfl ?_
      rintro t a u hr hsub ⟨w, hw⟩ hst
      have hok := LockSys.ok_of_reachable (hr.reachable hs)
      exact ((LockSys.step_cases hst).shared_le (hok.waitingExclusive_pos hw)).trans hsub
    exact ⟨hsub, hle (LockSys.ok_of_reachable hs) (LockSys.ok_of_reachable (hrun.reachable hs))
      hsub⟩
  · obtain ⟨w, hw⟩ := hwait
    have hok := LockSys.ok_of_reachable (hrun.reachable hs)
    cases k with
    | ex => rfl
    | sh =>
      exact absurd ((LockSys.step_cases hst).shared_le (hok.waitingExclusive_pos hw) hu) ht

/-- Thread 1 holds the lock shared, thread 2 waits for it exclusively, and thread 3 asks for it
shared: the holder count does not grow. -/
theorem writer_priority_late_reader :
    ∃ s t, lockMachine.Reachable s ∧ 0 < s.flock.waitingExclusive ∧
      lockMachine.step s (.acquire 3 0 lockSh) = some t ∧
      t.flock.sharedHolders ≤ s.flock.sharedHolders := by
  have h₀ : lockMachine.Reachable
      { flock := flockInit, thread := fun _ => .out, granted := fun _ => ∅ } := .init rfl
  have h₁ := h₀.step (a := .acquire 1 0 lockSh) rfl
  have h₂ := h₁.step (a := .acquire 2 0 lockEx) rfl
  exact ⟨_, _, h₂, by decide, rfl,
    ((writer_priority h₂).1 (.acquire 3 0 lockSh) _ rfl (by decide)).2⟩

end

end MCertikos
