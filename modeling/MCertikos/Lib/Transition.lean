import Mathlib.Logic.Relation

/-!
# Guarded transition systems

A `Machine` is a set of initial states and a guarded step function: `step s a` is `some t` when the
action `a` is enabled in `s` and leads to `t`, and `none` when it is not enabled. A run is a chain
of enabled steps; `Machine.Runs ok s t` is a run from `s` to `t` each of whose steps meets the side
condition `ok` in the state it is taken from, and `Machine.Reachable` the unconditional case from
an initial state. Invariants are proved once per step (`Runs.invariant`, `Reachable.invariant`).
-/

namespace Transition

/-- A transition system with a guarded step function. -/
structure Machine (σ α : Type*) where
  /-- The states a run may start in. -/
  Init : σ → Prop
  /-- The state an enabled action leads to. -/
  step : σ → α → Option σ

/-- What an enabled step with a guard leads to. -/
theorem of_guard {σ : Type*} {p : Prop} [Decidable p] {s t : σ}
    (h : (if p then some s else none) = some t) : p ∧ s = t := by
  rwa [Option.ite_none_right_eq_some, Option.some.injEq] at h

namespace Machine

variable {σ α : Type*} (M : Machine σ α)

/-- A run from the first state to the second whose steps all meet `ok`. -/
inductive Runs (ok : σ → α → Prop) (s : σ) : σ → Prop
  | refl : Runs ok s s
  | tail {t u : σ} {a : α} : Runs ok s t → ok t a → M.step t a = some u → Runs ok s u

/-- A state that some run from an initial state ends in. -/
inductive Reachable : σ → Prop
  | init {s : σ} : M.Init s → Reachable s
  | step {s t : σ} {a : α} : Reachable s → M.step s a = some t → Reachable t

/-- Replays a list of actions. -/
def replay (s : σ) (as : List α) : Option σ := as.foldlM M.step s

variable {M} {ok : σ → α → Prop} {s t u : σ}

/-- What holds at the start of a run and survives each of its steps holds at its end. -/
theorem Runs.invariant {I : σ → Prop} (hstep : ∀ t a u, I t → ok t a → M.step t a = some u → I u)
    (hs : I s) (h : M.Runs ok s t) : I t := by
  induction h with
  | refl => exact hs
  | tail _ ha hu ih => exact hstep _ _ _ ih ha hu

/-- A relation between the two ends of a run, from one that each step extends. -/
theorem Runs.relates {R : σ → σ → Prop} (hrefl : R s s)
    (hstep : ∀ t a u, M.Runs ok s t → R s t → ok t a → M.step t a = some u → R s u)
    (h : M.Runs ok s t) : R s t := by
  induction h with
  | refl => exact hrefl
  | tail hr ha hu ih => exact hstep _ _ _ hr ih ha hu

/-- A run from a reachable state ends in a reachable state. -/
theorem Runs.reachable (hs : M.Reachable s) (h : M.Runs ok s t) : M.Reachable t := by
  induction h with
  | refl => exact hs
  | tail _ _ hu ih => exact .step ih hu

/-- Runs compose. -/
theorem Runs.trans (h₁ : M.Runs ok s t) (h₂ : M.Runs ok t u) : M.Runs ok s u := by
  induction h₂ with
  | refl => exact h₁
  | tail _ ha hu ih => exact .tail ih ha hu

/-- A successful replay is a run. -/
theorem Runs.of_replay : ∀ {as : List α} {s : σ}, M.replay s as = some t →
    M.Runs (fun _ _ => True) s t
  | [], s, h => by
    cases h
    exact .refl
  | a :: as, s, h => by
    simp only [replay, List.foldlM_cons, Option.bind_eq_bind, Option.bind_eq_some_iff] at h
    obtain ⟨s', hs', h⟩ := h
    exact (Runs.tail .refl trivial hs').trans (of_replay h)

/-- What holds initially and survives every step holds in every reachable state. -/
theorem Reachable.invariant {I : σ → Prop} (hinit : ∀ s, M.Init s → I s)
    (hstep : ∀ s a t, I s → M.step s a = some t → I t) (h : M.Reachable s) : I s := by
  induction h with
  | init hs => exact hinit _ hs
  | step _ ht ih => exact hstep _ _ _ ih ht

end Machine

end Transition
