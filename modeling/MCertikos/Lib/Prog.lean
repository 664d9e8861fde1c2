import Mathlib.Logic.Basic

/-!
# Programs over a signature of operations

A `Prog` is a program that calls the operations of a signature, kept as a tree of calls: code is
written once, with `do`, and run with different handlers of its operations. A handler says what
each operation does to a state; an operation may also panic, or block (when it waits for something
that only another thread can provide). `Handler.run` runs a program by itself to its end.

`Outcome.Sat` is the assertion language: what holds after a normal return, after a panic, and where
a program blocks. `Handler.Wp` is the weakest precondition of a program for such an assertion, with
the rules `Handler.wp_bind` and `Handler.Wp.mono`. `Outcome.Refines` compares the runs of a program
with two handlers.
-/

namespace Program

/-- A signature: operations, and the type each one returns. -/
structure Sig where
  Op : Type
  Resp : Op → Type

/-- A program over the operations of `S` that returns an `α`. -/
inductive Prog (S : Sig) (α : Type) : Type where
  | pure (a : α)
  | op (o : S.Op) (k : S.Resp o → Prog S α)

namespace Prog

variable {S : Sig} {α β : Type}

/-- Sequencing. -/
def bind (p : Prog S α) (f : α → Prog S β) : Prog S β :=
  match p with
  | .pure a => f a
  | .op o k => .op o fun r => (k r).bind f

instance : Monad (Prog S) where
  pure := .pure
  bind := .bind

/-- A single call. -/
def call (o : S.Op) : Prog S (S.Resp o) := .op o .pure

@[simp] theorem pure_bind (a : α) (f : α → Prog S β) : (pure a : Prog S α) >>= f = f a := rfl

@[simp] theorem op_bind (o : S.Op) (k : S.Resp o → Prog S α) (f : α → Prog S β) :
    (Prog.op o k) >>= f = .op o fun r => k r >>= f := rfl

protected theorem bind_assoc {γ : Type} (p : Prog S α) (f : α → Prog S β) (g : β → Prog S γ) :
    (p >>= f) >>= g = p >>= fun a => f a >>= g := by
  induction p with
  | pure a => rfl
  | op o k ih => exact congrArg (Prog.op o) (funext ih)

end Prog

/-- How a run of a program ends: it returns, it panics, or it waits for another thread. -/
inductive Outcome (ε σ α : Type) : Type where
  | ok (a : α) (s : σ)
  | panic (e : ε) (s : σ)
  | blocked (s : σ)

namespace Outcome

variable {ε σ α β : Type}

/-- Goes on after a return. -/
def bind (o : Outcome ε σ α) (f : α → σ → Outcome ε σ β) : Outcome ε σ β :=
  match o with
  | .ok a s => f a s
  | .panic e s => .panic e s
  | .blocked s => .blocked s

/-- A run that returns has returned from its first part. -/
theorem of_bind_eq_ok {o : Outcome ε σ α} {f : α → σ → Outcome ε σ β} {b : β} {t : σ}
    (h : o.bind f = .ok b t) : ∃ a s, o = .ok a s ∧ f a s = .ok b t := by
  cases o with
  | ok a s => exact ⟨a, s, rfl, h⟩
  | panic _ _ => cases h
  | blocked _ => cases h

/-- The same end, of a larger state. -/
def mapState {τ : Type} (f : σ → τ) : Outcome ε σ α → Outcome ε τ α
  | .ok a s => .ok a (f s)
  | .panic e s => .panic e (f s)
  | .blocked s => .blocked (f s)

theorem mapState_ite {τ : Type} {c : Prop} [Decidable c] (f : σ → τ) (o o' : Outcome ε σ α) :
    (if c then o else o').mapState f = if c then o.mapState f else o'.mapState f :=
  apply_ite (mapState f) c o o'

/-- What holds at the end of a run: `Q` after a return, `E` after a panic, `B` where it blocks. -/
def Sat (Q : α → σ → Prop) (E : ε → σ → Prop) (B : σ → Prop) : Outcome ε σ α → Prop
  | .ok a s => Q a s
  | .panic e s => E e s
  | .blocked s => B s

instance {Q : α → σ → Prop} {E : ε → σ → Prop} {B : σ → Prop} [∀ a s, Decidable (Q a s)]
    [∀ e s, Decidable (E e s)] [∀ s, Decidable (B s)] (o : Outcome ε σ α) :
    Decidable (o.Sat Q E B) :=
  match o with
  | .ok a s => inferInstanceAs (Decidable (Q a s))
  | .panic e s => inferInstanceAs (Decidable (E e s))
  | .blocked s => inferInstanceAs (Decidable (B s))

/-- The state at the end of a run. -/
def state : Outcome ε σ α → σ
  | .ok _ s => s
  | .panic _ s => s
  | .blocked s => s

theorem Sat.mono {Q Q' : α → σ → Prop} {E E' : ε → σ → Prop} {B B' : σ → Prop}
    {o : Outcome ε σ α} (h : o.Sat Q E B) (hQ : ∀ a s, Q a s → Q' a s)
    (hE : ∀ e s, E e s → E' e s) (hB : ∀ s, B s → B' s) : o.Sat Q' E' B' := by
  cases o with
  | ok a s => exact hQ a s h
  | panic e s => exact hE e s h
  | blocked s => exact hB s h

/-- A run that neither panics nor blocks. -/
theorem Sat.returns {Q : α → σ → Prop} {o : Outcome ε σ α}
    (h : o.Sat Q (fun _ _ => False) fun _ => False) : ∃ a s, o = .ok a s ∧ Q a s := by
  cases o with
  | ok a s => exact ⟨a, s, rfl, h⟩
  | panic e s => exact h.elim
  | blocked s => exact h.elim

/-- A run that panics. -/
theorem Sat.panics {E : ε → σ → Prop} {o : Outcome ε σ α}
    (h : o.Sat (fun _ _ => False) E fun _ => False) : ∃ e s, o = .panic e s ∧ E e s := by
  cases o with
  | ok a s => exact h.elim
  | panic e s => exact ⟨e, s, rfl, h⟩
  | blocked s => exact h.elim

/-- What holds at every end holds of the last state. -/
theorem Sat.of_state {Q : α → σ → Prop} {E : ε → σ → Prop} {B P : σ → Prop} {o : Outcome ε σ α}
    (h : o.Sat Q E B) (hQ : ∀ a s, Q a s → P s) (hE : ∀ e s, E e s → P s) (hB : ∀ s, B s → P s) :
    P o.state := by
  cases o with
  | ok a s => exact hQ a s h
  | panic e s => exact hE e s h
  | blocked s => exact hB s h

/-- The first outcome is that of a program over a more concrete state than the second, with states
related by `R`: the two end alike. Nothing is said where the second one panics with an exempt
cause. -/
def Refines {τ : Type} (R : σ → τ → Prop) (exempt : ε → Prop) :
    Outcome ε σ α → Outcome ε τ α → Prop
  | o, .panic e t => exempt e ∨ ∃ s, o = .panic e s ∧ R s t
  | o, .ok a t => ∃ s, o = .ok a s ∧ R s t
  | o, .blocked t => ∃ s, o = .blocked s ∧ R s t

/-- Two outcomes chosen by the same test. -/
theorem Refines.ite {τ : Type} {R : σ → τ → Prop} {exempt : ε → Prop} {c : Prop}
    [Decidable c] {o₁ o₂ : Outcome ε σ α} {o₁' o₂' : Outcome ε τ α}
    (h₁ : c → o₁.Refines R exempt o₁') (h₂ : ¬ c → o₂.Refines R exempt o₂') :
    (if c then o₁ else o₂).Refines R exempt (if c then o₁' else o₂') := by
  by_cases hc : c
  · rw [if_pos hc, if_pos hc]; exact h₁ hc
  · rw [if_neg hc, if_neg hc]; exact h₂ hc

/-- What holds at the end of an abstract run holds at the end of a run that refines it. -/
theorem Refines.sat {τ : Type} {R : σ → τ → Prop} {exempt : ε → Prop} {o : Outcome ε σ α}
    {o' : Outcome ε τ α} {Q : α → τ → Prop} {E : ε → τ → Prop} {B : τ → Prop}
    (h : o.Refines R exempt o') (ho : o'.Sat Q E B) (hex : ∀ e t, E e t → ¬ exempt e) :
    o.Sat (fun a s => ∃ t, R s t ∧ Q a t) (fun e s => ∃ t, R s t ∧ E e t)
      (fun s => ∃ t, R s t ∧ B t) := by
  cases o' with
  | ok a t =>
    obtain ⟨s, rfl, hR⟩ := h
    exact ⟨t, hR, ho⟩
  | panic e t =>
    rcases h with he | ⟨s, rfl, hR⟩
    · exact absurd he (hex e t ho)
    · exact ⟨t, hR, ho⟩
  | blocked t =>
    obtain ⟨s, rfl, hR⟩ := h
    exact ⟨t, hR, ho⟩

end Outcome

/-- What each operation does to a state of type `σ`, with panics of type `ε`. -/
def Handler (S : Sig) (ε σ : Type) := (o : S.Op) → σ → Outcome ε σ (S.Resp o)

namespace Handler

variable {S : Sig} {ε σ τ α β : Type} (h : Handler S ε σ)

/-- Runs a program by itself. -/
def run : Prog S α → σ → Outcome ε σ α
  | .pure a, s => .ok a s
  | .op o k, s => (h o s).bind fun r t => run (k r) t

@[simp] theorem run_pure (a : α) (s : σ) : h.run (pure a : Prog S α) s = .ok a s := rfl

/-- A call, with what follows it. -/
theorem run_op (o : S.Op) (k : S.Resp o → Prog S α) (s : σ) :
    h.run (.op o k) s = (h o s).bind fun r t => h.run (k r) t := rfl

/-- A single call does what the handler says. -/
theorem run_call (o : S.Op) (s : σ) : h.run (Prog.call o) s = h o s := by
  rw [Prog.call, run_op]
  cases h o s <;> rfl

/-- A sequence runs its first part, and then the second from where the first returned. -/
theorem run_bind (p : Prog S α) (f : α → Prog S β) (s : σ) :
    h.run (p >>= f) s = (h.run p s).bind fun a t => h.run (f a) t := by
  induction p generalizing s with
  | pure a => rfl
  | op o k ih =>
    rw [Prog.op_bind, run_op, run_op]
    cases h o s with
    | ok r t => exact ih r t
    | panic e t => rfl
    | blocked t => rfl

/-- The weakest precondition: run from `s`, the program returns with `Q`, panics with `E`, or
blocks with `B`. -/
def Wp (p : Prog S α) (Q : α → σ → Prop) (E : ε → σ → Prop) (B : σ → Prop) (s : σ) : Prop :=
  (h.run p s).Sat Q E B

variable {h} {Q : α → σ → Prop} {E : ε → σ → Prop} {B : σ → Prop}

@[simp] theorem wp_pure {a : α} {s : σ} : h.Wp (pure a) Q E B s ↔ Q a s := Iff.rfl

/-- A call does what the handler says. -/
theorem wp_call {o : S.Op} {Q : S.Resp o → σ → Prop} {s : σ} :
    h.Wp (Prog.call o) Q E B s ↔ (h o s).Sat Q E B := by
  rw [Wp, run_call]

/-- The rule of sequencing. -/
@[simp] theorem wp_bind {p : Prog S β} {f : β → Prog S α} {s : σ} :
    h.Wp (p >>= f) Q E B s ↔ h.Wp p (fun a t => h.Wp (f a) Q E B t) E B s := by
  rw [Wp, Wp, run_bind]
  cases h.run p s <;> rfl

/-- The rule of consequence. -/
theorem Wp.mono {p : Prog S α} {Q' : α → σ → Prop} {E' : ε → σ → Prop} {B' : σ → Prop} {s : σ}
    (hp : h.Wp p Q E B s) (hQ : ∀ a s, Q a s → Q' a s) (hE : ∀ e s, E e s → E' e s)
    (hB : ∀ s, B s → B' s) : h.Wp p Q' E' B' s :=
  Outcome.Sat.mono hp hQ hE hB

/-- A refinement of the operations is a refinement of the programs. -/
theorem run_refines {g : Handler S ε τ} {R : σ → τ → Prop} {exempt : ε → Prop}
    (hop : ∀ o s t, R s t → (h o s).Refines R exempt (g o t)) {p : Prog S α} {s : σ} {t : τ}
    (hR : R s t) : (h.run p s).Refines R exempt (g.run p t) := by
  induction p generalizing s t with
  | pure a => exact ⟨s, rfl, hR⟩
  | op o k ih =>
    have ho := hop o s t hR
    rw [run_op, run_op]
    cases hg : g o t with
    | ok r t' =>
      rw [hg] at ho
      obtain ⟨s', hs', hR'⟩ := ho
      rw [hs']
      exact ih r hR'
    | panic e t' =>
      rw [hg] at ho
      rcases ho with he | ⟨s', hs', hR'⟩
      · exact .inl he
      · rw [hs']
        exact .inr ⟨s', rfl, hR'⟩
    | blocked t' =>
      rw [hg] at ho
      obtain ⟨s', hs', hR'⟩ := ho
      rw [hs']
      exact ⟨s', rfl, hR'⟩

end Handler

end Program
