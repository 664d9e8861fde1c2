import MCertikos.Lib.Prog
import MCertikos.Lib.Transition
import Mathlib.Logic.Function.Basic

/-!
# Threads that run programs

Threads share a state, and each one runs a program over the operations of a signature; the
operations of different threads interleave in any order (`threads`). A thread whose program has
returned may start another one. A panic stops all of them.

What a program does to a thread's own resources is described by a ghost state of the thread: a
`Spec` says for each operation what it needs of the ghost state and what it leaves of it, and a
program `Follows` the specification if it does so at each of its operations, whatever they return.
If every program follows a specification whose operations keep an invariant of the shared state and
of all the ghost states, then the invariant holds in every interleaving (`Typed.step`).
-/

namespace Program

open Transition Function

variable {S : Sig} {ε σ τ ρ C α β : Type}

/-! ## Specifications -/

/-- For each operation, the ghost states from which it can be done so that what it returns and
leaves satisfies a condition. -/
def Spec (S : Sig) (τ : Type) := (o : S.Op) → (S.Resp o → τ → Prop) → τ → Prop

/-- A weaker condition is easier to meet. -/
def Spec.Mono (spec : Spec S τ) : Prop :=
  ∀ o (Q Q' : S.Resp o → τ → Prop) t, (∀ r t, Q r t → Q' r t) → spec o Q t → spec o Q' t

namespace Prog

/-- The program keeps to the specification and ends with `Q`. -/
def Follows (spec : Spec S τ) : Prog S α → (α → τ → Prop) → τ → Prop
  | .pure a, Q => Q a
  | .op o k, Q => spec o fun r => (k r).Follows spec Q

/-- All operations that the program can do satisfy `N`. -/
def All (N : S.Op → Prop) : Prog S α → Prop
  | .pure _ => True
  | .op o k => N o ∧ ∀ r, (k r).All N

variable {spec : Spec S τ} {N : S.Op → Prop} {Q Q' : α → τ → Prop} {t : τ}

@[simp] theorem follows_pure {a : α} : (pure a : Prog S α).Follows spec Q t ↔ Q a t := Iff.rfl

/-- A sequence follows a specification if its first part does, up to a state from which the second
does. -/
theorem follows_bind {p : Prog S β} {f : β → Prog S α} :
    (p >>= f).Follows spec Q t ↔ p.Follows spec (fun a => (f a).Follows spec Q) t := by
  induction p generalizing t with
  | pure a => rfl
  | op o k ih =>
    have : (fun r => (k r >>= f).Follows spec Q) =
        fun r => (k r).Follows spec (fun a => (f a).Follows spec Q) := by
      funext r t
      exact propext (ih r)
    rw [op_bind, Follows, Follows, this]

theorem Follows.bind {p : Prog S β} {f : β → Prog S α}
    (h : p.Follows spec (fun a => (f a).Follows spec Q) t) :
    (p >>= f).Follows spec Q t := follows_bind.2 h

theorem Follows.mono (hm : spec.Mono) {p : Prog S α} (h : p.Follows spec Q t)
    (hQ : ∀ a t, Q a t → Q' a t) : p.Follows spec Q' t := by
  induction p generalizing t with
  | pure a => exact hQ a t h
  | op o k ih => exact hm o _ _ t (fun r t hr => ih r hr) h

theorem Follows.ite {c : Prop} [Decidable c] {p q : Prog S α} (hp : c → p.Follows spec Q t)
    (hq : ¬ c → q.Follows spec Q t) : (if c then p else q).Follows spec Q t := by
  split
  · exact hp ‹c›
  · exact hq ‹¬ c›

/-- A branch that comes back to the code after it. -/
theorem Follows.join {c : Prop} [Decidable c] {p q : Prog S α}
    (hp : q.Follows spec Q t → p.Follows spec Q t) (hq : q.Follows spec Q t) :
    (if c then p else q).Follows spec Q t :=
  .ite (fun _ => hp hq) fun _ => hq

@[simp] theorem all_pure (a : α) : (pure a : Prog S α).All N := trivial

@[simp] theorem all_call {o : S.Op} : (call o).All N ↔ N o := by
  simp [call, All]

@[simp] theorem all_bind {p : Prog S β} {f : β → Prog S α} (hp : p.All N) (hf : ∀ a, (f a).All N) :
    (p >>= f).All N := by
  induction p with
  | pure a => exact hf a
  | op o k ih => exact ⟨hp.1, fun r => ih r (hp.2 r)⟩

theorem All.mono {N' : S.Op → Prop} (hN : ∀ o, N o → N' o) {p : Prog S α} (h : p.All N) :
    p.All N' := by
  induction p with
  | pure a => trivial
  | op o k ih => exact ⟨hN o h.1, fun r => ih r (h.2 r)⟩

theorem All.ite {c : Prop} [Decidable c] {p q : Prog S α} (hp : p.All N) (hq : q.All N) :
    (if c then p else q).All N := by
  split
  · exact hp
  · exact hq

/-- Operations that leave the ghost state alone. -/
theorem All.follows {p : Prog S α} (h : p.All N)
    (hN : ∀ o (Q : S.Resp o → τ → Prop), N o → (∀ r, Q r t) → spec o Q t) (hQ : ∀ a, Q a t) :
    p.Follows spec Q t := by
  induction p with
  | pure a => exact hQ a
  | op o k ih => exact hN o _ h.1 fun r => ih r (h.2 r)

end Prog

/-- Two specifications at once, each with its own ghost state. -/
def Spec.prod {τ' : Type} (spec : Spec S τ) (spec' : Spec S τ') : Spec S (τ × τ') := fun o Q t =>
  spec o (fun r u => spec' o (fun r' u' => r' = r → Q r (u, u')) t.2) t.1

/-- A program that follows two specifications follows both at once. -/
theorem Prog.Follows.prod {τ' : Type} {spec : Spec S τ} {spec' : Spec S τ'} (hm : spec.Mono)
    (hm' : spec'.Mono) {p : Prog S α} {Q : α → τ → Prop} {Q' : α → τ' → Prop} {t : τ} {t' : τ'}
    (h : p.Follows spec Q t) (h' : p.Follows spec' Q' t') :
    p.Follows (spec.prod spec') (fun a u => Q a u.1 ∧ Q' a u.2) (t, t') := by
  induction p generalizing t t' with
  | pure a => exact ⟨h, h'⟩
  | op o k ih =>
    refine hm o _ _ t (fun r u hu => hm' o _ _ t' (fun r' u' hu' hr => ?_) h') h
    subst hr
    exact ih r' hu hu'

/-! ## Interleavings -/

/-- The state of threads that share a state of type `σ`. -/
structure Threads (S : Sig) (ε σ ρ : Type) where
  shared : σ
  /-- The code that each thread has left to run. -/
  code : Nat → Prog S ρ
  panic : Option ε

/-- A thread starts a program, or does its next operation. -/
inductive ThreadsAct (C : Type) where
  | call (pid : Nat) (c : C)
  | run (pid : Nat)

/-- The threads with ids below `n`, whose programs are those that `code` gives. -/
def threads (n : Nat) (h : Nat → Handler S ε σ) (code : C → Prog S ρ)
    (Init : Threads S ε σ ρ → Prop) : Machine (Threads S ε σ ρ) (ThreadsAct C) where
  Init := Init
  step s a :=
    match s.panic, a with
    | some _, _ => none
    | none, .call pid c =>
      match s.code pid with
      | .pure _ =>
        if pid < n then some { s with code := update s.code pid (code c) } else none
      | .op _ _ => none
    | none, .run pid =>
      match s.code pid with
      | .pure _ => none
      | .op o k =>
        if pid < n then
          match h pid o s.shared with
          | .ok r t => some { s with shared := t, code := update s.code pid (k r) }
          | .panic e t => some { s with shared := t, panic := some e }
          | .blocked _ => none
        else none

section
variable {n : Nat} {h : Nat → Handler S ε σ} {code : C → Prog S ρ} {Init : Threads S ε σ ρ → Prop}
  {s t : Threads S ε σ ρ} {cs : List (Nat × C)}

/-- What the step of a thread can be. -/
theorem threads_step {a : ThreadsAct C} (hstep : (threads n h code Init).step s a = some t) :
    (∃ pid c r, a = .call pid c ∧ pid < n ∧ s.code pid = .pure r ∧
        t = { s with code := update s.code pid (code c), panic := none }) ∨
      (∃ pid o k r u, a = .run pid ∧ pid < n ∧ s.code pid = .op o k ∧ h pid o s.shared = .ok r u ∧
        t = { s with shared := u, code := update s.code pid (k r), panic := none }) ∨
      ∃ pid o k e u, a = .run pid ∧ pid < n ∧ s.code pid = .op o k ∧
      h pid o s.shared = .panic e u ∧
        t = { s with shared := u, panic := some e } := by
  unfold threads at hstep
  cases hp : s.panic with
  | some e => simp [hp] at hstep
  | none =>
    cases a with
    | call pid c =>
      cases hc : s.code pid with
      | op o k => simp [hp, hc] at hstep
      | pure r =>
        simp only [hp, hc, Option.ite_none_right_eq_some, Option.some.injEq] at hstep
        exact .inl ⟨pid, c, r, rfl, hstep.1, hc, by rw [← hstep.2]⟩
    | run pid =>
      cases hc : s.code pid with
      | pure r => simp [hp, hc] at hstep
      | op o k =>
        simp only [hp, hc, Option.ite_none_right_eq_some] at hstep
        obtain ⟨hn, hstep⟩ := hstep
        cases ho : h pid o s.shared with
        | ok r u =>
          simp only [ho, Option.some.injEq] at hstep
          exact .inr (.inl ⟨pid, o, k, r, u, rfl, hn, hc, ho, by rw [← hstep]⟩)
        | panic e u =>
          simp only [ho, Option.some.injEq] at hstep
          exact .inr (.inr ⟨pid, o, k, e, u, rfl, hn, hc, ho, hstep.symm⟩)
        | blocked u => simp [ho] at hstep

variable (h code Init) in
/-- A thread that is not interrupted runs its program. -/
theorem threads_run {pid : Nat} (hn : pid < n) (hp : s.panic = none) :
    ((h pid).run (s.code pid) s.shared).Sat
      (fun r u => (threads n h code Init).Runs (fun _ _ => True) s
        { s with shared := u, code := update s.code pid (.pure r) })
      (fun e u => ∃ c, (threads n h code Init).Runs (fun _ _ => True) s
        { shared := u, code := c, panic := some e })
      fun _ => True := by
  generalize hc : s.code pid = p
  induction p generalizing s with
  | pure r =>
    have hself : update s.code pid (.pure r) = s.code := by
      rw [← hc, update_eq_self]
    rw [Handler.run, Outcome.Sat, hself]
    exact .refl
  | op o k ih =>
    rw [Handler.run_op]
    have hstep : ∀ t, (match h pid o s.shared with
        | .ok r u => some { s with shared := u, code := update s.code pid (k r) }
        | .panic e u => some { s with shared := u, panic := some e }
        | .blocked _ => none) = some t →
        (threads n h code Init).Runs (fun _ _ => True) s t := fun t ht =>
      .tail (a := .run pid) .refl trivial (by simpa [threads, hp, hc, hn] using ht)
    cases ho : h pid o s.shared with
    | blocked u => trivial
    | panic e u =>
      rw [ho] at hstep
      exact ⟨s.code, hstep _ rfl⟩
    | ok r u =>
      rw [ho] at hstep
      refine (ih r (s := { s with shared := u, code := update s.code pid (k r) }) hp
        (update_self _ _ _)).mono (fun a v hv => ?_) (fun e v hv => ?_) fun _ _ => trivial
      · simp only [update_idem] at hv
        exact (hstep _ rfl).trans hv
      · exact hv.imp fun c hc => (hstep _ rfl).trans hc

/-- Runs programs of several threads one after the other. -/
def runCalls (h : Nat → Handler S ε σ) (code : C → Prog S ρ) :
    List (Nat × C) → σ → Outcome ε σ Unit
  | [], s => .ok () s
  | c :: cs, s => ((h c.1).run (code c.2) s).bind fun _ t => runCalls h code cs t

variable (h code Init) in
/-- Such a run is one of the interleavings, and ends with all programs returned. -/
theorem runCalls_runs (hn : ∀ c ∈ cs, c.1 < n) (hp : s.panic = none)
    (hidle : ∀ pid, ∃ r, s.code pid = .pure r) :
    (runCalls h code cs s.shared).Sat
      (fun _ u => ∃ c, (∀ pid, ∃ r, c pid = .pure r) ∧
        (threads n h code Init).Runs (fun _ _ => True) s
        { shared := u, code := c, panic := none })
      (fun e u => ∃ c, (threads n h code Init).Runs (fun _ _ => True) s
        { shared := u, code := c, panic := some e })
      fun _ => True := by
  induction cs generalizing s with
  | nil => exact ⟨s.code, hidle, hp ▸ .refl⟩
  | cons c cs ih =>
    rw [List.forall_mem_cons] at hn
    obtain ⟨r₀, hr₀⟩ := hidle c.1
    have hcall : (threads n h code Init).Runs (fun _ _ => True) s
        { s with code := update s.code c.1 (code c.2) } :=
      .tail (a := .call c.1 c.2) .refl trivial (by simp [threads, hp, hr₀, hn.1])
    have hrun := threads_run h code Init
      (s := { s with code := update s.code c.1 (code c.2) }) hn.1 hp
    simp only [update_self, update_idem] at hrun
    rw [runCalls]
    cases ho : (h c.1).run (code c.2) s.shared with
    | blocked u => trivial
    | panic e u =>
      rw [ho] at hrun
      exact hrun.imp fun c hc => hcall.trans hc
    | ok r u =>
      rw [ho] at hrun
      refine (ih (s := { s with shared := u, code := update s.code c.1 (.pure r) }) hn.2 hp
        fun pid => ?_).mono (fun a v hv => ?_) (fun e v hv => ?_) fun _ _ => trivial
      · rcases eq_or_ne pid c.1 with rfl | hne
        · exact ⟨r, by simp⟩
        · simpa [update_of_ne hne] using hidle pid
      · exact hv.imp fun c hc => ⟨hc.1, (hcall.trans hrun).trans hc.2⟩
      · exact hv.imp fun c hc => (hcall.trans hrun).trans hc

variable (h code Init) in
/-- The state in which it ends is reachable. -/
theorem runCalls_reachable_idle {u₀ : σ} {r₀ : ρ} {Q : σ → Prop}
    (hinit : Init { shared := u₀, code := fun _ => .pure r₀, panic := none })
    (hn : ∀ c ∈ cs, c.1 < n) (hend : (runCalls h code cs u₀).Sat (fun _ u => Q u)
      (fun _ _ => False) fun _ => False) :
    ∃ u c, (threads n h code Init).Reachable { shared := u, code := c, panic := none } ∧
      (∀ pid, ∃ r, c pid = .pure r) ∧ Q u := by
  obtain ⟨_, u, hu, hQ⟩ := hend.returns
  have hruns := runCalls_runs h code
    Init (s := { shared := u₀, code := fun _ => .pure r₀, panic := none }) hn
    rfl fun _ => ⟨r₀, rfl⟩
  rw [hu] at hruns
  obtain ⟨c, hidle, hc⟩ := hruns
  exact ⟨u, c, hc.reachable (.init hinit), hidle, hQ⟩

variable (h code Init) in
/-- The same, for a run that is computed. -/
theorem runCalls_reachable {u₀ : σ} {r₀ : ρ} {Q : σ → Prop} [DecidablePred Q]
    (hinit : Init { shared := u₀, code := fun _ => .pure r₀, panic := none })
    (hn : ∀ c ∈ cs, c.1 < n) (hend :
      decide ((runCalls h code cs u₀).Sat (fun _ u => Q u) (fun _ _ => False) fun _ => False) =
      true) :
    ∃ u c, (threads n h code Init).Reachable { shared := u, code := c, panic := none } ∧ Q u := by
  obtain ⟨u, c, hreach, -, hQ⟩ :=
    runCalls_reachable_idle h code Init hinit hn (of_decide_eq_true hend)
  exact ⟨u, c, hreach, hQ⟩

/-- A specification of the operations that is sound for an invariant `I` of the shared state and
the ghost states: each operation that meets `ok` keeps `I` for some ghost state that the
specification allows. Threads whose programs have returned are in a state with `Rest`. -/
structure Sound (n : Nat) (h : Nat → Handler S ε σ) (spec : Spec S τ) (I : σ → (Nat → τ) → Prop)
    (ok : Nat → S.Op → σ → Prop) : Prop where
  ret : ∀ {pid o s g r u} {Q : S.Resp o → τ → Prop}, pid < n → I s g → ok pid o s →
    spec o Q (g pid) → h pid o s = .ok r u → ∃ t, Q r t ∧ I u (update g pid t)
  panic : ∀ {pid o s g e u}, pid < n → I s g → h pid o s = .panic e u → I u g

/-- A program that runs without interruption. -/
theorem Sound.run {spec : Spec S τ} {I : σ → (Nat → τ) → Prop} {ok : Nat → S.Op → σ → Prop}
    (hs : Sound n h spec I ok) (hok : ∀ pid o s, ok pid o s) {pid : Nat} (hn : pid < n)
    {p : Prog S α} {Q : α → τ → Prop} {g : Nat → τ} {s u : σ} {a : α} (hI : I s g)
    (hp : p.Follows spec Q (g pid)) (hrun : (h pid).run p s = .ok a u) :
    ∃ t, Q a t ∧ I u (update g pid t) := by
  induction p generalizing g s with
  | pure b =>
    cases hrun
    exact ⟨g pid, hp, (update_eq_self pid g).symm ▸ hI⟩
  | op o k ih =>
    rw [Handler.run_op] at hrun
    cases ho : h pid o s with
    | panic e v => rw [ho] at hrun; cases hrun
    | blocked v => rw [ho] at hrun; cases hrun
    | ok r v =>
      rw [ho] at hrun
      obtain ⟨w, hw, hI'⟩ := hs.ret hn hI (hok pid o s) hp ho
      obtain ⟨t, ht, hI''⟩ := ih r hI' ((update_self pid w g).symm ▸ hw) hrun
      rw [update_idem] at hI''
      exact ⟨t, ht, hI''⟩

/-- The threads keep to the specification, with some ghost states for which `I` holds. -/
def Typed (spec : Spec S τ) (I : σ → (Nat → τ) → Prop) (Rest : τ → Prop) (s : Threads S ε σ ρ) :
    Prop :=
  ∃ g, I s.shared g ∧ ∀ pid, (s.code pid).Follows spec (fun _ => Rest) (g pid)

/-- A step meets `ok` if the operation that it does meets it. -/
def OkStep (ok : Nat → S.Op → σ → Prop) (s : Threads S ε σ ρ) (a : ThreadsAct C) : Prop :=
  ∀ pid o k, a = .run pid → s.code pid = .op o k → ok pid o s.shared

variable {spec : Spec S τ} {I : σ → (Nat → τ) → Prop} {ok : Nat → S.Op → σ → Prop}
  {Rest : τ → Prop}

/-- The step lemma. -/
theorem Typed.step (hs : Sound n h spec I ok)
    (hcode : ∀ c t, Rest t → (code c).Follows spec (fun _ => Rest) t) {a : ThreadsAct C}
    (ht : Typed spec I Rest s) (hok : OkStep ok s a)
    (hstep : (threads n h code Init).step s a = some t) : Typed spec I Rest t := by
  obtain ⟨g, hI, hg⟩ := ht
  rcases threads_step hstep with ⟨pid, c, r, rfl, -, hc, rfl⟩ |
    ⟨pid, o, k, r, u, rfl, hn, hc, ho, rfl⟩ | ⟨pid, o, k, e, u, rfl, hn, hc, ho, rfl⟩
  · refine ⟨g, hI, fun q => ?_⟩
    rcases eq_or_ne q pid with rfl | hne
    · have := hg q
      rw [hc] at this
      simp only [update_self]
      exact hcode c _ this
    · simp only [update_of_ne hne]
      exact hg q
  · have hf := hg pid
    rw [hc] at hf
    obtain ⟨w, hQ, hI'⟩ := hs.ret hn hI (hok pid o k rfl hc) hf ho
    refine ⟨_, hI', fun q => ?_⟩
    rcases eq_or_ne q pid with rfl | hne
    · simp only [update_self]
      exact hQ
    · simp only [update_of_ne hne]
      exact hg q
  · exact ⟨g, hs.panic hn hI ho, hg⟩

end

end Program
