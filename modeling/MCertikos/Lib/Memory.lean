import Mathlib.Logic.Function.Iterate

/-!
# Memories and translations

A memory is a function from addresses to values, and `next` gives the address after an address.
`write` stores a list from an address on.

A program that translates its addresses sees a memory through the translation (`view`). A list that
is written to consecutive translated addresses is written to the view, provided that the
translation gives no address twice (`view_write`); this is where aliases would do harm. A view has
no value where nothing is mapped, and mapping more of it only adds values (`Extends`).
-/

namespace Memory

open Function

variable {α β γ : Type}

section
variable [DecidableEq α]

/-- The memory after the values are stored from `a` on. -/
def write (next : α → α) : (α → β) → α → List β → α → β
  | m, _, [] => m
  | m, a, b :: bs => write next (update m a b) (next a) bs

variable {next : α → α} {m : α → β} {a x : α} {l l' : List β}

/-- A list is written in two parts. -/
theorem write_append :
    write next m a (l ++ l') = write next (write next m a l) (next^[l.length] a) l' := by
  induction l generalizing m a with
  | nil => rfl
  | cons b bs ih => exact ih

/-- Other addresses keep their values. -/
theorem write_of_ne (h : ∀ i < l.length, x ≠ next^[i] a) : write next m a l x = m x := by
  induction l generalizing m a with
  | nil => rfl
  | cons b bs ih =>
    have hfirst : x ≠ a := h 0 (Nat.succ_pos _)
    rw [write, ih fun i hi => h (i + 1) (Nat.succ_lt_succ hi), update_of_ne hfirst]

/-- The addresses of the list have its values, if they are distinct. -/
theorem write_at (hinj : ∀ i j, i < j → j < l.length → next^[i] a ≠ next^[j] a) {i : Nat} {b : β}
    (hb : l[i]? = some b) : write next m a l (next^[i] a) = b := by
  induction l generalizing m a i with
  | nil => cases hb
  | cons c bs ih =>
    rw [write]
    cases i with
    | zero =>
      cases hb
      rw [write_of_ne fun j hj => hinj 0 (j + 1) (Nat.succ_pos j) (Nat.succ_lt_succ hj)]
      exact update_self _ _ _
    | succ i =>
      exact ih (fun j k hjk hk =>
        hinj (j + 1) (k + 1) (Nat.succ_lt_succ hjk) (Nat.succ_lt_succ hk)) hb

end

/-! ## Views -/

/-- The memory as it is seen through a translation of addresses. -/
def view (tr : γ → Option α) (m : α → β) (x : γ) : Option β := (tr x).map m

section
variable [DecidableEq α] [DecidableEq γ] {next : α → α} {next' : γ → γ}
  {tr : γ → Option α} {m : α → β} {a : α} {x : γ} {l : List β}

theorem view_update (once : ∀ x y a, tr x = some a → tr y = some a → x = y)
    (hx : tr x = some a) (b : β) :
    view tr (update m a b) = update (view tr m) x (some b) := by
  funext y
  rcases eq_or_ne y x with rfl | hne
  · rw [update_self, view, hx, Option.map_some, update_self]
  · rw [update_of_ne hne, view, view]
    cases hy : tr y with
    | none => rfl
    | some c =>
      have hca : c ≠ a := fun hca => hne (once y x a (hca ▸ hy) hx)
      rw [Option.map_some, update_of_ne hca, Option.map_some]

/-- Consecutive addresses are translated to consecutive addresses, and a list is written there. -/
theorem view_write (once : ∀ x y a, tr x = some a → tr y = some a → x = y)
    (hx : ∀ i < l.length, tr (next'^[i] x) = some (next^[i] a)) :
    view tr (write next m a l) = write next' (view tr m) x (l.map some) := by
  induction l generalizing m a x with
  | nil => rfl
  | cons b bs ih =>
    have hfirst : tr x = some a := hx 0 (Nat.succ_pos _)
    rw [write, ih fun i hi => hx (i + 1) (Nat.succ_lt_succ hi), List.map_cons, write,
      view_update once hfirst]

end

/-! ## Extensions -/

/-- What is mapped in `u` has the same value in `v`. -/
def Extends (u v : α → Option β) : Prop := ∀ x b, u x = some b → v x = some b

namespace Extends

variable {u v w : α → Option β}

theorem refl (u : α → Option β) : Extends u u := fun _ _ h => h

theorem trans (h : Extends u v) (h' : Extends v w) : Extends u w := fun x b hx => h' x b (h x b hx)

theorem write [DecidableEq α] (h : Extends u v) (next : α → α) (a : α) (l : List (Option β)) :
    Extends (Memory.write next u a l) (Memory.write next v a l) := by
  induction l generalizing u v a with
  | nil => exact h
  | cons b bs ih =>
    refine ih (fun x c hx => ?_) (next a)
    rcases eq_or_ne x a with rfl | hne
    · rwa [update_self] at hx ⊢
    · rw [update_of_ne hne] at hx ⊢
      exact h x c hx

/-- A list may be written where nothing was mapped. -/
theorem write_unmapped [DecidableEq α] {next : α → α} {a : α} {l : List (Option β)}
    (h : Extends u v) (hnone : ∀ i < l.length, u (next^[i] a) = none) :
    Extends u (Memory.write next v a l) := by
  intro x b hx
  rw [write_of_ne fun i hi heq => ?_]
  · exact h x b hx
  · rw [heq, hnone i hi] at hx
    cases hx

end Extends

end Memory
