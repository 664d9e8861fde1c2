import Mathlib.Algebra.BigOperators.Group.Finset.Basic
import Mathlib.Algebra.Order.BigOperators.Group.Finset
import Mathlib.Tactic.Abel

/-!
# Sums over tables

A table with `n` entries is a function on indices, and a quantity of the table is a sum over its
entries. The sum after an entry has changed differs by what the entry contributes.
-/

namespace Table

/-- A sum over a table after a change of one entry. -/
theorem sum_range_update {β M : Type} [AddCommMonoid M] {n a : Nat} (ha : a < n) (F : β → M)
    (g : Nat → β) (v : β) :
    ∑ x ∈ Finset.range n, F (Function.update g a v x) + F (g a) =
      ∑ x ∈ Finset.range n, F (g x) + F v := by
  have hmem : a ∈ Finset.range n := Finset.mem_range.2 ha
  have hrest : ∑ x ∈ (Finset.range n).erase a, F (Function.update g a v x) =
      ∑ x ∈ (Finset.range n).erase a, F (g x) :=
    Finset.sum_congr rfl fun x hx => by rw [Function.update_of_ne (Finset.ne_of_mem_erase hx)]
  rw [← Finset.add_sum_erase _ _ hmem, ← Finset.add_sum_erase _ _ hmem, hrest,
    Function.update_self]
  abel

end Table
