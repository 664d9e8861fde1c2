import Mathlib.Data.List.Basic
import Mathlib.Order.Nat

/-!
# Arrays as lists

An array with the number of its entries in use is a list (`toList`). An entry is appended behind
the others, and one is removed by moving those behind it down by one (`shiftFrom`).
-/

namespace ArrayList

open Function

variable {α : Type*}

/-- The entries in use. -/
def toList (a : Nat → α) (len : Nat) : List α := (List.range len).map a

/-- The loop that moves the entries behind `i` down by one. -/
def shiftFrom (len : Nat) : (turns i : Nat) → (Nat → α) → Nat → α
  | 0, _, a => a
  | turns + 1, i, a =>
    if i + 1 < len then shiftFrom len turns (i + 1) (update a i (a (i + 1))) else a

variable {a b : Nat → α} {len i j turns : Nat} {x : α}

@[simp] theorem length_toList : (toList a len).length = len := by
  rw [toList, List.length_map, List.length_range]

theorem getElem?_toList : (toList a len)[i]? = if i < len then some (a i) else none := by
  rw [toList, List.getElem?_map]
  split
  · next h => rw [List.getElem?_range h, Option.map_some]
  · next h => rw [List.getElem?_eq_none (by rw [List.length_range]; omega), Option.map_none]

theorem toList_congr (h : ∀ i < len, a i = b i) : toList a len = toList b len :=
  List.map_congr_left fun i hi => h i (List.mem_range.1 hi)

/-- An entry is appended. -/
theorem toList_update : toList (update a len x) (len + 1) = toList a len ++ [x] := by
  have hsame : toList (update a len x) len = toList a len :=
    toList_congr fun i hi => update_of_ne hi.ne _ _
  rw [toList, List.range_succ, List.map_append, List.map_singleton, update_self]
  exact congrArg (· ++ [x]) hsame

theorem shiftFrom_apply (h : len ≤ i + 1 + turns) :
    shiftFrom len turns i a j = if i ≤ j ∧ j + 1 < len then a (j + 1) else a j := by
  induction turns generalizing i a with
  | zero => rw [shiftFrom, if_neg (by omega)]
  | succ turns ih =>
    rw [shiftFrom]
    by_cases hi : i + 1 < len
    · rw [if_pos hi, ih (by omega)]
      rcases Nat.lt_trichotomy j i with hlt | rfl | hgt
      · rw [if_neg (by omega), if_neg (by omega), update_of_ne hlt.ne]
      · rw [if_neg (by omega), if_pos ⟨le_rfl, hi⟩, update_self]
      · rw [update_of_ne (by omega), update_of_ne hgt.ne']
        exact if_congr (by omega) rfl rfl
    · rw [if_neg hi, if_neg (by omega)]

/-- An entry is removed. -/
theorem toList_shiftFrom (hi : i < len) (h : len ≤ i + 1 + turns) :
    toList (shiftFrom len turns i a) (len - 1) = (toList a len).eraseIdx i := by
  refine List.ext_getElem? fun j => ?_
  rw [List.getElem?_eraseIdx, getElem?_toList, getElem?_toList, getElem?_toList, shiftFrom_apply h]
  by_cases hj : j < i
  · rw [if_neg (show ¬ (i ≤ j ∧ j + 1 < len) by omega),
      if_pos (show j < len - 1 by omega), if_pos hj, if_pos (show j < len by omega)]
  · by_cases hlt : j + 1 < len
    · rw [if_pos (show j < len - 1 by omega), if_pos ⟨Nat.le_of_not_lt hj, hlt⟩,
        if_neg hj, if_pos hlt]
    · rw [if_neg (show ¬ j < len - 1 by omega), if_neg hj, if_neg hlt]

/-- The first entry with a value is removed. -/
theorem toList_shiftFrom_eq_erase [DecidableEq α] (hi : i < len) (h : len ≤ i + 1 + turns)
    (hx : a i = x) (hfirst : ∀ j < i, a j ≠ x) : toList (shiftFrom len turns i a) (len - 1) =
    (toList a len).erase x := by
  have hidx : (toList a len).idxOf x = i := by
    refine (List.findIdx_eq (by rwa [length_toList])).2 ⟨?_, fun j hj => ?_⟩
    · simpa [toList] using hx
    · simpa [toList] using hfirst j hj
  rw [toList_shiftFrom hi h, List.erase_eq_eraseIdx_of_idxOf hidx]

end ArrayList
