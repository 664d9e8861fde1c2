import Mathlib.Data.List.Basic
import Mathlib.Order.Nat

/-!
# Ring buffers

An array of `size` cells, with the positions of the next cell to read and of the next one to write,
holds the list of what has been written and not read (`Holds`). Equal positions stand for the empty
list. A write to the last free cell makes them equal, and all that was written is lost
(`Holds.overflow`).
-/

namespace RingBuffer

open Function

variable {α : Type*}

/-- The cell behind another one. -/
def next (size i : Nat) : Nat := if i + 1 = size then 0 else i + 1

/-- A number below `2 * size` as the number of a cell. -/
def wrap (size i : Nat) : Nat := if i < size then i else i - size

/-- The cells from `r` up to `w` hold the list. -/
structure Holds (size : Nat) (buf : Nat → α) (r w : Nat) (q : List α) : Prop where
  lt : r < size
  length : q.length < size
  pos : w = wrap size (r + q.length)
  cell : ∀ k (h : k < q.length), buf (wrap size (r + k)) = q[k]

variable {size r w k l : Nat} {buf : Nat → α} {q : List α} {x : α}

theorem next_wrap (hr : r < size) (hk : k < size) :
    next size (wrap size (r + k)) = wrap size (r + (k + 1)) := by
  unfold next wrap
  split_ifs <;> omega

theorem wrap_next (hk : k < size) : wrap size (next size r + k) = wrap size (r + (k + 1)) := by
  unfold next wrap
  split_ifs <;> omega

theorem wrap_ne (hkl : k < l) (hl : l < size) : wrap size (r + k) ≠ wrap size (r + l) := by
  unfold wrap
  split_ifs <;> omega

theorem holds_nil (hr : r < size) : Holds size buf r r [] :=
  ⟨hr, Nat.zero_lt_of_lt hr, (if_pos hr).symm, nofun⟩

theorem Holds.put (h : Holds size buf r w q) (hroom : q.length + 1 < size) :
    Holds size (update buf w x) r (next size w) (q ++ [x]) := by
  refine ⟨h.lt, by rwa [List.length_append], ?_, fun k hk => ?_⟩ <;> rw [h.pos]
  · rw [next_wrap h.lt h.length, List.length_append, List.length_singleton]
  · rw [List.getElem_append]
    split
    · next hlt => rw [update_of_ne (wrap_ne hlt h.length), h.cell k hlt]
    · next hge =>
      rw [List.length_append, List.length_singleton] at hk
      obtain rfl : k = q.length := by omega
      simp

theorem Holds.overflow (h : Holds size buf r w q) (hfull : q.length + 1 = size) :
    Holds size (update buf w x) r (next size w) [] := by
  have hpos : next size w = r := by
    rw [h.pos, next_wrap h.lt h.length, hfull, wrap, if_neg (by omega), Nat.add_sub_cancel]
  rw [hpos]
  exact holds_nil h.lt

theorem Holds.eq_of_nil (h : Holds size buf r w []) : r = w := (if_pos h.lt).symm.trans h.pos.symm

theorem Holds.get (h : Holds size buf r w (x :: q)) :
    r ≠ w ∧ buf r = x ∧ Holds size buf (next size r) w q := by
  have hr : wrap size (r + 0) = r := if_pos h.lt
  have hlt := h.lt
  have hlen : q.length + 1 < size := h.length
  refine ⟨?_, ?_, ?_, by omega, ?_, fun k hk => ?_⟩
  · rw [h.pos]
    exact fun he => wrap_ne (Nat.succ_pos _) hlen (hr.trans he)
  · exact (congrArg buf hr).symm.trans (h.cell 0 (Nat.succ_pos _))
  · unfold next
    split <;> omega
  · rw [h.pos, List.length_cons, wrap_next (by omega)]
  · rw [wrap_next (by omega), h.cell (k + 1) (Nat.succ_lt_succ hk), List.getElem_cons_succ]

end RingBuffer
