import Mathlib.Data.Finset.Card
import Mathlib.Data.Set.Insert
import Mathlib.Logic.Function.Basic

/-!
# Resources owned by slots

A family of slots `own : ι → Option β` owns the resources that are in its slots. `OwnedOnce own
used` says that what the slots own is in use and that no resource is in two slots; `Tight own used`
that every resource in use is in some slot. A slot that takes a resource which is not in use, and
slots that give their resources back, keep both; a slot that loses its resource keeps the first
only. The second also follows from the first by counting.
-/

namespace Ownership

open Function

variable {ι β : Type}

/-- The resources in the slots are in use, and none is in two slots. -/
structure OwnedOnce (own : ι → Option β) (used : Set β) : Prop where
  used : ∀ i b, own i = some b → b ∈ used
  once : ∀ i j b, own i = some b → own j = some b → i = j

/-- No resource in use is lost. -/
def Tight (own : ι → Option β) (used : Set β) : Prop := ∀ b ∈ used, ∃ i, own i = some b

variable {own : ι → Option β} {used : Set β} {i : ι} {b : β}

theorem OwnedOnce.empty : OwnedOnce (fun _ : ι => none) used :=
  ⟨fun _ _ hb => (nomatch hb), fun _ _ _ hb _ => nomatch hb⟩

/-- Slots lose resources, and more of what they do not own is in use or out of use. -/
theorem OwnedOnce.weaken (h : OwnedOnce own used) {own' : ι → Option β} {used' : Set β}
    (hle : ∀ i b, own' i = some b → own i = some b ∧ b ∈ used') : OwnedOnce own' used' :=
  ⟨fun i b hi => (hle i b hi).2, fun i j b hi hj => h.once i j b (hle i b hi).1 (hle j b hj).1⟩

theorem OwnedOnce.mono (h : OwnedOnce own used) {used' : Set β} (hsub : used ⊆ used') :
    OwnedOnce own used' :=
  h.weaken fun i b hi => ⟨hi, hsub (h.used i b hi)⟩

section
variable [DecidableEq ι]

/-- A slot is given a resource in use that no other slot owns; what it owned before is lost. -/
theorem OwnedOnce.assign (h : OwnedOnce own used) (hb : b ∈ used)
    (hnew : ∀ j, j ≠ i → own j ≠ some b) : OwnedOnce (update own i (some b)) used := by
  constructor
  · intro j c hj
    rcases eq_or_ne j i with rfl | hne
    · rw [update_self] at hj
      cases hj
      exact hb
    · rw [update_of_ne hne] at hj
      exact h.used j c hj
  · intro j k c hj hk
    rcases eq_or_ne j i with hji | hji <;> rcases eq_or_ne k i with hki | hki
    · rw [hji, hki]
    · rw [hji, update_self] at hj
      rw [update_of_ne hki] at hk
      cases hj
      exact absurd hk (hnew k hki)
    · rw [update_of_ne hji] at hj
      rw [hki, update_self] at hk
      cases hk
      exact absurd hj (hnew j hji)
    · rw [update_of_ne hji] at hj
      rw [update_of_ne hki] at hk
      exact h.once j k c hj hk

/-- A slot takes a resource that is not in use. -/
theorem OwnedOnce.take (h : OwnedOnce own used) (hb : b ∉ used) :
    OwnedOnce (update own i (some b)) (insert b used) :=
  (h.mono (Set.subset_insert b used)).assign (Set.mem_insert b used) fun j _ hj =>
    hb (h.used j b hj)

/-- A slot is emptied. -/
theorem OwnedOnce.clear (h : OwnedOnce own used) : OwnedOnce (update own i none) used := by
  refine h.weaken fun j c hj => ?_
  rcases eq_or_ne j i with rfl | hne
  · rw [update_self] at hj
    cases hj
  · rw [update_of_ne hne] at hj
    exact ⟨hj, h.used j c hj⟩

theorem Tight.take (h : Tight own used) (hi : own i = none) :
    Tight (update own i (some b)) (insert b used) := by
  intro c hc
  rcases Set.mem_insert_iff.1 hc with rfl | hc
  · exact ⟨i, update_self _ _ _⟩
  · obtain ⟨j, hj⟩ := h c hc
    have hne : j ≠ i := by
      rintro rfl
      rw [hi] at hj
      cases hj
    exact ⟨j, by rw [update_of_ne hne, hj]⟩

end

/-- Nothing is lost if the resources in use are no more than the slots that own one. -/
theorem OwnedOnce.tight_of_card (h : OwnedOnce own used) {T : Finset ι} {U : Finset β}
    (hT : ∀ i ∈ T, own i ≠ none) (hU : ∀ b ∈ used, b ∈ U) (hcard : U.card ≤ T.card) :
    Tight own used := by
  classical
  have hsub : T.image own ⊆ U.image some := by
    intro o ho
    obtain ⟨i, hi, rfl⟩ := Finset.mem_image.1 ho
    obtain ⟨b, hb⟩ := Option.ne_none_iff_exists'.1 (hT i hi)
    exact Finset.mem_image.2 ⟨b, hU b (h.used i b hb), hb.symm⟩
  have hinj : Set.InjOn own T := by
    intro i hi j _ hij
    obtain ⟨b, hb⟩ := Option.ne_none_iff_exists'.1 (hT i hi)
    exact h.once i j b hb (hij ▸ hb)
  have heq : T.image own = U.image some := by
    refine Finset.eq_of_subset_of_card_le hsub ?_
    rw [Finset.card_image_of_injective _ (Option.some_injective β),
      Finset.card_image_of_injOn hinj]
    exact hcard
  intro b hb
  have hmem : some b ∈ T.image own := heq ▸ Finset.mem_image_of_mem some (hU b hb)
  obtain ⟨i, -, hi⟩ := Finset.mem_image.1 hmem
  exact ⟨i, hi⟩

section
variable {S : Set ι} [DecidablePred (· ∈ S)]

/-- Slots give their resources back. -/
theorem OwnedOnce.dropAll (h : OwnedOnce own used) :
    OwnedOnce (fun i => if i ∈ S then none else own i) (used \ {b | ∃ i ∈ S, own i = some b}) := by
  refine h.weaken fun i b hi => ?_
  split at hi
  · cases hi
  · next hS =>
    refine ⟨hi, h.used i b hi, ?_⟩
    rintro ⟨j, hj, hjb⟩
    exact hS (h.once j i b hjb hi ▸ hj)

theorem Tight.dropAll (h : Tight own used) :
    Tight (fun i => if i ∈ S then none else own i) (used \ {b | ∃ i ∈ S, own i = some b}) := by
  rintro b ⟨hb, hS⟩
  obtain ⟨i, hi⟩ := h b hb
  exact ⟨i, (if_neg fun hmem => hS ⟨i, hmem, hi⟩).trans hi⟩

end

end Ownership
