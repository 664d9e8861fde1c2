import Mathlib.Data.List.Induction
import Mathlib.Data.List.Nodup

/-!
# Doubly linked lists threaded through a pool

A pool of nodes is linked by two functions `next` and `prev` on indices, with one index `nil` that
stands for no node; a queue records the indices of its first and last node. `Represents` says that
these four represent a list of indices without duplicates. The rules below say how the
representation changes when a node is appended at the tail (`Represents.append`) and when a node is
unlinked, wherever it stands (`Represents.remove`).
-/

namespace LinkedList

open Function

variable {ι : Type*}

/-- The nodes of the list are linked in order, after a node `p`. -/
def Links (nil : ι) (next prev : ι → ι) : ι → List ι → Prop
  | _, [] => True
  | p, x :: xs => prev x = p ∧ next x = xs.headD nil ∧ Links nil next prev x xs

/-- The links and the two ends of a queue represent the list `q`. -/
structure Represents (nil : ι) (next prev : ι → ι) (head tail : ι) (q : List ι) : Prop where
  links : Links nil next prev nil q
  head : head = q.headD nil
  tail : tail = q.getLastD nil
  nodup : q.Nodup
  proper : nil ∉ q

section
variable {nil p head tail x : ι} {next prev next' prev' : ι → ι} {q l₁ l₂ : List ι}

/-- Links depend on the nodes of the list only. -/
theorem Links.congr (h : Links nil next prev p q) (hn : ∀ y ∈ q, next' y = next y)
    (hp : ∀ y ∈ q, prev' y = prev y) : Links nil next' prev' p q := by
  induction q generalizing p with
  | nil => trivial
  | cons y q ih =>
    obtain ⟨h1, h2, h3⟩ := h
    refine ⟨?_, ?_, ih h3 (fun z hz => hn z (.tail _ hz)) fun z hz => hp z (.tail _ hz)⟩
    · rw [hp y (.head _), h1]
    · rw [hn y (.head _), h2]

/-- The representation depends on the nodes of the list only. -/
theorem Represents.congr (h : Represents nil next prev head tail q)
    (hn : ∀ y ∈ q, next' y = next y) (hp : ∀ y ∈ q, prev' y = prev y) :
    Represents nil next' prev' head tail q :=
  ⟨h.links.congr hn hp, h.head, h.tail, h.nodup, h.proper⟩

/-- A representation of the empty list. -/
theorem Represents.empty : Represents nil next prev nil nil [] :=
  ⟨trivial, rfl, rfl, List.nodup_nil, List.not_mem_nil⟩

/-- Only the empty list has no last node. -/
theorem Represents.tail_eq_nil_iff (h : Represents nil next prev head tail q) :
    tail = nil ↔ q = [] := by
  rw [h.tail]
  cases q using List.reverseRecOn with
  | nil => simp
  | append_singleton q y =>
    have hy : y ≠ nil := fun he => h.proper (by simp [he])
    simp [hy]

/-- The neighbours of a node. -/
theorem Links.neighbours (h : Links nil next prev p (l₁ ++ x :: l₂)) :
    prev x = l₁.getLastD p ∧ next x = l₂.headD nil := by
  induction l₁ generalizing p with
  | nil => exact ⟨h.1, h.2.1⟩
  | cons y l₁ ih =>
    rw [List.getLastD_cons]
    exact ih h.2.2

variable [DecidableEq ι]

/-- Links of a list with one more node at its end: the last node points forward to the new one, and
the new one back to it. -/
theorem Links.append (h : Links nil next prev p q) (hq : q.Nodup) (hx : x ∉ q) (hp : x ≠ p) :
    Links nil (update (update next (q.getLastD p) x) x nil)
      (update prev x (q.getLastD p)) p (q ++ [x]) := by
  induction q generalizing p with
  | nil => exact ⟨by simp, by simp, trivial⟩
  | cons y q ih =>
    obtain ⟨h1, h2, h3⟩ := h
    obtain ⟨hyq, hq⟩ := List.nodup_cons.1 hq
    obtain ⟨hxy, hxq⟩ := not_or.1 (fun h => hx (List.mem_cons.2 h))
    have hlast : (y :: q).getLastD p = q.getLastD y := by
      rw [List.getLastD_cons]
    rw [hlast]
    refine ⟨?_, ?_, ih h3 hq hxq hxy⟩
    · rw [update_of_ne (Ne.symm hxy), h1]
    · rw [update_of_ne (Ne.symm hxy)]
      cases q with
      | nil => exact update_self ..
      | cons z q =>
        have hne : y ≠ (z :: q).getLastD y := by
          intro he
          refine hyq ?_
          rw [he, List.getLastD_cons]
          exact List.getLastD_mem_cons ..
        rw [update_of_ne hne, h2]
        rfl

/-- A new node at the tail. In an empty list there is no last node to link from, and the new node
is the head. -/
theorem Represents.append (h : Represents nil next prev head tail q) (hx : x ∉ q)
    (hnil : x ≠ nil) :
    Represents nil
      (update (if tail = nil then next else update next tail x) x nil)
      (update prev x tail) (if tail = nil then x else head) x (q ++ [x]) := by
  have hnd : (q ++ [x]).Nodup := by
    rw [List.nodup_append]
    exact ⟨h.nodup, List.nodup_singleton x, fun a ha b hb => by
      rw [List.mem_singleton.1 hb]
      exact fun he => hx (he ▸ ha)⟩
  have hproper : nil ∉ q ++ [x] := by
    simp only [List.mem_append, List.mem_singleton, not_or]
    exact ⟨h.proper, hnil.symm⟩
  refine ⟨?_, ?_, by simp, hnd, hproper⟩
  · by_cases ht : tail = nil
    · obtain rfl := h.tail_eq_nil_iff.1 ht
      rw [if_pos ht, ht]
      exact ⟨by simp, by simp, trivial⟩
    · rw [if_neg ht, h.tail]
      exact h.links.append h.nodup hx hnil
  · by_cases ht : tail = nil
    · obtain rfl := h.tail_eq_nil_iff.1 ht
      simp [ht]
    · rw [if_neg ht, h.head]
      cases q with
      | nil => exact absurd (h.tail_eq_nil_iff.2 rfl) ht
      | cons y q => rfl

/-- Links of a list from which a node is unlinked: its neighbours point to each other. -/
theorem Links.remove (h : Links nil next prev p (l₁ ++ x :: l₂)) (hnd : (l₁ ++ x :: l₂).Nodup) :
    Links nil (if l₁ = [] then next else update next (l₁.getLastD p) (l₂.headD nil))
      (if l₂ = [] then prev else update prev (l₂.headD nil) (l₁.getLastD p)) p (l₁ ++ l₂) := by
  -- induction along the nodes in front of the one that is unlinked
  induction l₁ generalizing p with
  | nil =>
    obtain ⟨-, -, h⟩ := h
    cases l₂ with
    | nil => trivial
    | cons y l₂ =>
      obtain ⟨-, hnext, h⟩ := h
      have hy : y ∉ l₂ := (List.nodup_cons.1 (List.nodup_cons.1 hnd).2).1
      refine ⟨update_self .., hnext, h.congr (fun _ _ => rfl) fun z hz => ?_⟩
      exact update_of_ne (ne_of_mem_of_not_mem hz hy) _ _
  | cons y l₁ ih =>
    obtain ⟨hprev, hnext, h⟩ := h
    obtain ⟨hy, hnd⟩ := List.nodup_cons.1 hnd
    have hy₁ : y ∉ l₁ := fun hm => hy (List.mem_append_left _ hm)
    have hy₂ : y ∉ l₂ := fun hm => hy (List.mem_append_right _ (.tail _ hm))
    have hkeep : (if l₂ = [] then prev else update prev (l₂.headD nil) (l₁.getLastD y)) y =
        prev y := by
      cases l₂ with
      | nil => rfl
      | cons z l₂ => exact update_of_ne (ne_of_mem_of_not_mem (List.mem_cons_self ..) hy₂).symm _ _
    rw [List.getLastD_cons, if_neg (List.cons_ne_nil _ _)]
    refine ⟨hkeep.trans hprev, ?_, (ih h hnd).congr (fun z hz => ?_) fun _ _ => rfl⟩
    · cases l₁ with
      | nil => exact update_self ..
      | cons z l₁ =>
        have hne : y ≠ (z :: l₁).getLastD y := by
          rw [List.getLastD_cons]
          exact fun he => hy₁ (he ▸ List.getLastD_mem_cons ..)
        rw [update_of_ne hne, hnext]
        rfl
    · cases l₁ with
      | nil => exact update_of_ne (ne_of_mem_of_not_mem hz hy₂) _ _
      | cons w l₁ => rfl

/-- A node is unlinked. A first node has no neighbour to link from, and a last one none to link to;
then an end of the list is set instead. -/
theorem Represents.remove (h : Represents nil next prev head tail (l₁ ++ x :: l₂)) :
    Represents nil (if prev x = nil then next else update next (prev x) (next x))
      (if next x = nil then prev else update prev (next x) (prev x))
      (if prev x = nil then next x else head) (if next x = nil then prev x else tail)
      (l₁ ++ l₂) := by
  obtain ⟨hprev, hnext⟩ := h.links.neighbours
  have hsub : List.Sublist (l₁ ++ l₂) (l₁ ++ x :: l₂) :=
    (List.sublist_cons_self x l₂).append_left l₁
  have hfirst : prev x = nil ↔ l₁ = [] := by
    rw [hprev]
    rcases List.eq_nil_or_concat' l₁ with rfl | ⟨l, y, rfl⟩
    · simp
    · have hy : y ≠ nil := fun he => h.proper (by simp [he])
      simp [hy]
  have hlast : next x = nil ↔ l₂ = [] := by
    rw [hnext]
    cases l₂ with
    | nil => simp
    | cons y l₂ =>
      have hy : y ≠ nil := fun he => h.proper (by simp [he])
      simp [hy]
  simp only [hfirst, hlast]
  rw [hprev, hnext]
  refine ⟨h.links.remove h.nodup, ?_, ?_, h.nodup.sublist hsub, fun hm =>
    h.proper (hsub.subset hm)⟩
  · rw [h.head]
    cases l₁ <;> simp
  · rw [h.tail]
    rcases List.eq_nil_or_concat' l₂ with rfl | ⟨l, y, rfl⟩
    · simp
    · rw [← List.cons_append, ← List.append_assoc, ← List.append_assoc, List.getLastD_concat,
        List.getLastD_concat, if_neg (by simp)]

end

end LinkedList
