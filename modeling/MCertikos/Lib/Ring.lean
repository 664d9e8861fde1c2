import Mathlib.Data.List.Iterate
import Mathlib.Data.List.Nodup
import Mathlib.Logic.Function.Basic

/-!
# Circular doubly linked lists with a sentinel

The nodes of a pool are linked in both directions by `Links`, and one node, the sentinel, is the
head of a circular list. `Represents` says that the links from the sentinel and back to it go
through the nodes of a list, once each. A node is taken out (`Represents.unlink`) and put in after
the sentinel (`Represents.pushFront`) by the usual assignments, and a walk along the links in
either direction that looks for a node is a search of the list (`Represents.scan_next`,
`Represents.scan_prev`).
-/

namespace LinkedRing

open Function

variable {ι : Type*}

/-- The links of a pool of nodes. -/
structure Links (ι : Type*) where
  next : ι → ι
  prev : ι → ι

/-- The nodes of the list are linked in order, from a node `p` on and up to a node `q`. -/
def Path (k : Links ι) : ι → List ι → ι → Prop
  | p, [], q => k.next p = q ∧ k.prev q = p
  | p, x :: l, q => k.next p = x ∧ k.prev x = p ∧ Path k x l q

/-- The links from the sentinel and back to it go through the nodes of the list. -/
structure Represents (k : Links ι) (head : ι) (l : List ι) : Prop where
  path : Path k head l head
  nodup : (head :: l).Nodup

/-- The links with their directions exchanged. -/
def Links.flip (k : Links ι) : Links ι := ⟨k.prev, k.next⟩

section
variable {k k' : Links ι} {p q x y head : ι} {l l₁ l₂ : List ι}

/-! ## Paths -/

theorem Path.congr (h : Path k p l q) (hn : ∀ y ∈ p :: l, k'.next y = k.next y)
    (hp : ∀ y ∈ l ++ [q], k'.prev y = k.prev y) : Path k' p l q := by
  induction l generalizing p with
  | nil => exact ⟨(hn p (.head _)).trans h.1, (hp q (.head _)).trans h.2⟩
  | cons x l ih =>
    obtain ⟨h1, h2, h3⟩ := h
    exact ⟨(hn p (.head _)).trans h1, (hp x (.head _)).trans h2,
      ih h3 (fun y hy => hn y (.tail _ hy)) fun y hy => hp y (.tail _ hy)⟩

theorem path_append : Path k p (l₁ ++ x :: l₂) q ↔ Path k p l₁ x ∧ Path k x l₂ q := by
  induction l₁ generalizing p with
  | nil => exact and_assoc.symm
  | cons y l₁ ih => simp only [List.cons_append, Path, ih, and_assoc]

section
variable (h : Path k p l q)
include h

theorem Path.flip : Path k.flip q l.reverse p := by
  induction l generalizing p with
  | nil => exact ⟨h.2, h.1⟩
  | cons x l ih =>
    obtain ⟨h1, h2, h3⟩ := h
    rw [List.reverse_cons]
    exact path_append.2 ⟨ih h3, h2, h1⟩

/-- The node before the end of a path is its start or on it. -/
theorem Path.prev_mem : k.prev q ∈ p :: l := by
  induction l generalizing p with
  | nil =>
    rw [h.2]
    exact .head _
  | cons x l ih => exact .tail _ (ih h.2.2)

/-- The node after the start of a path is its end or on it. -/
theorem Path.next_mem : k.next p ∈ q :: l.reverse := h.flip.prev_mem

/-- Following `next` visits the nodes of the path in order. -/
theorem Path.iterate_next : List.iterate k.next (k.next p) l.length = l := by
  induction l generalizing p with
  | nil => rfl
  | cons x l ih =>
    obtain ⟨h1, -, h3⟩ := h
    rw [List.length_cons, List.iterate, h1, ih h3]

/-- Behind the last node of the path is its end. -/
theorem Path.next_iterate : k.next^[l.length + 1] p = q := by
  induction l generalizing p with
  | nil => exact h.1
  | cons x l ih =>
    obtain ⟨h1, -, h3⟩ := h
    rw [List.length_cons, Function.iterate_succ_apply, h1, ih h3]

/-- The two directions are inverse to each other on a path. -/
theorem Path.prev_next (hy : y ∈ p :: l) : k.prev (k.next y) = y := by
  induction l generalizing p with
  | nil =>
    obtain rfl := List.mem_singleton.1 hy
    rw [h.1, h.2]
  | cons x l ih =>
    obtain ⟨h1, h2, h3⟩ := h
    rcases List.mem_cons.1 hy with rfl | hy
    · rw [h1, h2]
    · exact ih h3 hy

end

/-- Only the sentinel. -/
theorem Represents.empty (hn : k.next head = head) (hp : k.prev head = head) :
    Represents k head [] :=
  ⟨⟨hn, hp⟩, List.nodup_singleton head⟩

theorem Represents.flip (h : Represents k head l) : Represents k.flip head l.reverse :=
  ⟨h.path.flip, by simpa using h.nodup⟩

/-! ## Assignments to the links -/

variable [DecidableEq ι]

/-- `x->next = y`. -/
def Links.setNext (k : Links ι) (x y : ι) : Links ι := { k with next := update k.next x y }

/-- `x->prev = y`. -/
def Links.setPrev (k : Links ι) (x y : ι) : Links ι := { k with prev := update k.prev x y }

/-- Takes a node out. -/
def Links.unlink (k : Links ι) (x : ι) : Links ι :=
  let k := k.setPrev (k.next x) (k.prev x)
  k.setNext (k.prev x) (k.next x)

/-- Puts a node in after the sentinel. -/
def Links.pushFront (k : Links ι) (head x : ι) : Links ι :=
  let k := k.setNext x (k.next head)
  let k := k.setPrev x head
  let k := k.setPrev (k.next head) x
  k.setNext head x

/-- A path is led to another end. -/
theorem Path.retarget (h : Path k p l x) (hnd : (p :: l).Nodup) (hy : y ∉ l) :
    Path ((k.setPrev y (k.prev x)).setNext (k.prev x) y) p l y := by
  induction l generalizing p with
  | nil =>
    rw [h.2]
    exact ⟨update_self .., update_self ..⟩
  | cons z l ih =>
    obtain ⟨h1, h2, h3⟩ := h
    obtain ⟨hp, hnd⟩ := List.nodup_cons.1 hnd
    have hpx : p ≠ k.prev x := fun he => hp (he ▸ h3.prev_mem)
    have hzy : z ≠ y := fun he => hy (he ▸ .head _)
    refine ⟨?_, ?_, ih h3 hnd fun hm => hy (.tail _ hm)⟩
    · exact (update_of_ne hpx _ _).trans h1
    · exact (update_of_ne hzy _ _).trans h2

/-- A node of a path is taken out. -/
theorem Path.unlink (h₁ : Path k p l₁ x) (h₂ : Path k x l₂ q)
    (hp : (p :: (l₁ ++ x :: l₂)).Nodup) (hq : (l₁ ++ x :: (l₂ ++ [q])).Nodup) :
    Path (k.unlink x) p (l₁ ++ l₂) q := by
  have hself : k.next x ≠ x := by
    intro he
    have hm := h₂.next_mem
    rw [he] at hm
    grind
  have hk : k.unlink x = (k.setPrev (k.next x) (k.prev x)).setNext (k.prev x) (k.next x) := by
    simp only [Links.unlink, Links.setPrev, update_of_ne hself.symm]
  have hfirst : ∀ y, y = k.next x → y ∉ l₁ → Path (k.unlink x) p l₁ y := by
    rintro y rfl hy
    rw [hk]
    exact h₁.retarget (by grind) hy
  cases l₂ with
  | nil =>
    rw [List.append_nil]
    exact hfirst q h₂.1.symm (by grind)
  | cons y l₂ =>
    obtain ⟨h1, h2, h3⟩ := h₂
    refine path_append.2 ⟨hfirst y h1.symm (by grind), h3.congr (fun z hz => ?_) fun z hz => ?_⟩
    · have hne : z ≠ k.prev x := fun he => by
        have hm := h₁.prev_mem
        rw [← he] at hm
        grind
      rw [hk]
      exact update_of_ne hne _ _
    · have hne : z ≠ k.next x := by grind
      rw [hk]
      exact update_of_ne hne _ _

/-! ## Rings -/

theorem Represents.unlink (h : Represents k head l) (hx : x ∈ l) :
    Represents (k.unlink x) head (l.erase x) := by
  obtain ⟨l₁, l₂, hnot, rfl, he⟩ := List.exists_erase_eq hx
  obtain ⟨h₁, h₂⟩ := path_append.1 h.path
  have hnd := h.nodup
  rw [he]
  exact ⟨h₁.unlink h₂ hnd (by grind), by grind⟩

theorem Represents.pushFront (h : Represents k head l) (hx : x ∉ head :: l) :
    Represents (k.pushFront head x) head (x :: l) := by
  obtain ⟨hpath, hnd⟩ := h
  obtain ⟨hxh, hxl⟩ := not_or.1 fun hm => hx (List.mem_cons.2 hm)
  have hnext : k.next head ≠ x := fun he => hx (by grind [hpath.next_mem])
  have hk : k.pushFront head x =
      ⟨update (update k.next x (k.next head)) head x,
        update (update k.prev x head) (k.next head) x⟩ := by
    simp only [Links.pushFront, Links.setNext, Links.setPrev, update_of_ne (Ne.symm hxh)]
  refine ⟨?_, by grind⟩
  rw [hk]
  refine ⟨update_self .., ?_, ?_⟩
  · exact (update_of_ne hnext.symm _ _).trans (update_self ..)
  · have hx' : update (update k.next x (k.next head)) head x x = k.next head :=
      (update_of_ne hxh _ _).trans (update_self ..)
    cases l with
    | nil => exact ⟨hx'.trans hpath.1, by simp [hpath.1]⟩
    | cons y l =>
      obtain ⟨h1, h2, h3⟩ := hpath
      refine ⟨hx'.trans h1, by simp [h1], h3.congr (fun z hz => ?_) fun z hz => ?_⟩
      · have hzh : z ≠ head := by grind
        have hzx : z ≠ x := by grind
        exact (update_of_ne hzh _ _).trans (update_of_ne hzx _ _)
      · have hzy : z ≠ k.next head := by grind
        have hzx : z ≠ x := by grind
        exact (update_of_ne hzy _ _).trans (update_of_ne hzx _ _)

/-- A node is moved behind the sentinel. -/
theorem Represents.toFront (h : Represents k head l) (hx : x ∈ l) :
    Represents ((k.unlink x).pushFront head x) head (x :: l.erase x) := by
  have hnd := h.nodup
  refine (h.unlink hx).pushFront fun hm => ?_
  rcases List.mem_cons.1 hm with rfl | hm
  · exact (List.nodup_cons.1 hnd).1 hx
  · exact (List.nodup_cons.1 hnd).2.not_mem_erase hm

/-! ## Walks -/

/-- Walks from a node to the sentinel, up to the first node that passes the test. None stands for a
walk that takes more turns than given. -/
def scan (next : ι → ι) (head : ι) (test : ι → Bool) : Nat → ι → Option (Option ι)
  | 0, _ => none
  | n + 1, x =>
    if x = head then some none
    else if test x then some (some x)
    else scan next head test n (next x)

theorem Path.scan_next {test : ι → Bool} {n : Nat} (h : Path k p l head) (hl : head ∉ l)
    (hn : l.length < n) : scan k.next head test n (k.next p) = some (l.find? test) := by
  induction l generalizing p n with
  | nil =>
    cases n with
    | zero => exact absurd hn (Nat.not_lt_zero _)
    | succ n => simp [scan, h.1]
  | cons x l ih =>
    obtain ⟨h1, -, h3⟩ := h
    obtain ⟨hxh, hl⟩ := not_or.1 fun hm => hl (List.mem_cons.2 hm)
    cases n with
    | zero => exact absurd hn (Nat.not_lt_zero _)
    | succ n =>
      rw [h1, scan, if_neg (Ne.symm hxh)]
      cases ht : test x with
      | true => simp [ht]
      | false =>
        rw [List.find?_cons, ht, if_neg Bool.false_ne_true]
        exact ih h3 hl (Nat.lt_of_succ_lt_succ hn)

/-- A walk along `next` searches the list. -/
theorem Represents.scan_next {test : ι → Bool} {n : Nat} (h : Represents k head l)
    (hn : l.length < n) : scan k.next head test n (k.next head) = some (l.find? test) :=
  h.path.scan_next (List.nodup_cons.1 h.nodup).1 hn

/-- A walk along `prev` searches the list from its end. -/
theorem Represents.scan_prev {test : ι → Bool} {n : Nat} (h : Represents k head l)
    (hn : l.length < n) : scan k.prev head test n (k.prev head) = some (l.reverse.find? test) :=
  h.flip.scan_next (by rwa [List.length_reverse])

end

end LinkedRing
