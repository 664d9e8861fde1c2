import Mathlib.Data.List.Basic

/-!
# Strings in buffers

A buffer is a list of characters, a pointer into it is a position, and a string is what is in front
of a NUL. The operations are those that a C program does with them; they fail when they leave the
buffer (`Fault`). Each has one lemma, for a buffer that is cut at the pointer.

`words` are the maximal runs of a string without a separator. `exists_word` finds the first one,
which is how a scanner reads a string.
-/

namespace CString

/-- What a program on buffers can do wrong. -/
inductive Fault where
  /-- An access outside of the buffer. -/
  | outside
  /-- An assertion that fails. -/
  | assertion
  /-- A loop that is not finished after its number of turns. -/
  | turns
  deriving DecidableEq, Repr

@[simp] theorem ok_bind {α β : Type} {x : α} {f : α → Except Fault β} :
    (Except.ok x : Except Fault α) >>= f = f x := rfl

/-- `ASSERT`. -/
def check (p : Prop) [Decidable p] : Except Fault Unit := if p then .ok () else .error .assertion

@[simp] theorem check_of {p : Prop} [Decidable p] (h : p) : check p = .ok () := if_pos h

section
variable {α : Type} {buf a b d s w : List α} {c e : α} {p : Nat} {P : α → Bool}

/-! ## Characters -/

/-- `*p`. -/
def load (buf : List α) (p : Nat) : Except Fault α :=
  match buf[p]? with
  | some c => .ok c
  | none => .error .outside

/-- `*p = c`. -/
def store (buf : List α) (p : Nat) (c : α) : Except Fault (List α) :=
  if p < buf.length then .ok (buf.set p c) else .error .outside

/-- `while (P(*p)) p++`. -/
def skipWhile (P : α → Bool) (buf : List α) (p : Nat) : Except Fault Nat :=
  match (buf.drop p).findIdx? (!P ·) with
  | some k => .ok (p + k)
  | none => .error .outside

theorem load_eq (h : buf = a ++ c :: b) (hp : p = a.length) : load buf p = .ok c := by
  simp [load, h, hp]

theorem load_start : load (c :: b) 0 = .ok c := rfl

theorem store_eq (h : buf = a ++ c :: b) (hp : p = a.length) :
    store buf p e = .ok (a ++ e :: b) := by
  simp [store, h, hp]

theorem skipWhile_eq (h : buf = a ++ (w ++ c :: b)) (hp : p = a.length) (hw : ∀ x ∈ w, P x = true)
    (hc : P c = false) : skipWhile P buf p = .ok (p + w.length) := by
  have hnone : w.findIdx? (!P ·) = none :=
    List.findIdx?_eq_none_iff.2 fun x hx => by simp [hw x hx]
  simp [skipWhile, h, hp, List.findIdx?_append, List.findIdx?_cons, hnone, hc]

/-! ## Strings -/

variable [Zero α]

/-- `strcpy`. -/
def strcpy (dst : List α) (p : Nat) (s : List α) : Except Fault (List α) :=
  if p + s.length < dst.length then .ok (dst.take p ++ (s ++ 0 :: dst.drop (p + s.length + 1)))
  else .error .outside

theorem strcpy_eq (h : buf = a ++ d) (hp : p = a.length) (hs : s.length < d.length) :
    strcpy buf p s = .ok (a ++ (s ++ 0 :: d.drop (s.length + 1))) := by
  subst hp h
  have hlt : a.length + s.length < (a ++ d).length := by
    rw [List.length_append]
    omega
  rw [strcpy, if_pos hlt, List.take_left, Nat.add_assoc, List.drop_length_add_append]

theorem strcpy_start (hs : s.length < buf.length) :
    strcpy buf 0 s = .ok (s ++ 0 :: buf.drop (s.length + 1)) :=
  strcpy_eq (a := []) rfl rfl hs

variable [DecidableEq α]

/-- The string at a pointer; its length is what `strlen` gives. -/
def string (buf : List α) (p : Nat) : Except Fault (List α) := do
  let q ← skipWhile (· ≠ 0) buf p
  return (buf.drop p).take (q - p)

theorem string_eq (h : buf = a ++ (s ++ 0 :: b)) (hp : p = a.length) (hs : (0 : α) ∉ s) :
    string buf p = .ok s := by
  have hall : ∀ x ∈ s, (decide (x ≠ 0)) = true := fun x hx => by
    simpa using fun h : x = 0 => hs (h ▸ hx)
  rw [string, skipWhile_eq h hp hall (by simp), ok_bind]
  subst hp h
  simp [Pure.pure, Except.pure]

theorem string_start (hs : (0 : α) ∉ s) : string (s ++ 0 :: b) 0 = .ok s :=
  string_eq (a := []) rfl rfl hs

end

/-! ## Words -/

section
variable {α : Type} [DecidableEq α] {sep : α} {l l' w : List α} {n : Nat}

/-- The maximal runs without a separator. -/
def words (sep : α) (l : List α) : List (List α) := (l.splitOn sep).filter (· ≠ [])

@[simp] theorem words_nil : words sep [] = [] := rfl

theorem words_append : words sep (l ++ sep :: l') = words sep l ++ words sep l' := by
  rw [words, List.splitOn_append_cons_self, List.filter_append]
  rfl

theorem words_cons : words sep (sep :: l) = words sep l := by
  rw [← List.nil_append (sep :: l), words_append, words_nil, List.nil_append]

theorem words_replicate_append : words sep (List.replicate n sep ++ l) = words sep l := by
  induction n with
  | zero => rfl
  | succ n ih => rw [List.replicate_succ, List.cons_append, words_cons, ih]

theorem words_of_notMem (hne : w ≠ []) (hw : sep ∉ w) : words sep w = [w] := by
  rw [words, List.splitOn_eq_singleton hw]
  simp [hne]

/-- A first word, and what is behind it. -/
theorem words_word_append (hne : w ≠ []) (hw : sep ∉ w) (hl : l = [] ∨ ∃ r, l = sep :: r) :
    words sep (w ++ l) = w :: words sep l := by
  rcases hl with rfl | ⟨r, rfl⟩
  · rw [List.append_nil, words_of_notMem hne hw, words_nil]
  · rw [words_append, words_of_notMem hne hw, words_cons, List.singleton_append]

/-- A string is a run of separators, or it has a first word. -/
theorem exists_word (sep : α) (l : List α) : (∃ n, l = List.replicate n sep) ∨
    ∃ n w r, l = List.replicate n sep ++ (w ++ r) ∧ w ≠ [] ∧ sep ∉ w ∧
    (r = [] ∨ ∃ r', r = sep :: r') := by
  induction l with
  | nil => exact .inl ⟨0, rfl⟩
  | cons c l ih =>
    by_cases hc : c = sep
    · subst hc
      rcases ih with ⟨n, rfl⟩ | ⟨n, w, r, rfl, h⟩
      · exact .inl ⟨n + 1, rfl⟩
      · exact .inr ⟨n + 1, w, r, rfl, h⟩
    · refine .inr ⟨0, (c :: l).takeWhile (· ≠ sep), (c :: l).dropWhile (· ≠ sep), ?_, ?_, ?_, ?_⟩
      · exact List.takeWhile_append_dropWhile.symm
      · rw [List.takeWhile_cons_of_pos (by simpa using hc)]
        exact List.cons_ne_nil _ _
      · intro hmem
        simpa using List.all_eq_true.1 List.all_takeWhile _ hmem
      · cases hr : (c :: l).dropWhile (· ≠ sep) with
        | nil => exact .inl rfl
        | cons e r =>
          have he := List.head?_dropWhile_not (· ≠ sep) (c :: l)
          rw [hr] at he
          exact .inr ⟨r, by simpa using he⟩

theorem mem_words (h : w ∈ words sep l) : w ≠ [] ∧ sep ∉ w ∧ ∀ x ∈ w, x ∈ l := by
  induction hn : l.length using Nat.strongRecOn generalizing l with
  | ind n ih =>
    rcases exists_word sep l with ⟨k, rfl⟩ | ⟨k, v, r, rfl, hne, hv, hr⟩
    · rw [← List.append_nil (List.replicate k sep), words_replicate_append] at h
      cases h
    · rw [words_replicate_append, words_word_append hne hv hr] at h
      rcases List.mem_cons.1 h with rfl | h
      · exact ⟨hne, hv, fun x hx => by simp [hx]⟩
      · have hlt : r.length < n := by
          have := List.length_pos_of_ne_nil hne
          simp only [List.length_append] at hn
          omega
        obtain ⟨hne', hw, hmem⟩ := ih r.length hlt h rfl
        exact ⟨hne', hw, fun x hx => by simp [hmem x hx]⟩

end

end CString
