import MCertikos.Fs.Path
import MCertikos.Lib.CString
import Mathlib.Data.BitVec
import Mathlib.Data.List.DropRight

/-!
# The paths of the shell

The functions of `user/shell/path.c`. `split_path` cuts the first component off a path, in its
buffer, and `normalize_path` builds the path without `.` and `..` from the components in a second
buffer of the same size and copies it back.
-/

namespace MCertikos

open CString

/-- The component `.`. -/
def dotName : List Byte := [46]

/-- The component `..`. -/
def dotdotName : List Byte := [46, 46]

/-! ## The code -/

/-- Writes a slash at `p`, unless there is one in front of it. -/
def addSlash (buf : List Byte) (p : Nat) : Except Fault (List Byte × Nat) := do
  if (← load buf (p - 1)) ≠ slash then
    return (← store buf p slash, p + 1)
  return (buf, p)

/-- Reference: `join_path` (`user/shell/path.c:4`). The second argument says that `dst` is the
first path, so that it is there already. -/
def joinPath (dst : List Byte) (inPlace : Bool) (p1 p2 : List Byte) :
    Except Fault (List Byte) := do
  check (p2 ≠ [])
  let dst ← (if inPlace then .ok dst else strcpy dst 0 p1)
  let (dst, p) ← (if p1 ≠ [] then addSlash dst p1.length else .ok (dst, p1.length))
  let dst ← strcpy dst p p2
  check ((← load dst (p + p2.length)) = 0)
  return dst

/-- The buffer with the first component cut off, and the rest of the path, `none` for NULL.
Reference: `split_path` (`user/shell/path.c:22`). -/
def splitPath (buf : List Byte) (path : Nat) : Except Fault (List Byte × Option Nat) := do
  check ((← load buf path) ≠ slash)
  let path ← skipWhile (fun c => c ≠ slash ∧ c ≠ 0) buf path
  if (← load buf path) = slash then
    let buf ← store buf path 0
    let rest ← skipWhile (fun c => c = slash ∧ c ≠ 0) buf (path + 1)
    if (← load buf rest) = 0 then
      return (buf, none)
    return (buf, some rest)
  return (buf, none)

/-- Goes back to behind the last slash in front of `normEnd`. -/
def rewind (norm : List Byte) : (normEnd : Nat) → Except Fault Nat
  | 0 => .ok 0
  | normEnd + 1 => do
    if (← load norm normEnd) ≠ slash then
      rewind norm normEnd
    else
      return normEnd + 1

/-- What a turn of `normalize_path` does with a component. -/
def normalizeComponent (norm : List Byte) (normEnd : Nat) (c : List Byte) :
    Except Fault (List Byte × Nat) := do
  if c = dotName then
    return (norm, normEnd)
  else if c = dotdotName then
    return (norm, ← rewind norm normEnd)
  else if c ≠ [] then
    let (norm, normEnd) ← addSlash norm normEnd
    return (← strcpy norm normEnd c, normEnd + c.length)
  else
    return (norm, normEnd)

/-- The loop of `normalize_path`. -/
def normalizeFrom : (turns : Nat) → (buf norm : List Byte) → (normEnd : Nat) →
    (path : Option Nat) → Except Fault (List Byte × List Byte × Nat)
  | _, buf, norm, normEnd, none => .ok (buf, norm, normEnd)
  | 0, _, _, _, some _ => .error .turns
  | turns + 1, buf, norm, normEnd, some path => do
    check (0 < normEnd)
    check ((← load norm 0) = slash)
    let (buf, next) ← splitPath buf path
    let (norm, normEnd) ← normalizeComponent norm normEnd (← string buf path)
    normalizeFrom turns buf norm normEnd next

/-- The end of `normalize_path`: the path is copied back (`user/shell/path.c:89`). -/
def copyNormalized (len : Nat) (buf norm : List Byte) (normEnd : Nat) :
    Except Fault (List Byte) := do
  check (0 < normEnd)
  check ((← load norm 0) = slash)
  let norm ← store norm normEnd 0
  let s ← string norm 0
  check (s.length = normEnd)
  check (normEnd ≤ len)
  let buf ← strcpy buf 0 s
  check ((← load buf normEnd) = 0)
  return buf

/-- The path at the start of a buffer is normalized. The second argument is what the memory from
`alloca` holds. Reference: `normalize_path` (`user/shell/path.c:48`). -/
def normalizePath (buf : List Byte) (junk : Nat → Byte) : Except Fault (List Byte) := do
  let len := (← string buf 0).length
  let norm := (List.range (len + 1)).map junk
  check ((← load buf 0) = slash)
  let norm ← store norm 0 slash
  let (buf, norm, normEnd) ← normalizeFrom (len + 1) buf norm 1 (some 1)
  copyNormalized len buf norm normEnd

/-! ## Splitting -/

section
variable {buf a b rest w r N J norm norm' : List Byte} {p p' k len turns : Nat}

/-- What `split_path` finds in a path that does not start with a slash: a component, and slashes
behind it with the rest of the path. The component is empty for the empty path. -/
inductive SplitsOff (rest w : List Byte) : Option (Nat × List Byte) → Prop
  | last : rest = w → SplitsOff rest w none
  | more (k : Nat) (r : List Byte) : w ≠ [] → rest = w ++ slash :: (List.replicate k slash ++ r) →
      r.head? ≠ some slash → SplitsOff rest w (some (k, r))

/-- Every turn splits off a component. -/
theorem exists_splitsOff (hhead : rest.head? ≠ some slash) :
    ∃ w next, slash ∉ w ∧ SplitsOff rest w next := by
  have hzero : ∀ {n : Nat} {l : List Byte}, rest = List.replicate n slash ++ l → n = 0 := by
    intro n l h
    cases n with
    | zero => rfl
    | succ n => exact absurd (by rw [h]; rfl) hhead
  rcases exists_word slash rest with ⟨n, h⟩ | ⟨n, w, r, h, hw, hsl, hr⟩
  · obtain rfl := hzero (h.trans (List.append_nil _).symm)
    exact ⟨[], none, by simp, .last h⟩
  · obtain rfl := hzero h
    rcases hr with rfl | ⟨r, rfl⟩
    · exact ⟨w, none, hsl, .last (h.trans (List.append_nil _))⟩
    · refine ⟨w, some ((r.takeWhile (· = slash)).length, r.dropWhile (· = slash)), hsl,
        .more _ _ hw ?_ ?_⟩
      · have hrep : r.takeWhile (· = slash) =
            List.replicate (r.takeWhile (· = slash)).length slash :=
          List.eq_replicate_iff.2 ⟨rfl, fun x hx => by
            simpa using List.all_eq_true.1 List.all_takeWhile x hx⟩
        rw [← hrep, List.takeWhile_append_dropWhile]
        exact h
      · intro hslash
        have := List.head?_dropWhile_not (· = slash) r
        rw [hslash] at this
        simp at this

/-- The words of a path that is split. -/
theorem words_splitsOff {next : Option (Nat × List Byte)} (hsl : slash ∉ w)
    (h : SplitsOff rest w next) :
    words slash rest = (if w = [] then [] else [w]) ++ words slash (next.elim [] Prod.snd) := by
  cases h with
  | last h =>
    subst h
    by_cases hw : rest = []
    · simp [hw]
    · simp [hw, words_of_notMem hw hsl]
  | more k r hw h _ =>
    subst h
    rw [words_append, words_of_notMem hw hsl, words_replicate_append, if_neg hw]
    rfl

/-- The scan for the end of the component. -/
theorem splitPath_scan {c : Byte} (hb : buf = a ++ (w ++ c :: b)) (hp : p = a.length)
    (hsl : slash ∉ w) (h0 : (0 : Byte) ∉ w) (hc : c = slash ∧ w ≠ [] ∨ c = 0) :
    (∃ d, load buf p = .ok d ∧ d ≠ slash) ∧
      skipWhile (fun c => c ≠ slash ∧ c ≠ 0) buf p = .ok (p + w.length) ∧
      load buf (p + w.length) = .ok c := by
  refine ⟨?_, ?_, load_eq (hb.trans (List.append_assoc ..).symm) (by rw [hp, List.length_append])⟩
  · cases w with
    | nil =>
      obtain rfl : c = 0 := hc.resolve_left fun h => h.2 rfl
      exact ⟨0, load_eq hb hp, by decide⟩
    | cons d w => exact ⟨d, load_eq hb hp, fun h => hsl (h ▸ List.mem_cons_self)⟩
  · refine skipWhile_eq hb hp (fun x hx =>
      decide_eq_true ⟨fun h => hsl (h ▸ hx), fun h => h0 (h ▸ hx)⟩) ?_
    rcases hc with ⟨rfl, -⟩ | rfl <;> rfl

theorem splitPath_last (hsl : slash ∉ w) (h0 : (0 : Byte) ∉ w) (hb : buf = a ++ (w ++ 0 :: b))
    (hp : p = a.length) : splitPath buf p = .ok (buf, none) := by
  obtain ⟨⟨d, hd, hne⟩, hskip, hload⟩ := splitPath_scan hb hp hsl h0 (.inr rfl)
  rw [splitPath, hd, ok_bind, check_of hne, ok_bind, hskip, ok_bind, hload, ok_bind,
    if_neg (by decide)]
  rfl

/-- A component that slashes follow is cut off with them. -/
theorem splitPath_more (hw : w ≠ []) (hsl : slash ∉ w) (h0 : (0 : Byte) ∉ w) (hr0 : (0 : Byte) ∉ r)
    (hb : buf = a ++ (w ++ slash :: (List.replicate k slash ++ (r ++ 0 :: b))))
    (hr : r.head? ≠ some slash) (hp : p = a.length) :
    splitPath buf p = .ok (a ++ (w ++ 0 :: (List.replicate k slash ++ (r ++ 0 :: b))),
      if r = [] then none else some (p + w.length + 1 + k)) := by
  obtain ⟨⟨d, hd, hne⟩, hskip, hload⟩ := splitPath_scan hb hp hsl h0 (.inl ⟨rfl, hw⟩)
  have hp' : p + w.length = (a ++ w).length := by rw [hp, List.length_append]
  rw [splitPath, hd, ok_bind, check_of hne, ok_bind, hskip, ok_bind, hload, ok_bind, if_pos rfl,
    store_eq (hb.trans (List.append_assoc ..).symm) hp', ok_bind]
  -- The rest of the path starts with a character that is not a slash, or it is empty.
  obtain ⟨d, l, hd, hdl, hnil⟩ : ∃ d l, r ++ 0 :: b = d :: l ∧ d ≠ slash ∧ (d = 0 ↔ r = []) := by
    cases r with
    | nil => exact ⟨0, b, rfl, by decide, by simp⟩
    | cons d r =>
      exact ⟨d, r ++ 0 :: b, rfl, fun h => hr (h ▸ rfl),
        ⟨fun h => absurd (h ▸ List.mem_cons_self) hr0, by simp⟩⟩
  have hbuf : (a ++ w) ++ 0 :: (List.replicate k slash ++ (r ++ 0 :: b)) =
      (a ++ w ++ [0]) ++ (List.replicate k slash ++ d :: l) := by rw [hd]; simp
  have hp'' : p + w.length + 1 = (a ++ w ++ [0]).length := by
    rw [List.length_append, ← hp', List.length_singleton]
  have hskip' : skipWhile (fun c => c = slash ∧ c ≠ 0)
    ((a ++ w) ++ 0 :: (List.replicate k slash ++ (r ++ 0 :: b)))
      (p + w.length + 1) = .ok (p + w.length + 1 + k) := by
    have := skipWhile_eq (P := fun c => c = slash ∧ c ≠ 0) hbuf hp''
      (fun x hx => by rw [List.eq_of_mem_replicate hx]; rfl) (by simp [hdl])
    rwa [List.length_replicate] at this
  have hload : load ((a ++ w) ++ 0 :: (List.replicate k slash ++ (r ++ 0 :: b)))
      (p + w.length + 1 + k) = .ok d :=
    load_eq (hbuf.trans (List.append_assoc ..).symm)
      (by rw [List.length_append, ← hp'', List.length_replicate])
  rw [hskip', ok_bind, hload, ok_bind, List.append_assoc]
  by_cases hrn : r = []
  · rw [if_pos (hnil.2 hrn), if_pos hrn]
    rfl
  · rw [if_neg (fun h => hrn (hnil.1 h)), if_neg hrn]
    rfl

/-! ## Building -/

/-- A path with a slash at its end. -/
def withSlash (N : List Byte) : List Byte := if N.getLast? = some slash then N else N ++ [slash]

/-- The path after one more component, as `normalize_path` builds it: for `..` all behind the last
slash goes. -/
def appendComponent (N c : List Byte) : List Byte :=
  if c = dotName then N
  else if c = dotdotName then N.rdropWhile (· ≠ slash)
  else if c = [] then N
  else withSlash N ++ c

theorem prefix_withSlash : N <+: withSlash N := by
  unfold withSlash
  split
  · exact List.prefix_rfl
  · exact List.prefix_append ..

theorem zero_notMem_withSlash (h0 : (0 : Byte) ∉ N) : (0 : Byte) ∉ withSlash N := by
  unfold withSlash
  split
  · exact h0
  · simp only [List.mem_append, List.mem_singleton]
    exact fun h => h.elim h0 (by decide)

theorem addSlash_eq (hne : N ≠ []) (hb : buf = N ++ J) (hlen : (withSlash N).length ≤ buf.length) :
    ∃ J', addSlash buf N.length = .ok (withSlash N ++ J', (withSlash N).length) ∧
      (withSlash N ++ J').length = buf.length := by
  obtain ⟨N', x, rfl⟩ : ∃ N' x, N = N' ++ [x] := ⟨_, _, (List.dropLast_append_getLast hne).symm⟩
  have hload : load buf ((N' ++ [x]).length - 1) = .ok x := by
    refine load_eq (hb.trans (List.append_assoc ..)) ?_
    rw [List.length_append, List.length_singleton, Nat.add_sub_cancel]
  rw [addSlash, hload, ok_bind]
  rw [withSlash, List.getLast?_concat] at hlen ⊢
  by_cases hx : x = slash
  · rw [if_neg (not_not.2 hx), if_pos (congrArg some hx)]
    exact ⟨J, by rw [hb]; rfl, by rw [hb]⟩
  · have hx' : ¬ some x = some slash := fun h => hx (Option.some.inj h)
    rw [if_neg hx'] at hlen
    rw [if_pos hx, if_neg hx']
    cases J with
    | nil =>
      rw [hb] at hlen
      simp at hlen
    | cons y J =>
      rw [store_eq hb rfl, ok_bind]
      exact ⟨J, by simp [Pure.pure, Except.pure], by simp [hb]⟩

theorem rewind_eq : rewind (N ++ J) N.length = .ok (N.rdropWhile (· ≠ slash)).length := by
  induction N using List.reverseRecOn generalizing J with
  | nil => rfl
  | append_singleton N x ih =>
    have hload : load (N ++ [x] ++ J) N.length = .ok x := load_eq (List.append_assoc ..) rfl
    rw [List.length_append, List.length_singleton, rewind, hload, ok_bind, List.rdropWhile_concat]
    by_cases hx : x = slash
    · simp [hx, Pure.pure, Except.pure]
    · rw [if_pos hx, if_pos (by simpa using hx), List.append_assoc, ih]

theorem head?_rdropWhile (h : N.head? = some slash) : (N.rdropWhile (· ≠ slash)).head? =
    some slash := by
  have hmem : slash ∈ N := List.mem_of_mem_head? h
  have hne : N.rdropWhile (· ≠ slash) ≠ [] := fun hnil => by
    simpa using List.rdropWhile_eq_nil_iff.1 hnil slash hmem
  obtain ⟨t, ht⟩ := List.rdropWhile_prefix (· ≠ slash) N
  rwa [← ht, List.head?_append_of_ne_nil _ hne] at h

/-- The second buffer while `normalize_path` is at position `p`: it holds the path `N` so far,
which with a slash is no longer than what has been read. -/
structure Building (len p : Nat) (N norm : List Byte) : Prop where
  starts : ∃ J, norm = N ++ J
  length : norm.length = len + 1
  head : N.head? = some slash
  nul : (0 : Byte) ∉ N
  room : (withSlash N).length ≤ p

theorem length_withSlash_le : (withSlash N).length ≤ N.length + 1 := by
  unfold withSlash
  split <;> simp

/-- A turn builds the next path. -/
theorem Building.normalizeComponent (h : Building len p N norm) (h0 : (0 : Byte) ∉ w)
    (hlen : p + w.length ≤ len) :
    ∃ norm', normalizeComponent norm N.length w = .ok (norm', (appendComponent N w).length) ∧
      (appendComponent N w).length ≤ p + w.length ∧
      ∀ p', p + w.length < p' → Building len p' (appendComponent N w) norm' := by
  have hroom := h.room
  have hN : N.length ≤ p := prefix_withSlash.length_le.trans hroom
  have hsame : ∀ p', p + w.length < p' → Building len p' N norm := fun p' hp' =>
    { h with room := hroom.trans (by omega) }
  unfold appendComponent MCertikos.normalizeComponent
  split
  · exact ⟨norm, rfl, by omega, hsame⟩
  split
  · obtain ⟨J, rfl⟩ := h.starts
    obtain ⟨t, ht⟩ := List.rdropWhile_prefix (· ≠ slash) N
    have hle : (N.rdropWhile (· ≠ slash)).length ≤ N.length :=
      (List.rdropWhile_prefix _ N).length_le
    refine ⟨N ++ J, by rw [rewind_eq]; rfl, by omega, fun p' hp' => ?_⟩
    exact
      { starts := ⟨t ++ J, by rw [← List.append_assoc, ht]⟩
        length := h.length
        head := head?_rdropWhile h.head
        nul := fun hmem => h.nul ((List.rdropWhile_prefix _ N).subset hmem)
        room := length_withSlash_le.trans (by omega) }
  by_cases hw : w = []
  · rw [if_neg (not_not.2 hw), if_pos hw]
    exact ⟨norm, rfl, by omega, hsame⟩
  · have hne : N ≠ [] := by
      rintro rfl
      cases h.head
    obtain ⟨J, hJ⟩ := h.starts
    obtain ⟨J', hslash, hJ'⟩ := addSlash_eq hne hJ (by rw [h.length]; omega)
    rw [h.length, List.length_append] at hJ'
    rw [if_pos hw, if_neg hw, hslash, ok_bind]
    dsimp only
    rw [strcpy_eq rfl rfl (by omega), ok_bind, List.length_append]
    refine ⟨_, rfl, by omega, fun p' hp' => ?_⟩
    exact
      { starts := ⟨_, (List.append_assoc ..).symm⟩
        length := by simp; omega
        head := by
          obtain ⟨t, ht⟩ := @prefix_withSlash N
          rw [List.head?_append, ← ht, List.head?_append, h.head]
          rfl
        nul := fun hmem => (List.mem_append.1 hmem).elim (zero_notMem_withSlash h.nul) h0
        room := length_withSlash_le.trans (by rw [List.length_append]; omega) }

/-! ## Joining -/

/-- The path that `join_path` builds. -/
def joinedPath (p1 p2 : List Byte) : List Byte := if p1 = [] then p2 else withSlash p1 ++ p2

section
variable {dst p1 p2 : List Byte} {inPlace : Bool}

theorem length_joinedPath_le : (joinedPath p1 p2).length ≤ p1.length + 1 + p2.length := by
  have := @length_withSlash_le p1
  unfold joinedPath
  split
  · omega
  · rw [List.length_append]
    omega

theorem zero_notMem_joinedPath (h1 : (0 : Byte) ∉ p1) (h2 : (0 : Byte) ∉ p2) :
    (0 : Byte) ∉ joinedPath p1 p2 := by
  unfold joinedPath
  split
  · exact h2
  · exact fun h => (List.mem_append.1 h).elim (zero_notMem_withSlash h1) h2

theorem length_le_joinedPath : p1.length + p2.length ≤ (joinedPath p1 p2).length := by
  unfold joinedPath
  split
  · next h => simp [h]
  · rw [List.length_append]
    exact Nat.add_le_add_right prefix_withSlash.length_le _

/-- `join_path` in both of its uses: the first path is in the buffer already, or it is copied
there. -/
theorem joinPath_eq (h2 : p2 ≠ []) (hin : inPlace = true → ∃ b, dst = p1 ++ b)
    (hlen : (joinedPath p1 p2).length < dst.length) :
    ∃ y, joinPath dst inPlace p1 p2 = .ok (joinedPath p1 p2 ++ 0 :: y) ∧
      (joinedPath p1 p2 ++ 0 :: y).length = dst.length := by
  have hle := @length_le_joinedPath p1 p2
  obtain ⟨J, hfirst, hJ⟩ : ∃ J, (if inPlace then .ok dst else strcpy dst 0 p1) =
    Except.ok (p1 ++ J) ∧
      (p1 ++ J).length = dst.length := by
    cases inPlace with
    | true =>
      obtain ⟨b, rfl⟩ := hin rfl
      exact ⟨b, rfl, rfl⟩
    | false =>
      refine ⟨_, strcpy_start (by omega), ?_⟩
      simp
      omega
  obtain ⟨N, J', hslash, hN, hJ'⟩ : ∃ N J', (if p1 ≠ [] then addSlash (p1 ++ J) p1.length
      else .ok (p1 ++ J, p1.length)) = Except.ok (N ++ J', N.length) ∧ joinedPath p1 p2 = N ++ p2 ∧
      (N ++ J').length = dst.length := by
    by_cases h1 : p1 = []
    · exact ⟨[], J, by simp [h1], by simp [joinedPath, h1], by simpa [h1] using hJ⟩
    · have hjoined : joinedPath p1 p2 = withSlash p1 ++ p2 := if_neg h1
      rw [hjoined, List.length_append] at hlen
      obtain ⟨J', hadd, hlen'⟩ := addSlash_eq h1 rfl (by rw [hJ]; omega)
      exact ⟨withSlash p1, J', by rw [if_pos h1, hadd], hjoined, hlen'.trans hJ⟩
  have hroom : p2.length < J'.length := by
    rw [hN, List.length_append] at hlen
    rw [List.length_append] at hJ'
    omega
  refine ⟨J'.drop (p2.length + 1), ?_, ?_⟩
  · rw [joinPath, check_of h2, ok_bind, hfirst, ok_bind, hslash, ok_bind]
    dsimp only
    rw [strcpy_eq rfl rfl hroom, ok_bind, ← List.append_assoc,
      load_eq rfl (by rw [List.length_append]), ok_bind, check_of rfl, ok_bind, hN]
    rfl
  · rw [hN, ← hJ']
    simp
    omega

end

/-! ## The loop -/

theorem foldl_component : (if w = [] then [] else [w]).foldl appendComponent N =
    appendComponent N w := by
  split
  · next h => simp [h, appendComponent, dotName, dotdotName]
  · rfl

/-- The assertions at the start of a turn. -/
theorem Building.starts_with (h : Building len p N norm) :
    0 < N.length ∧ load norm 0 = .ok slash := by
  obtain ⟨J, rfl⟩ := h.starts
  have hhead := h.head
  cases N with
  | nil => cases hhead
  | cons c N =>
    exact ⟨Nat.succ_pos _, load_eq (a := []) (by rw [← Option.some.inj hhead]; rfl) rfl⟩

/-- The loop appends the words of the rest of the path. -/
theorem normalizeFrom_eq (h0 : (0 : Byte) ∉ rest) (hhead : rest.head? ≠ some slash)
    (hb : buf = a ++ (rest ++ 0 :: b)) (hp : p = a.length) (hbuild : Building len p N norm)
    (hlen : p + rest.length = len) (hturns : rest.length < turns) :
    ∃ rest' norm', normalizeFrom turns buf norm N.length (some p) =
      .ok (a ++ (rest' ++ 0 :: b), norm',
        ((words slash rest).foldl appendComponent N).length) ∧ rest'.length = rest.length ∧
      ((words slash rest).foldl appendComponent N).length ≤ len ∧
      Building len (len + 1) ((words slash rest).foldl appendComponent N) norm' := by
  induction turns generalizing a rest buf p N norm with
  | zero => cases hturns
  | succ turns ih =>
    obtain ⟨hpos, hload⟩ := hbuild.starts_with
    obtain ⟨w, next, hsl, hsplits⟩ := exists_splitsOff hhead
    rw [normalizeFrom, check_of hpos, ok_bind, hload, ok_bind, check_of rfl, ok_bind,
      words_splitsOff hsl hsplits, List.foldl_append, foldl_component]
    cases hsplits with
    | last h =>
      subst h
      obtain ⟨norm', hcomp, hle, hbuild'⟩ := hbuild.normalizeComponent h0 hlen.le
      rw [splitPath_last hsl h0 hb hp, ok_bind]
      dsimp only
      rw [string_eq hb hp h0, ok_bind, hcomp, ok_bind, normalizeFrom.eq_1]
      exact ⟨rest, norm', by rw [← hb]; rfl, rfl, hle.trans hlen.le, hbuild' _ (by omega)⟩
    | more k r hw h hr =>
      subst h
      have hw0 : (0 : Byte) ∉ w := fun hmem => h0 (List.mem_append_left _ hmem)
      have hr0 : (0 : Byte) ∉ r :=
        fun hmem => h0 (by simp only [List.mem_append, List.mem_cons]; tauto)
      simp only [List.length_append, List.length_cons, List.length_replicate] at hlen hturns
      obtain ⟨norm', hcomp, hle, hbuild'⟩ := hbuild.normalizeComponent hw0 (by omega)
      have hb' : buf = a ++ (w ++ slash :: (List.replicate k slash ++ (r ++ 0 :: b))) := by
        simp [hb]
      rw [splitPath_more hw hsl hw0 hr0 hb' hr hp, ok_bind]
      dsimp only
      rw [string_eq rfl hp hw0, ok_bind, hcomp, ok_bind]
      dsimp only
      -- The buffer is cut in front of the rest, where the next turn starts if the rest is not
      -- empty.
      have hbuf : a ++ (w ++ 0 :: (List.replicate k slash ++ (r ++ 0 :: b))) =
          (a ++ (w ++ 0 :: List.replicate k slash)) ++ (r ++ 0 :: b) := by simp
      have hp' : p + w.length + 1 + k = (a ++ (w ++ 0 :: List.replicate k slash)).length := by
        simp [hp]; omega
      by_cases hrn : r = []
      · subst hrn
        rw [if_pos rfl]
        exact ⟨w ++ 0 :: List.replicate k slash, norm', by rw [normalizeFrom.eq_1]; simp, by simp,
          hle.trans (by omega), hbuild' _ (by omega)⟩
      · rw [if_neg hrn]
        obtain ⟨rest', norm'', hrun, hlen', hle', hbuild''⟩ :=
          ih hr0 hr hbuf hp' (hbuild' _ (by omega)) (by omega) (by omega)
        exact ⟨w ++ 0 :: (List.replicate k slash ++ rest'), norm'', by
          rw [hrun]; simp, by simp [hlen'], hle', hbuild''⟩

/-- The normalized path is copied back. -/
theorem Building.copyNormalized (h : Building len p N norm) (hle : N.length ≤ len)
    (hb : buf = a ++ b) (ha : a.length = len + 1) :
    ∃ y, copyNormalized len buf norm N.length = .ok (N ++ 0 :: (y ++ b)) ∧
    N.length + y.length = len := by
  obtain ⟨hpos, hfirst⟩ := h.starts_with
  obtain ⟨d, J, hJ⟩ : ∃ d J, norm = N ++ d :: J := by
    obtain ⟨J, rfl⟩ := h.starts
    have hlen := h.length
    cases J with
    | nil =>
      rw [List.append_nil] at hlen
      omega
    | cons d J => exact ⟨d, J, rfl⟩
  have hlt : N.length < buf.length := by
    rw [hb, List.length_append]
    omega
  have hdrop : buf.drop (N.length + 1) = a.drop (N.length + 1) ++ b := by
    rw [hb, List.drop_append_of_le_length (by omega)]
  refine ⟨a.drop (N.length + 1), ?_, by rw [List.length_drop]; omega⟩
  rw [MCertikos.copyNormalized, check_of hpos, ok_bind, hfirst, ok_bind, check_of rfl, ok_bind,
    store_eq hJ rfl, ok_bind, string_start h.nul, ok_bind, check_of rfl, ok_bind, check_of hle,
    ok_bind, strcpy_start hlt, ok_bind, load_eq rfl rfl, ok_bind, check_of rfl, ok_bind, hdrop]
  rfl

/-- **The path that `normalize_path` leaves.** It is built from the words of the path, ended with a
NUL, and not longer than the path; nothing behind the NUL of the path changes. -/
theorem normalizePath_eq (junk : Nat → Byte) (h0 : (0 : Byte) ∉ rest)
    (hhead : rest.head? ≠ some slash) :
    ∃ y, normalizePath (slash :: rest ++ 0 :: b) junk =
        .ok ((words slash rest).foldl appendComponent [slash] ++ 0 :: (y ++ b)) ∧
      ((words slash rest).foldl appendComponent [slash]).length + y.length =
      (slash :: rest).length ∧ (0 : Byte) ∉ (words slash rest).foldl appendComponent [slash] := by
  have h0' : (0 : Byte) ∉ slash :: rest := by
    rw [List.mem_cons]
    exact fun h => h.elim (by decide) h0
  rw [normalizePath, string_start h0', ok_bind]
  generalize hlen : (slash :: rest).length = len
  have hrest : 1 + rest.length = len := by rw [← hlen, List.length_cons, Nat.add_comm]
  obtain ⟨c, J, hJ⟩ : ∃ c J, (List.range (len + 1)).map junk = c :: J :=
    ⟨_, _, by rw [List.range_succ_eq_map]; rfl⟩
  have hbuild : Building len 1 [slash] (slash :: J) :=
    { starts := ⟨J, rfl⟩
      length := by
        have := congrArg List.length hJ
        rw [List.length_map, List.length_range] at this
        exact this.symm
      head := rfl
      nul := by decide
      room := by decide }
  have hstore : store (c :: J) 0 slash = .ok (slash :: J) := store_eq (a := []) rfl rfl
  obtain ⟨rest', norm, hrun, hlen', hle, hfinal⟩ :=
    normalizeFrom_eq (a := [slash]) h0 hhead rfl rfl hbuild
      hrest (show rest.length < len + 1 by omega)
  obtain ⟨y, hcopy, hy⟩ := hfinal.copyNormalized hle (a := slash :: rest' ++ [0]) (b := b) rfl
    (by simp only [List.length_append, List.length_cons, List.length_nil]; omega)
  refine ⟨y, ?_, hy, hfinal.nul⟩
  dsimp only
  rw [hJ, List.cons_append, load_start, ok_bind, check_of rfl, ok_bind, hstore, ok_bind]
  refine (congrArg (· >>= _) hrun).trans ?_
  rw [← hcopy]
  simp

end

end MCertikos
