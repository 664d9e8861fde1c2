import MCertikos.Shell.Path

/-!
# Canonical paths

The canonical path has the components that are left when `.` is skipped and `..` takes away the
last one (`keep`). `normalize_path` goes back to the slash behind the component before, and leaves
it there: a path that it has rewound ends with a slash, and the next `..` finds nothing to remove.
So it computes the canonical path exactly when no rewound path is met by another `..` or by the end
(`Followed`).
-/

namespace MCertikos

open CString

/-! ## The components that are kept -/

/-- What a component does to those that are kept. -/
def keepStep (ks : List (List Byte)) (c : List Byte) : List (List Byte) :=
  if c = dotName then ks else if c = dotdotName then ks.dropLast else ks ++ [c]

/-- The components that are left. -/
def keep (cs : List (List Byte)) : List (List Byte) := cs.foldl keepStep []

/-- The components of a path that are left, joined by single slashes. -/
def canonicalPath (path : List Byte) : List Byte :=
  slash :: [slash].intercalate (keep (words slash path))

/-- The last component, apart from `.`, is a `..` that leaves others. -/
def Rewound (cs : List (List Byte)) : Prop :=
  (cs.filter (· ≠ dotName)).getLast? = some dotdotName ∧ keep cs ≠ []

/-- After a `..` that leaves components there is a name before the next `..`, and before the
end. -/
def Followed (cs : List (List Byte)) : Prop :=
  ¬ Rewound cs ∧ ∀ pre post, cs = pre ++ dotdotName :: post → ¬ Rewound pre

section
variable {cs ks ls : List (List Byte)} {c k path : List Byte} {tr : Bool}

@[simp] theorem keepStep_dot : keepStep ks dotName = ks := if_pos rfl

@[simp] theorem keepStep_dotdot : keepStep ks dotdotName = ks.dropLast := by
  simp [keepStep, dotName, dotdotName]

theorem keepStep_name (hdot : c ≠ dotName) (hdotdot : c ≠ dotdotName) :
    keepStep ks c = ks ++ [c] := by
  simp [keepStep, hdot, hdotdot]

theorem keep_concat : keep (cs ++ [c]) = keepStep (keep cs) c := List.foldl_concat ..

theorem dotName_ne : dotdotName ≠ dotName := by decide

theorem rewound_dot : Rewound (cs ++ [dotName]) ↔ Rewound cs := by
  simp [Rewound, keep_concat]

theorem rewound_dotdot : Rewound (cs ++ [dotdotName]) ↔ (keep cs).dropLast ≠ [] := by
  simp [Rewound, keep_concat, dotName_ne]

theorem not_rewound_name (hdot : c ≠ dotName) (hdotdot : c ≠ dotdotName) :
    ¬ Rewound (cs ++ [c]) := by
  simp [Rewound, hdot, hdotdot]

/-- Components that are kept are names. -/
theorem mem_keep (h : k ∈ keep cs) : k ∈ cs ∧ k ≠ dotName ∧ k ≠ dotdotName := by
  induction cs using List.reverseRecOn with
  | nil => cases h
  | append_singleton cs c ih =>
    rw [keep_concat, keepStep] at h
    have hleft : k ∈ keep cs → k ∈ cs ++ [c] ∧ k ≠ dotName ∧ k ≠ dotdotName := fun hk =>
      ⟨List.mem_append_left _ (ih hk).1, (ih hk).2⟩
    split at h
    · exact hleft h
    split at h
    · exact hleft (List.mem_of_mem_dropLast h)
    · next hdot hdotdot =>
      rcases List.mem_append.1 h with h | h
      · exact hleft h
      · obtain rfl := List.mem_singleton.1 h
        exact ⟨List.mem_append_right _ h, hdot, hdotdot⟩

/-- Names are kept. -/
theorem keep_of_names (h : ∀ c ∈ cs, c ≠ dotName ∧ c ≠ dotdotName) : keep cs = cs := by
  induction cs using List.reverseRecOn with
  | nil => rfl
  | append_singleton cs c ih =>
    obtain ⟨hdot, hdotdot⟩ := h c (by simp)
    rw [keep_concat, ih fun d hd => h d (List.mem_append_left _ hd), keepStep_name hdot hdotdot]

theorem followed_of_names (h : ∀ c ∈ cs, c ≠ dotName ∧ c ≠ dotdotName) : Followed cs := by
  have hno : dotdotName ∉ cs := fun hmem => (h _ hmem).2 rfl
  refine ⟨fun hrew => hno ?_, fun pre post heq => absurd (by simp [heq]) hno⟩
  exact List.mem_of_mem_filter (List.mem_of_getLast? hrew.1)

/-! ## The components that the code has -/

/-- What a component does to the code's path: its components, and whether there is a slash behind
them. -/
def codeStep (s : List (List Byte) × Bool) (c : List Byte) : List (List Byte) × Bool :=
  if c = dotName then s
  else if c = dotdotName then if s.2 then s else (s.1.dropLast, true)
  else (s.1 ++ [c], false)

/-- The components of the code's path. At the start there is just a slash. -/
def codeRun (cs : List (List Byte)) : List (List Byte) × Bool := cs.foldl codeStep ([], true)

@[simp] theorem codeStep_dot : codeStep (ks, tr) dotName = (ks, tr) := if_pos rfl

@[simp] theorem codeStep_dotdot_true : codeStep (ks, true) dotdotName = (ks, true) := by
  simp [codeStep, dotName, dotdotName]

@[simp] theorem codeStep_dotdot_false : codeStep (ks, false) dotdotName = (ks.dropLast, true) := by
  simp [codeStep, dotName, dotdotName]

theorem codeStep_name (hdot : c ≠ dotName) (hdotdot : c ≠ dotdotName) :
    codeStep (ks, tr) c = (ks ++ [c], false) := by
  simp [codeStep, hdot, hdotdot]

theorem codeRun_concat : codeRun (cs ++ [c]) = codeStep (codeRun cs) c := List.foldl_concat ..

/-- As long as no `..` meets a rewound path, the components are those that are kept. -/
theorem codeRun_of_followed (h : ∀ pre post, cs = pre ++ dotdotName :: post → ¬ Rewound pre) :
    ∃ tr, codeRun cs = (keep cs, tr) ∧ (tr = true ↔ keep cs = [] ∨ Rewound cs) := by
  induction cs using List.reverseRecOn with
  | nil => exact ⟨true, rfl, by simp [keep]⟩
  | append_singleton cs c ih =>
    obtain ⟨tr, hrun, htr⟩ := ih fun pre post heq => h pre (post ++ [c]) (by simp [heq])
    rw [codeRun_concat, hrun, keep_concat]
    by_cases hdot : c = dotName
    · rw [hdot, rewound_dot]
      exact ⟨tr, by simp, by simpa using htr⟩
    by_cases hdotdot : c = dotdotName
    · have hrew : ¬ Rewound cs := h cs [] (by rw [hdotdot])
      rw [or_iff_left hrew] at htr
      rw [hdotdot, rewound_dotdot, keepStep_dotdot]
      refine ⟨true, ?_, by simp [em]⟩
      cases tr with
      | true => simp [htr.1 rfl]
      | false => simp
    · rw [codeStep_name hdot hdotdot, keepStep_name hdot hdotdot]
      exact ⟨false, rfl, by simp [not_rewound_name hdot hdotdot]⟩

/-- The first `..` that meets a rewound path. -/
theorem first_rewound (hcs : ∀ pre post, cs = pre ++ dotdotName :: post → ¬ Rewound pre)
    (h : ¬ ∀ pre post, cs ++ [c] = pre ++ dotdotName :: post → ¬ Rewound pre) :
    c = dotdotName ∧ Rewound cs := by
  by_contra hno
  refine h fun pre post heq hrew => ?_
  rcases List.eq_nil_or_concat post with rfl | ⟨post, d, rfl⟩
  · obtain ⟨rfl, hc⟩ := List.append_inj' heq rfl
    exact hno ⟨List.singleton_inj.1 hc, hrew⟩
  · have heq' : cs ++ [c] = (pre ++ dotdotName :: post) ++ [d] := by simp [heq]
    exact hcs pre post (List.append_inj' heq' rfl).1 hrew

/-- Once a `..` has met a rewound path, the code has more components than are kept. -/
theorem codeRun_of_not_followed
    (h : ¬ ∀ pre post, cs = pre ++ dotdotName :: post → ¬ Rewound pre) :
    ∃ ks tr, codeRun cs = (ks, tr) ∧ (keep cs).length < ks.length ∧
    (ks.length = 1 → tr = true) := by
  induction cs using List.reverseRecOn with
  | nil => exact absurd (fun pre post heq => by simp at heq) h
  | append_singleton cs c ih =>
    rw [codeRun_concat, keep_concat]
    by_cases hcs : ∀ pre post, cs = pre ++ dotdotName :: post → ¬ Rewound pre
    · obtain ⟨rfl, hrew⟩ := first_rewound hcs h
      obtain ⟨tr, hrun, htr⟩ := codeRun_of_followed hcs
      obtain rfl := htr.2 (.inr hrew)
      have hpos := List.length_pos_of_ne_nil hrew.2
      rw [hrun, codeStep_dotdot_true, keepStep_dotdot, List.length_dropLast]
      exact ⟨_, _, rfl, by omega, fun _ => rfl⟩
    · obtain ⟨ks, tr, hrun, hlt, hone⟩ := ih hcs
      rw [hrun]
      by_cases hdot : c = dotName
      · rw [hdot, codeStep_dot, keepStep_dot]
        exact ⟨ks, tr, rfl, hlt, hone⟩
      by_cases hdotdot : c = dotdotName
      · rw [hdotdot, keepStep_dotdot, List.length_dropLast]
        cases tr with
        | true => exact ⟨ks, true, by simp, by omega, fun _ => rfl⟩
        | false =>
          have hne : ks.length ≠ 1 := fun h1 => Bool.false_ne_true (hone h1)
          exact ⟨ks.dropLast, true, by simp, by rw [List.length_dropLast]; omega, fun _ => rfl⟩
      · rw [codeStep_name hdot hdotdot, keepStep_name hdot hdotdot]
        refine ⟨ks ++ [c], false, rfl, by simpa using hlt, fun h1 => ?_⟩
        rw [List.length_append, List.length_singleton] at h1
        omega

/-! ## The path of components -/

/-- Components as they stand in a path. -/
def IsName (k : List Byte) : Prop := k ≠ [] ∧ slash ∉ k

/-- The path of components, each behind a slash, with a slash at the end or not. -/
def pathOf (ks : List (List Byte)) (tr : Bool) : List Byte :=
  ks.flatMap (slash :: ·) ++ if tr then [slash] else []

theorem isName_of_mem_words (h : k ∈ words slash path) : IsName k :=
  ⟨(mem_words h).1, (mem_words h).2.1⟩

theorem getLast?_pathOf_false (hks : ∀ k ∈ ks, IsName k) :
    (pathOf ks false).getLast? ≠ some slash := by
  rcases List.eq_nil_or_concat ks with rfl | ⟨ks, k, rfl⟩
  · simp [pathOf]
  · obtain ⟨hne, hsl⟩ := hks k (by simp)
    intro hlast
    have hk : (pathOf (ks.concat k) false).getLast? = k.getLast? := by
      simp [pathOf, List.getLast?_append, List.getLast?_cons, List.getLast?_eq_some_getLast hne]
    exact hsl (List.mem_of_getLast? (hk ▸ hlast))

theorem withSlash_pathOf (hks : ∀ k ∈ ks, IsName k) :
    withSlash (pathOf ks tr) = ks.flatMap (slash :: ·) ++ [slash] := by
  cases tr with
  | true => simp [withSlash, pathOf]
  | false =>
    rw [withSlash, if_neg (getLast?_pathOf_false hks)]
    simp [pathOf]

theorem rdropWhile_pathOf (hks : ∀ k ∈ ks, IsName k) (hne : ks ≠ []) :
    (pathOf ks false).rdropWhile (· ≠ slash) = pathOf ks.dropLast true := by
  obtain ⟨ks, k, rfl⟩ : ∃ l k, ks = l ++ [k] := ⟨_, _, (List.dropLast_append_getLast hne).symm⟩
  have hsl : ∀ x ∈ k, decide (x ≠ slash) = true := fun x hx =>
    decide_eq_true fun h => (hks k (by simp)).2 (h ▸ hx)
  have hpath : pathOf (ks ++ [k]) false = (ks.flatMap (slash :: ·) ++ [slash]) ++ k :=
    by simp [pathOf]
  rw [hpath, List.rdropWhile, List.reverse_append,
    List.dropWhile_append_of_pos (by simpa using hsl), List.dropLast_concat, pathOf, if_pos rfl,
    List.reverse_append, List.reverse_singleton, List.singleton_append,
    List.dropWhile_cons_of_neg (by simp), List.reverse_cons, List.reverse_reverse]

/-- A turn of `normalize_path` on the path of components. -/
theorem appendComponent_pathOf (hks : ∀ k ∈ ks, IsName k) (htr : tr = false → ks ≠ [])
    (hc : IsName c) :
    appendComponent (pathOf ks tr) c = pathOf (codeStep (ks, tr) c).1 (codeStep (ks, tr) c).2 := by
  unfold appendComponent
  by_cases hdot : c = dotName
  · rw [if_pos hdot, hdot, codeStep_dot]
  by_cases hdotdot : c = dotdotName
  · rw [if_neg hdot, if_pos hdotdot, hdotdot]
    cases tr with
    | true =>
      rw [codeStep_dotdot_true, pathOf, if_pos rfl, List.rdropWhile_concat_neg _ _ _ (by simp)]
    | false => rw [codeStep_dotdot_false, rdropWhile_pathOf hks (htr rfl)]
  · rw [if_neg hdot, if_neg hdotdot, if_neg hc.1, codeStep_name hdot hdotdot, withSlash_pathOf hks]
    simp [pathOf]

/-- The components are names, and there is one unless the path ends in a slash. -/
theorem isName_codeRun (hcs : ∀ c ∈ cs, IsName c) :
    (∀ k ∈ (codeRun cs).1, IsName k) ∧ ((codeRun cs).2 = false → (codeRun cs).1 ≠ []) := by
  induction cs using List.reverseRecOn with
  | nil => exact ⟨by simp [codeRun], by simp [codeRun]⟩
  | append_singleton cs c ih =>
    obtain ⟨hks, htr⟩ := ih fun d hd => hcs d (List.mem_append_left _ hd)
    rw [codeRun_concat]
    generalize codeRun cs = s at hks htr
    obtain ⟨ks, tr⟩ := s
    by_cases hdot : c = dotName
    · rw [hdot, codeStep_dot]
      exact ⟨hks, htr⟩
    by_cases hdotdot : c = dotdotName
    · rw [hdotdot]
      cases tr with
      | true => exact ⟨by simpa using hks, by simp⟩
      | false => exact ⟨by simpa using fun k hk => hks k (List.mem_of_mem_dropLast hk), by simp⟩
    · rw [codeStep_name hdot hdotdot]
      refine ⟨fun k hk => ?_, by simp⟩
      rcases List.mem_append.1 hk with hk | hk
      · exact hks k hk
      · exact hcs k (List.mem_append_right _ hk)

theorem foldl_appendComponent (hcs : ∀ c ∈ cs, IsName c) :
    cs.foldl appendComponent [slash] = pathOf (codeRun cs).1 (codeRun cs).2 := by
  induction cs using List.reverseRecOn with
  | nil => rfl
  | append_singleton cs c ih =>
    have hcs' : ∀ d ∈ cs, IsName d := fun d hd => hcs d (List.mem_append_left _ hd)
    obtain ⟨hks, htr⟩ := isName_codeRun hcs'
    rw [List.foldl_concat, ih hcs', codeRun_concat,
      appendComponent_pathOf hks htr (hcs c (by simp))]

/-- The components can be read off the path. -/
theorem words_pathOf (hks : ∀ k ∈ ks, IsName k) : words slash (pathOf ks tr) = ks := by
  have hbehind : ∀ ls : List (List Byte), pathOf ls tr = [] ∨ ∃ r, pathOf ls tr = slash :: r := by
    intro ls
    cases ls with
    | nil => cases tr <;> simp [pathOf]
    | cons l ls => exact .inr ⟨_, rfl⟩
  induction ks with
  | nil => cases tr <;> rfl
  | cons k ks ih =>
    obtain ⟨hne, hsl⟩ := hks k List.mem_cons_self
    have hpath : pathOf (k :: ks) tr = slash :: (k ++ pathOf ks tr) := by simp [pathOf]
    rw [hpath, words_cons, words_word_append hne hsl (hbehind ks),
      ih fun l hl => hks l (List.mem_cons_of_mem _ hl)]

theorem pathOf_inj {tr' : Bool} (hks : ∀ k ∈ ks, IsName k) (hls : ∀ k ∈ ls, IsName k) :
    pathOf ks tr = pathOf ls tr' ↔ ks = ls ∧ tr = tr' := by
  refine ⟨fun h => ?_, fun h => by rw [h.1, h.2]⟩
  obtain rfl : ks = ls := by
    have hwords := congrArg (words slash) h
    rwa [words_pathOf hks, words_pathOf hls] at hwords
  refine ⟨rfl, ?_⟩
  have := List.append_cancel_left h
  cases tr <;> cases tr' <;> simp_all

theorem canonicalPath_eq :
    canonicalPath path = pathOf (keep (words slash path))
    (decide (keep (words slash path) = [])) := by
  unfold canonicalPath
  generalize keep (words slash path) = ks
  induction ks with
  | nil => rfl
  | cons k ks ih =>
    cases ks with
    | nil => simp [pathOf, List.intercalate]
    | cons l ks =>
      rw [List.intercalate_cons_cons]
      simp [pathOf] at ih ⊢
      exact ih

/-- The path that `normalize_path` leaves is the canonical one exactly if no rewound path is
met. -/
theorem foldl_eq_canonicalPath_iff :
    (words slash path).foldl appendComponent [slash] = canonicalPath path ↔
    Followed (words slash path) := by
  have hcs : ∀ c ∈ words slash path, IsName c := fun c => isName_of_mem_words
  rw [foldl_appendComponent hcs, canonicalPath_eq,
    pathOf_inj (isName_codeRun hcs).1 fun k hk => hcs k (mem_keep hk).1]
  generalize words slash path = cs
  by_cases h : ∀ pre post, cs = pre ++ dotdotName :: post → ¬ Rewound pre
  · obtain ⟨tr, hrun, htr⟩ := codeRun_of_followed h
    rw [hrun, Followed, and_iff_left h]
    have hrew : Rewound cs → keep cs ≠ [] := And.right
    by_cases hk : keep cs = [] <;> cases tr <;> simp_all
  · obtain ⟨ks, tr, hrun, hlt, -⟩ := codeRun_of_not_followed h
    rw [hrun]
    refine ⟨fun heq => absurd (congrArg List.length heq.1) hlt.ne', fun hf => absurd hf.2 h⟩

/-! ## Fixed points -/

theorem words_canonicalPath : words slash (canonicalPath path) = keep (words slash path) := by
  rw [canonicalPath_eq, words_pathOf fun k hk => isName_of_mem_words (mem_keep hk).1]

theorem canonicalPath_canonicalPath : canonicalPath (canonicalPath path) = canonicalPath path := by
  rw [canonicalPath, words_canonicalPath, keep_of_names fun k hk => (mem_keep hk).2, canonicalPath]

theorem head?_intercalate (hks : ∀ k ∈ ks, IsName k) :
    ([slash].intercalate ks).head? ≠ some slash := by
  cases ks with
  | nil => simp [List.intercalate]
  | cons k ks =>
    obtain ⟨hne, hsl⟩ := hks k List.mem_cons_self
    obtain ⟨l, hl⟩ : ∃ l, [slash].intercalate (k :: ks) = k ++ l := by
      cases ks with
      | nil => exact ⟨[], by simp [List.intercalate]⟩
      | cons k' ks => exact ⟨_, by rw [List.intercalate_cons_cons, List.append_assoc]⟩
    rw [hl, List.head?_append_of_ne_nil _ hne]
    exact fun hhead => hsl (List.mem_of_mem_head? hhead)

end

/-- **Where `normalize_path` computes the canonical path.** On every path that starts with one
slash it ends without a fault and leaves a string that is not longer, with everything behind the
path unchanged. The string is the canonical path exactly if, after each `..` that leaves
components, there is a name before the next `..` and before the end; and then it is a fixed
point. -/
theorem normalizePath_canonical (rest behind : List Byte) (junk : Nat → Byte)
    (h0 : (0 : Byte) ∉ rest) (hhead : rest.head? ≠ some slash) :
    ∃ path unused, normalizePath (slash :: rest ++ 0 :: behind) junk =
      .ok (path ++ 0 :: (unused ++ behind)) ∧
      (0 : Byte) ∉ path ∧ path.length + unused.length = (slash :: rest).length ∧
      (path = canonicalPath (slash :: rest) ↔ Followed (words slash rest)) ∧
      (Followed (words slash rest) → ∀ behind' junk',
        normalizePath (path ++ 0 :: behind') junk' = .ok (path ++ 0 :: behind')) := by
  obtain ⟨unused, hrun, hlen, hnul⟩ := normalizePath_eq (b := behind) junk h0 hhead
  have hiff := @foldl_eq_canonicalPath_iff (slash :: rest)
  rw [words_cons] at hiff
  refine ⟨_, unused, hrun, hnul, hlen, hiff, fun hf behind' junk' => ?_⟩
  rw [hiff.2 hf] at hnul ⊢
  -- The canonical path has only names, so its canonical path is what the code leaves, and it is as
  -- long.
  have hnames : ∀ c ∈ words slash (canonicalPath (slash :: rest)), c ≠ dotName ∧
    c ≠ dotdotName := fun c hc =>
    (mem_keep (words_canonicalPath ▸ hc)).2
  have hfix := foldl_eq_canonicalPath_iff.2 (followed_of_names hnames)
  rw [canonicalPath_canonicalPath] at hfix
  obtain ⟨rest', hrest, hhead'⟩ : ∃ rest', canonicalPath (slash :: rest) = slash :: rest' ∧
      rest'.head? ≠ some slash :=
    ⟨_, rfl, head?_intercalate fun k hk => isName_of_mem_words (mem_keep hk).1⟩
  rw [hrest, words_cons] at hfix
  rw [hrest] at hnul ⊢
  obtain ⟨unused', hrun', hlen', -⟩ := normalizePath_eq (b := behind') junk'
    (fun hmem => hnul (List.mem_cons_of_mem _ hmem)) hhead'
  rw [hfix] at hrun' hlen'
  obtain rfl : unused' = [] := List.eq_nil_of_length_eq_zero (by omega)
  exact hrun'

/-- The path `/a/./b/../c` becomes `/a/c`, which stays as it is. -/
theorem normalizePath_canonical_dots :
    Followed (words slash [97, 47, 46, 47, 98, 47, 46, 46, 47, 99]) ∧
      (∃ unused, normalizePath [47, 97, 47, 46, 47, 98, 47, 46, 46, 47, 99, 0] (fun _ => 7) =
        .ok ([47, 97, 47, 99] ++ 0 :: (unused ++ []))) ∧
      normalizePath [47, 97, 47, 99, 0] (fun _ => 7) = .ok [47, 97, 47, 99, 0] := by
  have hf : Followed (words slash [97, 47, 46, 47, 98, 47, 46, 46, 47, 99]) :=
    foldl_eq_canonicalPath_iff.1 (by decide)
  obtain ⟨path, unused, hrun, -, -, hiff, hfix⟩ := normalizePath_canonical
    [97, 47, 46, 47, 98, 47, 46, 46, 47, 99] [] (fun _ => 7) (by decide) (by decide)
  obtain rfl : path = [47, 97, 47, 99] := (hiff.2 hf).trans (by decide)
  exact ⟨hf, ⟨unused, hrun⟩, hfix hf [] _⟩

/-- After `..` a slash is left, and a second `..` removes nothing: `/a/b/..` becomes `/a/`, and so
does `/a/b/../..`. -/
theorem normalizePath_not_canonical :
    normalizePath [47, 97, 47, 98, 47, 46, 46, 0] (fun _ => 0) =
      .ok [47, 97, 47, 0, 0, 46, 46, 0] ∧
      canonicalPath [47, 97, 47, 98, 47, 46, 46] = [47, 97] ∧
      normalizePath [47, 97, 47, 98, 47, 46, 46, 47, 46, 46, 0] (fun _ => 0) =
        .ok [47, 97, 47, 0, 0, 46, 46, 0, 46, 46, 0] ∧
      canonicalPath [47, 97, 47, 98, 47, 46, 46, 47, 46, 46] = [47] ∧
      normalizePath [47, 97, 47, 0, 0, 46, 46, 0] (fun _ => 0) =
        .ok [47, 97, 0, 0, 0, 46, 46, 0] := by
  refine ⟨rfl, ?_, rfl, ?_, rfl⟩ <;> decide

end MCertikos
