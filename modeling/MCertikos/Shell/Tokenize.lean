import MCertikos.Fs.Path
import MCertikos.Lib.CString
import Mathlib.Data.BitVec

/-!
# The tokens of a command line

The shell scans a command line twice (`user/shell/shell.c`): `count_tokens` counts the arguments
and the options, and `tokenize` stores pointers to them into arrays of that size and ends each with
a NUL. The tokens are the words of the line between spaces, and a word that starts with a dash is
an option.

Both loops read one word a turn. A turn is followed on a line that is cut in front of the word
(`exists_word`), by induction on the length of what is left.
-/

namespace MCertikos

open CString

/-- The character that separates tokens. -/
def space : Byte := 32

/-- The character that starts an option. -/
def dash : Byte := 45

/-! ## The two scanners -/

/-- The loop of `count_tokens` from a position on. -/
def countTokensFrom (line : List Byte) : (turns p argc optc : Nat) → Except Fault (Nat × Nat)
  | 0, _, _, _ => .error .turns
  | turns + 1, p, argc, optc => do
    if (← load line p) = 0 then
      return (argc, optc)
    let p ← skipWhile (· = space) line p
    let c ← load line p
    let (argc, optc) :=
      if c = dash then (argc, optc + 1) else if c ≠ 0 then (argc + 1, optc) else (argc, optc)
    let p ← skipWhile (fun c => c ≠ space ∧ c ≠ 0) line p
    countTokensFrom line turns p argc optc

/-- The numbers of arguments and of options. Reference: `count_tokens`
(`user/shell/shell.c:46`). -/
def countTokens (line : List Byte) : Except Fault (Nat × Nat) :=
  countTokensFrom line (line.length + 1) 0 0 0

/-- What `tokenize` writes to: the line, and the two arrays with the places where the next pointers
go. -/
structure Tokens where
  line : List Byte
  argv : List Nat
  argp : Nat
  optv : List Nat
  optp : Nat

/-- Stores a pointer to a token that starts with `c`. -/
def Tokens.save (t : Tokens) (c : Byte) (p : Nat) : Except Fault Tokens := do
  if c = dash then
    return { t with optv := ← store t.optv t.optp p, optp := t.optp + 1 }
  else if c ≠ 0 then
    return { t with argv := ← store t.argv t.argp p, argp := t.argp + 1 }
  else
    return t

/-- The loop of `tokenize` from a position on. -/
def tokenizeFrom : (turns p : Nat) → Tokens → Except Fault Tokens
  | 0, _, _ => .error .turns
  | turns + 1, p, t => do
    if (← load t.line p) = 0 then
      return t
    let p ← skipWhile (· = space) t.line p
    let t ← t.save (← load t.line p) p
    let p ← skipWhile (fun c => c ≠ space ∧ c ≠ 0) t.line p
    if (← load t.line p) = space then
      tokenizeFrom turns (p + 1) { t with line := ← store t.line p 0 }
    else
      tokenizeFrom turns p t

/-- Reference: `tokenize` (`user/shell/shell.c:73`). -/
def tokenize (line : List Byte) (argv optv : List Nat) : Except Fault Tokens :=
  tokenizeFrom (line.length + 1) 0 { line, argv, argp := 0, optv, optp := 0 }

/-! ## One turn -/

/-- A token that is an option. -/
def IsOption (w : List Byte) : Bool := w.head? = some dash

/-- The tokens that are arguments. -/
def arguments (ws : List (List Byte)) : List (List Byte) := ws.filter (!IsOption ·)

/-- The tokens that are options. -/
def options (ws : List (List Byte)) : List (List Byte) := ws.filter IsOption

section
variable {line a b rest w r : List Byte} {ws ws' : List (List Byte)}
  {n p turns argc optc k m : Nat} {t : Tokens} {A O : List Nat}

theorem arguments_append : arguments (ws ++ ws') = arguments ws ++ arguments ws' :=
  List.filter_append ..

theorem options_append : options (ws ++ ws') = options ws ++ options ws' := List.filter_append ..

/-- The token that a turn reads: a word, or nothing when only spaces are left. -/
def token (w : List Byte) : List (List Byte) := [w].filter (· ≠ [])

/-- What a turn finds: spaces, a token, and what is behind it. -/
structure TokenTurn (rest : List Byte) (n : Nat) (w r : List Byte) : Prop where
  split : rest = List.replicate n space ++ (w ++ r)
  word : space ∉ w
  behind : r = [] ∨ ∃ r', r = space :: r'
  last : w = [] → r = []
  shorter : r.length < rest.length
  words : words space rest = token w ++ CString.words space r

theorem exists_turn (hne : rest ≠ []) : ∃ n w r, TokenTurn rest n w r := by
  rcases exists_word space rest with ⟨n, hn⟩ | ⟨n, w, r, h, hw, hsp, hr⟩
  · refine ⟨n, [], [], by
      simpa using hn, by simp, .inl rfl, fun _ => rfl, List.length_pos_of_ne_nil hne, ?_⟩
    rw [hn, ← List.append_nil (List.replicate n space), words_replicate_append]
    rfl
  · refine ⟨n, w, r, h, hsp, hr, fun h => absurd h hw, ?_, ?_⟩
    · have := List.length_pos_of_ne_nil hw
      simp only [h, List.length_append]
      omega
    · rw [h, words_replicate_append, words_word_append hw hsp hr]
      simp [token, hw]

namespace TokenTurn

variable (h : TokenTurn rest n w r)
include h

theorem mem_of_mem_word {x : Byte} (hx : x ∈ w) : x ∈ rest := by simp [h.split, hx]

theorem mem_of_mem_behind {x : Byte} (hx : x ∈ r) : x ∈ rest := by simp [h.split, hx]

/-- The character behind the token. -/
theorem delimiter : ∃ c b', r ++ 0 :: b = c :: b' ∧ (c = space ∨ c = 0) := by
  rcases h.behind with rfl | ⟨r', rfl⟩
  · exact ⟨0, b, rfl, .inr rfl⟩
  · exact ⟨space, r' ++ 0 :: b, rfl, .inl rfl⟩

/-- The character that the token starts with, a NUL if there is none. -/
theorem first : ∃ b', w ++ (r ++ 0 :: b) = w.headD 0 :: b' ∧ w.headD 0 ≠ space := by
  cases w with
  | nil =>
    rw [h.last rfl]
    exact ⟨b, rfl, by decide⟩
  | cons c w => exact ⟨w ++ (r ++ 0 :: b), rfl, fun hc => h.word (by simp [← hc])⟩

variable (h0 : (0 : Byte) ∉ rest) (hl : line = a ++ (rest ++ 0 :: b)) (hp : p = a.length)
include hl

theorem line_eq : line = (a ++ List.replicate n space) ++ (w ++ (r ++ 0 :: b)) := by
  rw [hl, h.split]
  simp

include hp

theorem skip_spaces : skipWhile (· = space) line p = .ok (p + n) := by
  obtain ⟨b', hb, hc⟩ := h.first
  have heq : line = a ++ (List.replicate n space ++ w.headD 0 :: b') := by
    rw [h.line_eq hl, hb, List.append_assoc]
  simpa using skipWhile_eq heq hp (by simp) (by simpa using hc)

theorem load_token : load line (p + n) = .ok (w.headD 0) := by
  obtain ⟨b', hb, -⟩ := h.first
  exact load_eq ((h.line_eq hl).trans (congrArg _ hb)) (by simp [hp])

theorem load_delimiter {c : Byte} {b' : List Byte} (hb : r ++ 0 :: b = c :: b') :
    load line (p + n + w.length) = .ok c := by
  have heq : line = (a ++ List.replicate n space ++ w) ++ c :: b' := by
    rw [h.line_eq hl, hb, List.append_assoc _ w]
  exact load_eq heq (by simp [hp]; omega)

include h0

theorem skip_token : skipWhile (fun c => c ≠ space ∧ c ≠ 0) line (p + n) =
    .ok (p + n + w.length) := by
  obtain ⟨c, b', hb, hc⟩ := h.delimiter (b := b)
  have heq : line = (a ++ List.replicate n space) ++ (w ++ c :: b') := by rw [h.line_eq hl, hb]
  refine skipWhile_eq heq (by simp [hp]) (fun x hx => ?_) ?_
  · have hx0 : x ≠ 0 := fun hz => h0 (hz ▸ h.mem_of_mem_word hx)
    have hxs : x ≠ space := fun hz => h.word (hz ▸ hx)
    exact decide_eq_true ⟨hxs, hx0⟩
  · rcases hc with rfl | rfl <;> rfl

theorem load_start : ∃ c, load line p = .ok c ∧ c ≠ 0 := by
  have hshort := h.shorter
  cases rest with
  | nil => cases hshort
  | cons c rest => exact ⟨c, load_eq (by simpa using hl) hp, fun hc => h0 (by simp [hc])⟩

end TokenTurn

/-! ## Counting -/

/-- What a turn adds to the numbers. -/
theorem count_token (h0 : (0 : Byte) ∉ w) :
    (if w.headD 0 = dash then (argc, optc + 1) else if w.headD 0 ≠ 0 then
      (argc + 1, optc) else (argc, optc)) =
      (argc + (arguments (token w)).length, optc + (options (token w)).length) := by
  cases w with
  | nil => rfl
  | cons c w =>
    have hc : c ≠ 0 := fun hc => h0 (by simp [hc])
    have hc' : ¬ c = 0#8 := hc
    by_cases hd : c = dash <;> simp [arguments, options, token, IsOption, hc', hd]

/-- The loop counts the words that are left. -/
theorem countTokensFrom_eq (h0 : (0 : Byte) ∉ rest) (hl : line = a ++ (rest ++ 0 :: b))
    (hp : p = a.length) (hturns : rest.length < turns) : countTokensFrom line turns p argc optc =
      .ok (argc + (arguments (words space rest)).length,
        optc + (options (words space rest)).length) := by
  induction turns generalizing a rest p argc optc with
  | zero => cases hturns
  | succ turns ih =>
    rcases eq_or_ne rest [] with rfl | hne
    · rw [countTokensFrom, load_eq hl hp]
      rfl
    · obtain ⟨n, w, r, h⟩ := exists_turn hne
      obtain ⟨c, hload, hc⟩ := h.load_start h0 hl hp
      have hw0 : (0 : Byte) ∉ w := fun hmem => h0 (h.mem_of_mem_word hmem)
      have hr0 : (0 : Byte) ∉ r := fun hmem => h0 (h.mem_of_mem_behind hmem)
      have hr : line = (a ++ List.replicate n space ++ w) ++ (r ++ 0 :: b) := by
        rw [h.line_eq hl, List.append_assoc _ w]
      have hlt : r.length < turns := by
        have := h.shorter
        omega
      rw [countTokensFrom, hload, ok_bind, if_neg hc, h.skip_spaces hl hp, ok_bind,
        h.load_token hl hp, ok_bind, count_token hw0]
      dsimp only
      rw [h.skip_token h0 hl hp, ok_bind, ih hr0 hr (by simp [hp]; omega) hlt, h.words,
        arguments_append, options_append, List.length_append, List.length_append, Nat.add_assoc,
        Nat.add_assoc]

/-! ## Storing -/

/-- The pointers that are stored, with `k` and `m` places left in the arrays. -/
def Tokens.Filled (t : Tokens) (A O : List Nat) (k m : Nat) : Prop :=
  t.argp = A.length ∧ t.optp = O.length ∧ ∃ R Q, t.argv = A ++ R ∧ R.length = k ∧ t.optv =
    O ++ Q ∧ Q.length = m

/-- A pointer for each token of a list with at most one. -/
def pointers (p : Nat) (ws : List (List Byte)) : List Nat := ws.map fun _ => p

theorem store_append {v R : List Nat} (hv : v = A ++ R) (hR : R.length = k + 1) :
    ∃ R', store v A.length p = .ok (A ++ [p] ++ R') ∧ R'.length = k := by
  cases R with
  | nil => cases hR
  | cons x R => exact ⟨R, by rw [store_eq hv rfl, List.append_assoc]; rfl, by simpa using hR⟩

/-- A turn stores a pointer to the token into the array for it. -/
theorem Tokens.Filled.save (h : t.Filled A O ((arguments (token w)).length + k)
    ((options (token w)).length + m)) (h0 : (0 : Byte) ∉ w) : ∃ t', t.save (w.headD 0) p = .ok t' ∧
    t'.line = t.line ∧
      t'.Filled (A ++ pointers p (arguments (token w)))
      (O ++ pointers p (options (token w))) k m := by
  obtain ⟨hargp, hoptp, R, Q, hargv, hR, hoptv, hQ⟩ := h
  cases w with
  | nil =>
    have harg : arguments (token []) = [] := rfl
    have hopt : options (token []) = [] := rfl
    rw [harg, List.length_nil, Nat.zero_add] at hR
    rw [hopt, List.length_nil, Nat.zero_add] at hQ
    refine ⟨t, rfl, rfl, ?_⟩
    rw [harg, hopt, pointers, List.map_nil, List.append_nil, List.append_nil]
    exact ⟨hargp, hoptp, R, Q, hargv, hR, hoptv, hQ⟩
  | cons c w =>
    have hc : c ≠ 0 := fun hc => h0 (hc ▸ List.mem_cons_self)
    by_cases hd : c = dash
    · have harg : arguments (token (c :: w)) = [] := by simp [arguments, token, IsOption, hd]
      have hopt : options (token (c :: w)) = [c :: w] := by simp [options, token, IsOption, hd]
      rw [harg, List.length_nil, Nat.zero_add] at hR
      rw [hopt, List.length_singleton, Nat.add_comm] at hQ
      obtain ⟨Q', hstore, hQ'⟩ := store_append (p := p) hoptv hQ
      refine ⟨{ t with optv := O ++ [p] ++ Q', optp := t.optp + 1 }, ?_, rfl, ?_⟩
      · rw [Tokens.save, List.headD_cons, if_pos hd, hoptp, hstore]
        rfl
      · rw [harg, hopt]
        exact ⟨by simp [pointers, hargp], by
          simp [pointers, hoptp], R, Q', by simp [pointers, hargv], hR, rfl, hQ'⟩
    · have harg : arguments (token (c :: w)) = [c :: w] := by simp [arguments, token, IsOption, hd]
      have hopt : options (token (c :: w)) = [] := by simp [options, token, IsOption, hd]
      rw [hopt, List.length_nil, Nat.zero_add] at hQ
      rw [harg, List.length_singleton, Nat.add_comm] at hR
      obtain ⟨R', hstore, hR'⟩ := store_append (p := p) hargv hR
      refine ⟨{ t with argv := A ++ [p] ++ R', argp := t.argp + 1 }, ?_, rfl, ?_⟩
      · rw [Tokens.save, List.headD_cons, if_neg hd, if_pos hc, hargp, hstore]
        rfl
      · rw [harg, hopt]
        exact ⟨by simp [pointers, hargp], by
          simp [pointers, hoptp], R', Q, rfl, hR', by simp [pointers, hoptv], hQ⟩

/-- The pointers of a turn point to the token, once it is ended with a NUL. -/
theorem strings_pointers (hline : string line p = .ok w) (hws : ∀ v ∈ ws, v = w) :
    (pointers p ws).map (string line) = ws.map .ok := by
  rw [pointers, List.map_map]
  refine List.map_congr_left fun v hv => ?_
  rw [Function.comp_apply, hline, hws v hv]

theorem eq_of_mem_token {v : List Byte} (hv : v ∈ token w) : v = w := by
  simpa using (List.mem_filter.1 hv).1

/-- The loop stores the words of the rest of the line. -/
theorem tokenizeFrom_eq (h0 : (0 : Byte) ∉ rest) (hl : t.line = a ++ (rest ++ 0 :: b))
    (hp : p = a.length) (hturns : rest.length < turns)
    (hfill : t.Filled A O (arguments (words space rest)).length
      (options (words space rest)).length) :
    ∃ t' rest' A' O', tokenizeFrom turns p t = .ok t' ∧ t'.line = a ++ (rest' ++ 0 :: b) ∧
      rest'.length = rest.length ∧ t'.Filled (A ++ A') (O ++ O') 0 0 ∧
      A'.map (string t'.line) = (arguments (words space rest)).map .ok ∧
      O'.map (string t'.line) = (options (words space rest)).map .ok := by
  induction turns generalizing a rest p t A O with
  | zero => cases hturns
  | succ turns ih =>
    rcases eq_or_ne rest [] with rfl | hne
    · refine ⟨t, [], [], [], ?_, hl, rfl, by simpa [arguments, options] using hfill, rfl, rfl⟩
      rw [tokenizeFrom, load_eq hl hp]
      rfl
    · obtain ⟨n, w, r, h⟩ := exists_turn hne
      obtain ⟨c, hload, hc⟩ := h.load_start h0 hl hp
      have hw0 : (0 : Byte) ∉ w := fun hmem => h0 (h.mem_of_mem_word hmem)
      have hr0 : (0 : Byte) ∉ r := fun hmem => h0 (h.mem_of_mem_behind hmem)
      rw [h.words, arguments_append, options_append, List.length_append,
        List.length_append] at hfill
      obtain ⟨t₁, hsave, hline₁, hfill₁⟩ := hfill.save (p := p + n) hw0
      have hl₁ := hline₁.trans hl
      rw [tokenizeFrom, hload, ok_bind, if_neg hc, h.skip_spaces hl hp, ok_bind,
        h.load_token hl hp, ok_bind, hsave, ok_bind, h.skip_token h0 hl₁ hp, ok_bind]
      have hshort := h.shorter
      have hlen : rest.length = n + (w.length + r.length) := by
        rw [h.split, List.length_append, List.length_replicate, List.length_append]
      have hp' : p + n = (a ++ List.replicate n space).length := by simp [hp]
      have hl' : t₁.line = (a ++ List.replicate n space ++ w) ++ (r ++ 0 :: b) := by
        rw [h.line_eq hl₁, List.append_assoc _ w]
      have hq : p + n + w.length = (a ++ List.replicate n space ++ w).length := by
        rw [List.length_append, ← hp']
      -- With the rest of the line done and a NUL behind the token, all pointers are right.
      have hglue : ∀ (ws : List (List Byte)) (line : List Byte) (B : List Nat),
        string line (p + n) = .ok w →
          (∀ v ∈ ws, v = w) → ∀ vs : List (List Byte), B.map (string line) = vs.map .ok →
          (pointers (p + n) ws ++ B).map (string line) = (ws ++ vs).map .ok := by
        intro ws line B hstring hws vs hB
        rw [List.map_append, List.map_append, strings_pointers hstring hws, hB]
      have harg : ∀ v ∈ arguments (token w), v = w :=
        fun v hv => eq_of_mem_token (List.mem_of_mem_filter hv)
      have hopt : ∀ v ∈ options (token w), v = w :=
        fun v hv => eq_of_mem_token (List.mem_of_mem_filter hv)
      rw [h.words, arguments_append, options_append]
      rcases h.behind with rfl | ⟨r', rfl⟩
      · rw [h.load_delimiter hl₁ hp rfl, ok_bind, if_neg (by decide)]
        obtain ⟨t', rest', A', O', hrun, hline, hlen', hfill', hA, hO⟩ :=
          ih hr0 hl' hq (by omega) hfill₁
        obtain rfl : rest' = [] := List.eq_nil_of_length_eq_zero hlen'
        have hstring : string t'.line (p + n) = .ok w :=
          string_eq (hline.trans (List.append_assoc ..)) hp' hw0
        exact ⟨t', List.replicate n space ++ w, _, _, hrun, by simpa using hline, by simp [hlen],
          by simpa using hfill', hglue _ _ _ hstring harg _ hA, hglue _ _ _ hstring hopt _ hO⟩
      · rw [h.load_delimiter hl₁ hp rfl, ok_bind, if_pos rfl, store_eq hl' hq, ok_bind]
        rw [words_cons] at hfill₁
        set t₂ : Tokens :=
          { t₁ with line := (a ++ List.replicate n space ++ w) ++ 0 :: (r' ++ 0 :: b) }
        have hl₂ : t₂.line = (a ++ List.replicate n space ++ w ++ [0]) ++ (r' ++ 0 :: b) := by
          simp [t₂]
        have hfill₂ : t₂.Filled _ _ _ _ := hfill₁
        have hr0' : (0 : Byte) ∉ r' := fun hmem => hr0 (List.mem_cons_of_mem _ hmem)
        have hq₂ : p + n + w.length + 1 = (a ++ List.replicate n space ++ w ++ [0]).length := by
          rw [List.length_append, ← hq, List.length_singleton]
        rw [List.length_cons] at hlen
        obtain ⟨t', rest', A', O', hrun, hline, hlen', hfill', hA, hO⟩ :=
          ih hr0' hl₂ hq₂ (by omega) hfill₂
        have hline' : t'.line = (a ++ List.replicate n space) ++ (w ++ 0 :: (rest' ++ 0 :: b)) :=
          by simp [hline]
        have hstring : string t'.line (p + n) = .ok w := string_eq hline' hp' hw0
        rw [words_cons]
        exact ⟨t', List.replicate n space ++ (w ++ 0 :: rest'), _, _, hrun, by simpa using hline,
          by simp [hlen, hlen'], by simpa using hfill', hglue _ _ _ hstring harg _ hA,
          hglue _ _ _ hstring hopt _ hO⟩

end

/-- **Counting and tokenizing agree.** On a line that ends with a NUL the tokens are its words
between spaces. `count_tokens` counts them, and `tokenize` fills arrays of these sizes, whatever is
in them, with pointers to the tokens in order: those that start with a dash are in `optv`, and the
others in `argv`. -/
theorem tokenize_agrees_with_countTokens (line behind : List Byte) (hline : (0 : Byte) ∉ line) :
    ∃ argc optc, countTokens (line ++ 0 :: behind) = .ok (argc, optc) ∧
      ∀ argv optv : List Nat, argv.length = argc → optv.length = optc →
        ∃ t, tokenize (line ++ 0 :: behind) argv optv = .ok t ∧
          t.argp = argc ∧ t.argv.length = argc ∧ t.optp = optc ∧ t.optv.length = optc ∧
          t.argv.map (string t.line) = ((words space line).filter (!IsOption ·)).map .ok ∧
          t.optv.map (string t.line) = ((words space line).filter IsOption).map .ok := by
  have hlt : line.length < (line ++ 0 :: behind).length + 1 := by
    rw [List.length_append]
    omega
  refine ⟨(arguments (words space line)).length, (options (words space line)).length, ?_, ?_⟩
  · refine (countTokensFrom_eq (p := 0) hline (List.nil_append _).symm rfl hlt).trans ?_
    rw [Nat.zero_add, Nat.zero_add]
  · intro argv optv hargc hoptc
    have hfill : Tokens.Filled { line := line ++ 0 :: behind, argv, argp := 0, optv, optp := 0 } []
      []
        (arguments (words space line)).length (options (words space line)).length :=
      ⟨rfl, rfl, argv, optv, rfl, hargc, rfl, hoptc⟩
    obtain ⟨t, rest', A, O, hrun, -, -, hfill', hA, hO⟩ :=
      tokenizeFrom_eq hline (List.nil_append (line ++ 0 :: behind)).symm rfl hlt hfill
    obtain ⟨hargp, hoptp, R, Q, hargv, hR, hoptv, hQ⟩ := hfill'
    obtain rfl := List.eq_nil_of_length_eq_zero hR
    obtain rfl := List.eq_nil_of_length_eq_zero hQ
    rw [List.nil_append, List.append_nil] at hargv hoptv
    have hAlen : A.length = (arguments (words space line)).length := by
      simpa using congrArg List.length hA
    have hOlen : O.length = (options (words space line)).length := by
      simpa using congrArg List.length hO
    rw [← hargv] at hA hAlen
    rw [← hoptv] at hO hOlen
    exact ⟨t, hrun, hargp.trans (by simpa [← hargv] using hAlen), hAlen,
      hoptp.trans (by simpa [← hoptv] using hOlen), hOlen, hA, hO⟩

/-- The line ` ls  -a x` has two arguments and an option. -/
theorem tokenize_agrees_with_countTokens_ls :
    countTokens [32, 108, 115, 32, 32, 45, 97, 32, 120, 0] = .ok (2, 1) ∧
      ∃ t, tokenize [32, 108, 115, 32, 32, 45, 97, 32, 120, 0] [7, 7] [7] = .ok t ∧
        t.argv.map (string t.line) = [.ok [108, 115], .ok [120]] ∧
        t.optv.map (string t.line) = [.ok [45, 97]] := by
  obtain ⟨argc, optc, hcount, htok⟩ :=
    tokenize_agrees_with_countTokens [32, 108, 115, 32, 32, 45, 97, 32, 120] [] (by decide)
  obtain ⟨rfl, rfl⟩ : 2 = argc ∧ 1 = optc := by
    have h : countTokens [32, 108, 115, 32, 32, 45, 97, 32, 120, 0] = .ok (2, 1) := rfl
    have heq := h.symm.trans hcount
    injection heq with heq
    injection heq with h₁ h₂
    exact ⟨h₁, h₂⟩
  obtain ⟨t, hrun, -, -, -, -, hA, hO⟩ := htok [7, 7] [7] rfl rfl
  exact ⟨hcount, t, hrun, hA, hO⟩

end MCertikos
