import MCertikos.Shell.Canonical
import MCertikos.Lib.Transition

/-!
# The current directory of the shell

`cd` keeps the path of the current directory in a buffer (`user/shell/commands.c`): `update_cwd`
copies an absolute path there, joins a relative one to it, and normalizes the result. The path in
the buffer always starts with one slash (`IsCwd`), and so does the joined path, unless the argument
starts with two: then `split_path` is called at a slash and its assertion fails.
-/

namespace MCertikos

open CString Transition

/-- Reference: `CWD_SIZE` (`user/shell/commands.c:7`). -/
def cwdSize : Nat := 10 * (dirSiz + 1)

/-- The buffer at the start. Reference: `cwd` (`user/shell/commands.c:8`). -/
def initialCwd : List Byte := slash :: List.replicate (cwdSize - 1) 0

/-- The path in front of its normalization. -/
def joinCwd (cwd path : List Byte) : Except Fault (List Byte) := do
  if path.head? = some slash then
    check (path.length < cwdSize)
    strcpy cwd 0 path
  else
    let s ← string cwd 0
    check (s.length + path.length + 1 < cwdSize)
    joinPath cwd true s path

/-- The last argument is for `normalize_path`. Reference: `update_cwd`
(`user/shell/commands.c:10`). -/
def updateCwd (cwd path : List Byte) (junk : Nat → Byte) : Except Fault (List Byte) := do
  let cwd ← normalizePath (← joinCwd cwd path) junk
  check ((← load cwd 0) = slash)
  return cwd

/-- An argument of `cd`, and the memory that `normalize_path` gets. -/
structure CdArgument where
  path : List Byte
  ne_nil : path ≠ []
  nul : (0 : Byte) ∉ path
  junk : Nat → Byte

/-- The calls of `update_cwd`, as long as they have no fault. -/
def cwdMachine : Machine (List Byte) CdArgument where
  Init cwd := cwd = initialCwd
  step cwd a := (updateCwd cwd a.path a.junk).toOption

/-- The argument passes the length check of `update_cwd`. -/
def FitsCwd (cwd path : List Byte) : Prop :=
  if path.head? = some slash then path.length < cwdSize
  else ∀ s, string cwd 0 = .ok s → s.length + path.length + 1 < cwdSize

/-- An argument that does not start with two slashes and passes the length check. -/
def CdArgument.Plain (a : CdArgument) (cwd : List Byte) : Prop :=
  ¬ [slash, slash] <+: a.path ∧ FitsCwd cwd a.path

/-- A path that starts with one slash. -/
def OneSlash (path : List Byte) : Prop := ∃ rest, path = slash :: rest ∧ rest.head? ≠ some slash

/-- The buffer holds a path that starts with one slash. -/
def IsCwd (cwd : List Byte) : Prop :=
  cwd.length = cwdSize ∧ ∃ s b, cwd = s ++ 0 :: b ∧ (0 : Byte) ∉ s ∧ OneSlash s

section
variable {cwd path s b : List Byte} {a : CdArgument}

theorem isCwd_initialCwd : IsCwd initialCwd := by
  have hcwd : initialCwd = [slash] ++ 0 :: List.replicate (cwdSize - 2) 0 := by
    rw [initialCwd, show cwdSize - 1 = cwdSize - 2 + 1 from rfl, List.replicate_succ,
      List.singleton_append]
  refine ⟨?_, [slash], List.replicate (cwdSize - 2) 0, hcwd, by decide, [], rfl, by decide⟩
  rw [initialCwd, List.length_cons, List.length_replicate]
  rfl

/-- A path that is joined to one that starts with one slash starts with one slash. -/
theorem OneSlash.joinedPath (hs : OneSlash s) (hpath : path.head? ≠ some slash) :
    OneSlash (joinedPath s path) := by
  obtain ⟨rest, rfl, hrest⟩ := hs
  rw [MCertikos.joinedPath, if_neg (List.cons_ne_nil _ _)]
  cases rest with
  | nil => exact ⟨path, rfl, hpath⟩
  | cons c rest =>
    obtain ⟨t, ht⟩ := prefix_withSlash (N := slash :: c :: rest)
    rw [← ht]
    exact ⟨c :: rest ++ t ++ path, rfl, hrest⟩

/-- What fits is joined to the working directory. -/
theorem IsCwd.join (h : IsCwd cwd) (hne : path ≠ []) (hnul : (0 : Byte) ∉ path)
    (hslash : ¬ [slash, slash] <+: path) (hfits : FitsCwd cwd path) :
    ∃ joined behind, joinCwd cwd path = .ok (joined ++ 0 :: behind) ∧
    (joined ++ 0 :: behind).length = cwdSize ∧
      (0 : Byte) ∉ joined ∧ OneSlash joined := by
  obtain ⟨hlen, s, b, hcwd, hs0, hs⟩ := h
  unfold joinCwd
  unfold FitsCwd at hfits
  by_cases hhead : path.head? = some slash
  · rw [if_pos hhead] at hfits ⊢
    rw [check_of hfits, ok_bind, strcpy_start (by omega)]
    refine ⟨path, _, rfl, by simp; omega, hnul, ?_⟩
    cases path with
    | nil => exact absurd rfl hne
    | cons c rest =>
      obtain rfl := Option.some.inj hhead
      refine ⟨rest, rfl, fun hrest => hslash ?_⟩
      cases rest with
      | nil => cases hrest
      | cons d rest =>
        obtain rfl := Option.some.inj hrest
        exact ⟨rest, rfl⟩
  · rw [if_neg hhead] at hfits ⊢
    have hstring : string cwd 0 = .ok s := by rw [hcwd, string_start hs0]
    have hlt := hfits s hstring
    have hjoined : (joinedPath s path).length ≤ s.length + 1 + path.length := length_joinedPath_le
    obtain ⟨y, hrun, hy⟩ := joinPath_eq hne (fun _ : true = true => ⟨_, hcwd⟩) (by omega)
    rw [hstring, ok_bind, check_of hlt, ok_bind, hrun]
    exact ⟨_, y, rfl, hy.trans hlen, zero_notMem_joinedPath hs0 hnul, hs.joinedPath hhead⟩

/-- The path that `normalize_path` leaves starts with one slash. -/
theorem oneSlash_foldl {rest : List Byte} :
    OneSlash ((words slash rest).foldl appendComponent [slash]) := by
  have hcs : ∀ c ∈ words slash rest, IsName c := fun c => isName_of_mem_words
  obtain ⟨hks, htr⟩ := isName_codeRun hcs
  rw [foldl_appendComponent hcs]
  generalize codeRun (words slash rest) = r at hks htr
  obtain ⟨ks, tr⟩ := r
  cases ks with
  | nil =>
    cases tr with
    | true => exact ⟨[], rfl, by decide⟩
    | false => exact absurd rfl (htr rfl)
  | cons k ks =>
    obtain ⟨hne, hsl⟩ := hks k List.mem_cons_self
    refine ⟨k ++ pathOf ks tr, by simp [pathOf], ?_⟩
    rw [List.head?_append_of_ne_nil _ hne]
    exact fun hhead => hsl (List.mem_of_mem_head? hhead)

/-- A call of `update_cwd` has no fault, and leaves a path that starts with one slash. -/
theorem IsCwd.update (h : IsCwd cwd) (ha : a.Plain cwd) :
    ∃ joined behind path unused, joinCwd cwd a.path = .ok (joined ++ 0 :: behind) ∧
    (0 : Byte) ∉ joined ∧
      updateCwd cwd a.path a.junk = .ok (path ++ 0 :: (unused ++ behind)) ∧ (0 : Byte) ∉ path ∧
      path.length + unused.length = joined.length ∧ IsCwd (path ++ 0 :: (unused ++ behind)) := by
  obtain ⟨joined, behind, hjoin, hlen, h0, rest, rfl, hhead⟩ := h.join a.ne_nil a.nul ha.1 ha.2
  have h0' : (0 : Byte) ∉ rest := fun hmem => h0 (List.mem_cons_of_mem _ hmem)
  obtain ⟨unused, hrun, hunused, hnul⟩ := normalizePath_eq (b := behind) a.junk h0' hhead
  obtain ⟨rest', hrest, hhead'⟩ := @oneSlash_foldl rest
  refine ⟨_, behind, _, unused, hjoin, h0, ?_, hnul, hunused, ?_, _, _, rfl, hnul, rest',
    hrest, hhead'⟩
  · rw [updateCwd, hjoin, ok_bind, hrun, ok_bind, hrest, List.cons_append, load_start,
      ok_bind, check_of rfl]
    rfl
  · simp only [List.length_append, List.length_cons] at hlen hunused ⊢
    omega

theorem isCwd_of_runs (h : cwdMachine.Runs (fun cwd a => a.Plain cwd) initialCwd cwd) :
    IsCwd cwd := by
  refine h.invariant (fun cwd a cwd' hcwd ha hstep => ?_) isCwd_initialCwd
  obtain ⟨_, _, _, _, -, -, hrun, -, -, hcwd'⟩ := hcwd.update ha
  have hstep : (updateCwd cwd a.path a.junk).toOption = some cwd' := hstep
  rw [hrun] at hstep
  rwa [← Option.some.inj hstep]

end

/-- **No assertion of the path code fails, unless an argument starts with two slashes.** After
every sequence of calls of `update_cwd` with other arguments that pass its length checks, a further
one has no fault: no assertion fails, no access is outside of a buffer, and the loops end. Nothing
behind the NUL of the joined path is written. -/
theorem updateCwd_no_fault (cwd : List Byte)
    (h : cwdMachine.Runs (fun cwd a => a.Plain cwd) initialCwd cwd) (a : CdArgument)
    (ha : a.Plain cwd) :
    ∃ joined behind path unused, joinCwd cwd a.path = .ok (joined ++ 0 :: behind) ∧
    (0 : Byte) ∉ joined ∧
      updateCwd cwd a.path a.junk = .ok (path ++ 0 :: (unused ++ behind)) ∧ (0 : Byte) ∉ path ∧
      path.length + unused.length = joined.length := by
  obtain ⟨joined, behind, path, unused, hjoin, h0, hrun, hnul, hlen, -⟩ :=
    (isCwd_of_runs h).update ha
  exact ⟨joined, behind, path, unused, hjoin, h0, hrun, hnul, hlen⟩

/-- The argument `a`. -/
def cdA : CdArgument := { path := [97], ne_nil := by decide, nul := by decide, junk := fun _ => 7 }

theorem plain_cdA {cwd s : List Byte} (hs : string cwd 0 = .ok s)
    (hlen : s.length + 1 + 1 < cwdSize) :
    cdA.Plain cwd := by
  refine ⟨by decide, ?_⟩
  rw [FitsCwd, if_neg (by decide)]
  intro s' hs'
  rw [hs] at hs'
  rwa [← Except.ok.inj hs']

/-- `cd a` twice. -/
theorem updateCwd_no_fault_twice :
    cwdMachine.Runs (fun cwd a => a.Plain cwd) initialCwd ([47, 97] ++ List.replicate 148 0) ∧
      ∃ y, updateCwd ([47, 97] ++ List.replicate 148 0) cdA.path cdA.junk = .ok y := by
  have hrun : cwdMachine.Runs (fun cwd a => a.Plain cwd)
      initialCwd ([47, 97] ++ List.replicate 148 0) := by
    refine .tail (a := cdA) .refl (plain_cdA (s := [slash]) (by decide +kernel) (by decide)) ?_
    decide +kernel
  have hplain : cdA.Plain ([47, 97] ++ List.replicate 148 0) :=
    plain_cdA (s := [47, 97]) (by decide +kernel) (by decide)
  obtain ⟨_, _, _, _, -, -, hok, -⟩ := updateCwd_no_fault _ hrun cdA hplain
  exact ⟨hrun, _, hok⟩

/-- With the argument `//` the assertion of `split_path` fails. -/
theorem updateCwd_two_slashes :
    FitsCwd initialCwd [47, 47] ∧ updateCwd initialCwd [47, 47] (fun _ => 0) =
    .error .assertion := by
  refine ⟨?_, by decide +kernel⟩
  rw [FitsCwd, if_pos (by decide)]
  decide

end MCertikos
