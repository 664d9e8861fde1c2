import MCertikos.Fs.DirMap
import MCertikos.Fs.Outside

/-!
# Path resolution

The components of a path are its maximal runs without slashes, each cut to 13 bytes (`components`).
They are what repeated calls of `skipelem` give, so a lookup depends only on them and on whether
the path starts with a slash. `namex` looks them up in order (`walk`, `walkParent`) if the
directories on the way can be searched (`Passable`), and otherwise it does not return. On the way
it takes a reference to each inode and drops it again; `Walking` says which references and locks a
thread has in addition to those of a state before.
-/

namespace MCertikos

open Program BitField

/-! ## The components of a path -/

/-- The maximal runs of a path without slashes, each cut to `DIRSIZ - 1` bytes. -/
def components (path : List Byte) : List (List Byte) :=
  ((path.splitOn slash).filter (· ≠ [])).map (·.take (dirSiz - 1))

section
variable {p q path name rest : List Byte}

@[simp] theorem components_nil : components [] = [] := rfl

theorem components_append : components (p ++ slash :: q) = components p ++ components q := by
  rw [components, List.splitOn_append_cons_self, List.filter_append, List.map_append]
  rfl

theorem components_slash : components (slash :: q) = components q := by
  rw [← List.nil_append (slash :: q), components_append, components_nil, List.nil_append]

theorem components_run (hne : p ≠ []) (hp : slash ∉ p) : components p = [p.take (dirSiz - 1)] := by
  rw [components, List.splitOn_eq_singleton hp]
  simp [hne]

theorem components_dropWhile : components (path.dropWhile (· = slash)) = components path := by
  induction path with
  | nil => rfl
  | cons c path ih =>
    by_cases hc : c = slash
    · rw [List.dropWhile_cons_of_pos (by simpa using hc), ih, hc, components_slash]
    · rw [List.dropWhile_cons_of_neg (by simpa using hc)]

/-- `skipelem` takes the first component. -/
theorem components_skipelem :
    components path = match skipelem path with
      | none => []
      | some (name, rest) => name :: components rest := by
  rw [← components_dropWhile, skipelem]
  cases hdrop : path.dropWhile (· = slash) with
  | nil => rfl
  | cons c cs =>
    have hc : c ≠ slash := by
      have := List.head?_dropWhile_not (· = slash) path
      rw [hdrop] at this
      simpa using this
    -- The string is a run, which is not empty, and what is behind it.
    obtain ⟨run, hrun⟩ : ∃ run, (c :: cs).takeWhile (· ≠ slash) = run := ⟨_, rfl⟩
    obtain ⟨tail, htail⟩ : ∃ tail, (c :: cs).dropWhile (· ≠ slash) = tail := ⟨_, rfl⟩
    have hsplit : c :: cs = run ++ tail := by rw [← hrun, ← htail, List.takeWhile_append_dropWhile]
    have hne : run ≠ [] := by
      rw [← hrun, List.takeWhile_cons_of_pos (by simpa using hc)]
      exact List.cons_ne_nil _ _
    have hno : slash ∉ run := fun hmem => by
      rw [← hrun] at hmem
      simpa using List.all_eq_true.1 List.all_takeWhile _ hmem
    simp only [hrun, htail]
    rw [hsplit, components_dropWhile]
    cases tail with
    | nil => rw [List.append_nil, components_run hne hno, components_nil]
    | cons d ds =>
      have hd : d = slash := by
        have := List.head?_dropWhile_not (· ≠ slash) (c :: cs)
        rw [htail] at this
        simpa using this
      rw [hd, components_append, components_run hne hno, components_slash, List.singleton_append]

theorem elements_eq_components : elements path = components path := by
  induction hn : path.length using Nat.strong_induction_on generalizing path with
  | _ n ih =>
    rw [elements_eq, components_skipelem]
    cases hskip : skipelem path with
    | none => rfl
    | some nr =>
      have hlt := length_skipelem (hskip : skipelem path = some (nr.1, nr.2))
      exact congrArg (nr.1 :: ·) (ih nr.2.length (by omega) rfl)

theorem components_slashes {n : Nat} : components (path ++ List.replicate n slash) =
    components path := by
  induction n with
  | zero => rw [List.replicate_zero, List.append_nil]
  | succ n ih =>
    rw [List.replicate_succ', ← List.append_assoc, components_append, ih, components_nil,
      List.append_nil]

/-- What `skipelem` takes, and what it leaves: a string without a leading slash. -/
theorem skipelem_eq_some (h : skipelem path = some (name, rest)) :
    name ≠ [] ∧ name.length < dirSiz ∧ (∀ b ∈ name, b ∈ path ∧ b ≠ slash) ∧
    (∀ b ∈ rest, b ∈ path) ∧
      rest.head? ≠ some slash := by
  unfold skipelem at h
  split at h
  · cases h
  · next c cs hdrop =>
    cases h
    have hsub : ∀ b ∈ c :: cs, b ∈ path :=
      fun b hb => (List.dropWhile_sublist (· = slash)).mem (hdrop ▸ hb)
    have hc : c ≠ slash := by
      have := List.head?_dropWhile_not (· = slash) path
      rw [hdrop] at this
      simpa using this
    refine ⟨?_, ?_, fun b hb => ⟨?_, ?_⟩, fun b hb => ?_, fun hhead => ?_⟩
    · rw [List.takeWhile_cons_of_pos (by simpa using hc)]
      exact List.cons_ne_nil _ _
    · exact (List.length_take_le _ _).trans_lt (by decide)
    · exact hsub b ((List.takeWhile_sublist _).mem (List.mem_of_mem_take hb))
    · simpa using List.all_eq_true.1 List.all_takeWhile _ (List.mem_of_mem_take hb)
    · exact hsub b ((List.dropWhile_sublist _).mem ((List.dropWhile_sublist _).mem hb))
    · have := List.head?_dropWhile_not (· = slash) ((c :: cs).dropWhile (· ≠ slash))
      rw [hhead] at this
      simp at this

/-- Components are short, not empty, and have no slash. -/
theorem mem_components {c : List Byte} (h : c ∈ components path) :
    c ≠ [] ∧ c.length < dirSiz ∧ ∀ b ∈ c, b ∈ path ∧ b ≠ slash := by
  induction hn : path.length using Nat.strong_induction_on generalizing path with
  | _ n ih =>
    rw [components_skipelem] at h
    cases hskip : skipelem path with
    | none =>
      rw [hskip] at h
      cases h
    | some nr =>
      have hsome : skipelem path = some (nr.1, nr.2) := hskip
      obtain ⟨hne, hlen, hname, hrest, -⟩ := skipelem_eq_some hsome
      have hlt := length_skipelem hsome
      rw [hskip] at h
      rcases List.mem_cons.1 h with rfl | h
      · exact ⟨hne, hlen, hname⟩
      · obtain ⟨hne', hlen', hmem⟩ := ih nr.2.length (by omega) h rfl
        exact ⟨hne', hlen', fun b hb => ⟨hrest b (hmem b hb).1, (hmem b hb).2⟩⟩

/-- At the end of the path, and only there, no element is left. -/
theorem elements_eq_nil_of_skipelem (h : skipelem path = some (name, rest)) :
    elements rest = [] ↔ rest = [] := by
  constructor
  · intro hnil
    cases rest with
    | nil => rfl
    | cons c cs =>
      have hc : c ≠ slash := fun he => (skipelem_eq_some h).2.2.2.2 (he ▸ rfl)
      rw [elements_eq, skipelem, List.dropWhile_cons_of_neg (by simpa using hc)] at hnil
      cases hnil
  · rintro rfl
    rfl

/-- A lookup depends on the components and on whether the path starts with a slash. -/
theorem namex_congr (hhead : p.head? = q.head?) (h : components p = components q)
    {nameiparent : Bool} :
    namex p nameiparent = namex q nameiparent := by
  rw [namex, namex, namexStart, namexStart, hhead, elements_eq_components,
    elements_eq_components, h]

/-! ## The loop over the string -/

/-- The loop of `namex` as it is in the source, with `skipelem` called on what is left of the path.
Reference: `namex` (`kern/fs/path.c:90`). -/
def namexLoop (nameiparent : Bool) :
    (turns ip : Nat) → (name path : List Byte) → Fs (Option (Nat × List Byte))
  | 0, ip, name, _ => do
    if nameiparent then
      inodePut ip
      return none
    return some (ip, name)
  | turns + 1, ip, name, path =>
    match skipelem path with
    | none => do
      if nameiparent then
        inodePut ip
        return none
      return some (ip, name)
    | some (name, path) => do
      inodeLock ip
      let inode ← readInode ip
      if inode.din.type ≠ tDir then
        inodeUnlockput ip
        return none
      if nameiparent ∧ path = [] then
        inodeUnlock ip
        return some (ip, name)
      let next ← dirLookup ip name
      inodeUnlockput ip
      match next with
      | none => return none
      | some (next, _) => namexLoop nameiparent turns next name path

/-- It is the loop over the elements. -/
theorem namexLoop_eq {nameiparent : Bool} {turns ip : Nat} (h : path.length ≤ turns) :
    namexLoop nameiparent turns ip name path = namexFrom nameiparent ip name (elements path) := by
  induction turns generalizing ip name path with
  | zero =>
    obtain rfl : path = [] := List.eq_nil_of_length_eq_zero (Nat.le_zero.1 h)
    rfl
  | succ turns ih =>
    rw [elements_eq, namexLoop]
    cases hskip : skipelem path with
    | none => rfl
    | some nr =>
      have hsome : skipelem path = some (nr.1, nr.2) := hskip
      have hlt := length_skipelem hsome
      have hend := elements_eq_nil_of_skipelem hsome
      have hnext : ∀ next, namexLoop nameiparent turns next nr.1 nr.2 =
          namexFrom nameiparent next nr.1 (elements nr.2) := fun next => ih (by omega)
      dsimp only
      rw [namexFrom]
      refine bind_congr fun _ => bind_congr fun inode => ite_congr rfl (fun _ => rfl) fun _ =>
        ite_congr (by rw [hend]) (fun _ => rfl) fun _ => bind_congr fun r => bind_congr fun _ => ?_
      cases r with
      | none => rfl
      | some found => exact hnext found.1

end

/-! ## The walk -/

/-- The inode that is reached from `i` by looking up the names in order, in directories. -/
def walk (d : Disk) (D : Nat → Dinode) : (i : Nat) → List (List Byte) → Option Nat
  | i, [] => some i
  | i, c :: cs => if (D i).type = tDir then (lookupName d (D i) c).bind (walk d D · cs) else none

/-- The directory that is reached by all names but the last one, with that name. -/
def walkParent (d : Disk) (D : Nat → Dinode) (i : Nat) (cs : List (List Byte)) :
    Option (Nat × List Byte) :=
  match cs.getLast? with
  | none => none
  | some c =>
    (walk d D i cs.dropLast).bind fun j => if (D j).type = tDir then some (j, c) else none

/-- What `namex` looks for, from the inode `i` on; `name` is the last element that was copied. -/
def resolve (nameiparent : Bool) (d : Disk) (D : Nat → Dinode) (i : Nat) (name : List Byte)
    (cs : List (List Byte)) : Option (Nat × List Byte) :=
  if nameiparent then walkParent d D i cs else (walk d D i cs).map (·, cs.getLast?.getD name)

section
variable {d : Disk} {D : Nat → Dinode} {i : Nat} {c name : List Byte} {cs cs' : List (List Byte)}

theorem walk_append : walk d D i (cs ++ cs') = (walk d D i cs).bind (walk d D · cs') := by
  induction cs generalizing i with
  | nil => rfl
  | cons c cs ih =>
    rw [List.cons_append, walk, walk]
    split
    · simp only [ih, Option.bind_assoc]
    · rfl

theorem walkParent_append : walkParent d D i (cs ++ [c]) =
    (walk d D i cs).bind fun j => if (D j).type = tDir then some (j, c) else none := by
  rw [walkParent, List.getLast?_concat, List.dropLast_concat]

theorem walkParent_cons (h : cs ≠ []) : walkParent d D i (c :: cs) =
    if (D i).type = tDir then (lookupName d (D i) c).bind (walkParent d D · cs) else none := by
  obtain ⟨cs', c', rfl⟩ := (List.eq_nil_or_concat' cs).resolve_left h
  rw [← List.cons_append, walkParent_append, walk]
  simp only [walkParent_append]
  split
  · rw [Option.bind_assoc]
  · rfl

theorem resolve_cons {nameiparent : Bool} (h : ¬ (nameiparent = true ∧ cs = []))
    (htype : (D i).type = tDir) :
    resolve nameiparent d D i name (c :: cs) =
      (lookupName d (D i) c).bind (resolve nameiparent d D · c cs) := by
  cases nameiparent with
  | true =>
    simp only [resolve, if_true]
    rw [walkParent_cons fun hnil => h ⟨rfl, hnil⟩, if_pos htype]
  | false =>
    simp only [resolve, Bool.false_eq_true, if_false]
    rw [walk, if_pos htype, List.getLast?_cons, Option.getD_some, Option.map_bind]
    rfl

theorem resolve_of_not_dir {nameiparent : Bool} (htype : (D i).type ≠ tDir) :
    resolve nameiparent d D i name (c :: cs) = none := by
  cases nameiparent with
  | true =>
    rw [resolve, if_pos rfl]
    rcases eq_or_ne cs [] with rfl | hne
    · exact if_neg htype
    · rw [walkParent_cons hne, if_neg htype]
  | false => rw [resolve, if_neg Bool.false_ne_true, walk, if_neg htype, Option.map_none]

/-- Looking up a path is looking up its last component in its parent. -/
theorem walk_eq_walkParent (h : cs ≠ []) :
    walk d D i cs = (walkParent d D i cs).bind fun jc => lookupName d (D jc.1) jc.2 := by
  obtain ⟨cs', c', rfl⟩ := (List.eq_nil_or_concat' cs).resolve_left h
  rw [walk_append, walkParent_append, Option.bind_assoc]
  congr 1
  funext j
  rw [walk]
  split
  · rw [Option.bind_some]
    exact Option.bind_fun_some _
  · rfl

theorem walkParent_eq_none : walkParent d D i cs = none ↔
    cs = [] ∨ walk d D i cs.dropLast = none ∨ ∃ j, walk d D i cs.dropLast = some j ∧
    (D j).type ≠ tDir := by
  rcases eq_or_ne cs [] with rfl | h
  · exact ⟨fun _ => .inl rfl, fun _ => rfl⟩
  obtain ⟨cs', c', rfl⟩ := (List.eq_nil_or_concat' cs).resolve_left h
  rw [walkParent_append, List.dropLast_concat]
  cases walk d D i cs' with
  | none => exact ⟨fun _ => .inr (.inl rfl), fun _ => rfl⟩
  | some j => simp

theorem getLast?_of_walkParent {j : Nat} (h : walkParent d D i cs = some (j, c)) :
    cs.getLast? = some c := by
  rw [walkParent] at h
  split at h
  · cases h
  · next c' hlast =>
    rw [Option.bind_eq_some_iff] at h
    obtain ⟨k, -, hk⟩ := h
    rw [Option.ite_none_right_eq_some] at hk
    cases hk.2
    exact hlast

/-- A walk fails where there is no directory, or where it lacks the name. -/
theorem walk_eq_none : walk d D i cs = none ↔ ∃ cs₁ c cs₂ j, cs = cs₁ ++ c :: cs₂ ∧
    walk d D i cs₁ = some j ∧ ((D j).type ≠ tDir ∨ lookupName d (D j) c = none) := by
  constructor
  · intro h
    induction cs generalizing i with
    | nil => cases h
    | cons c cs ih =>
      rw [walk] at h
      split at h
      · next htype =>
        rcases Option.eq_none_or_eq_some (lookupName d (D i) c) with hnone | ⟨j, hj⟩
        · exact ⟨[], c, cs, i, rfl, rfl, .inr hnone⟩
        · rw [hj, Option.bind_some] at h
          obtain ⟨cs₁, c', cs₂, k, rfl, hwalk, hk⟩ := ih h
          exact ⟨c :: cs₁, c', cs₂, k, rfl, by
            rw [walk, if_pos htype, hj, Option.bind_some, hwalk], hk⟩
      · next htype => exact ⟨[], c, cs, i, rfl, rfl, .inl htype⟩
  · rintro ⟨cs₁, c, cs₂, j, rfl, hwalk, hj⟩
    rw [walk_append, hwalk, Option.bind_some, walk]
    rcases hj with htype | hnone
    · rw [if_neg htype]
    · rw [hnone, Option.bind_none, ite_self]

/-- The first live entry with the name is found. -/
theorem lookupName_eq_some_of_first {din : Dinode} {k : Nat} (hk : k < nDirents din)
    (hnames : (dirent d din k).Names name) (hbefore : ∀ j < k, ¬ (dirent d din j).Names name) :
    lookupName d din name = some (dirent d din k).inum.toNat := by
  have hfind : (List.range (nDirents din)).find? (fun k => (dirent d din k).Names name) =
      some k := by
    rw [List.find?_range_eq_some]
    exact ⟨decide_eq_true hnames, List.mem_range.2 hk, fun j hj => by simpa using hbefore j hj⟩
  rw [lookupName, hfind, Option.map_some]

end

/-! ## References on the way -/

/-- A reference to the inode that was taken after `a` is not the last one to an inode without
links: the inode has links, or there are other references to it. -/
def Kept (a : FsState Vol) (D : Nat → Dinode) (i : Nat) : Prop :=
  (D i).nlink ≠ 0 ∨ ∃ e, 0 < (a.inode e).ref ∧ (a.inode e).inum = i

/-- The inode is allocated, and is not freed when a reference is dropped that was taken after
`a`. -/
def Live (a : FsState Vol) (D : Nat → Dinode) (i : Nat) : Prop :=
  Allocated (superOf a.bufs.data) D i ∧ Kept a D i

/-- Two entries of the inode cache are free. -/
def TwoFree (a : FsState Vol) : Prop :=
  ∃ e₁ < nInode, ∃ e₂ < nInode, e₁ ≠ e₂ ∧ (a.inode e₁).ref = 0 ∧ (a.inode e₂).ref = 0

/-- No inode is locked, no sector is held, and there is a buffer for one more sector. -/
structure Calm (a : FsState Vol) (D : Nat → Dinode) : Prop where
  tracks : Tracks a D
  entries : Entries a
  unlocked : ∀ e, 0 < (a.inode e).ref → (a.inode e).busy = false
  held : a.bufs.held = ∅
  reads : a.log.n < nBuf

/-- A state in which a process can start to look up paths: it is in no transaction, two entries of
the inode cache are free, the inodes in the cache, the root and the working directory are
allocated, and directories have whole entries, which are for inodes of this volume. -/
structure Searchable (a : FsState Vol) (D : Nat → Dinode) (pid : Nat) : Prop extends Calm a D where
  idle : a.log.busy = false
  free : TwoFree a
  opens : ∀ e i, a.Opens e i → Allocated (superOf a.bufs.data) D i
  root : Live a D rootIno
  cwd : 0 < (a.inode (a.cwd pid)).ref
  cwdAlloc : Allocated (superOf a.bufs.data) D (a.inode (a.cwd pid)).inum
  size : ∀ i, Allocated (superOf a.bufs.data) D i → (D i).type = tDir → DirSize (D i)
  inums : ∀ i, Allocated (superOf a.bufs.data) D i → (D i).type = tDir → ∀ k < nDirents (D i),
    (dirent a.bufs.data (D i) k).inum.toNat < (superOf a.bufs.data).ninodes.toNat

/-- The name can be looked up in the directory `i`: the entries up to the one with the name can be
read. -/
structure Lookup (a : FsState Vol) (D : Nat → Dinode) (i : Nat) (name : List Byte) : Prop where
  size : DirSize (D i)
  blocks : ∃ m, (∀ k < m, k < nDirents (D i) →
      owner a.bufs.data D (i, slotOf (Dirent.size * k / bSize)) ≠ none) ∧
    (nDirents (D i) ≤ m ∨ ∃ j < nDirents (D i), j < m ∧ (dirent a.bufs.data (D i) j).Names name)

/-- The components can be looked up in order from the inode `i` on. An inode that is searched is
allocated; the entries of a directory can be read up to the one that is looked for, or to the end;
and an inode that is left is kept, unless it is found in itself. The directory that `nameiparent`
returns is not searched. -/
def Passable (a : FsState Vol) (D : Nat → Dinode) (nameiparent : Bool) :
    (i : Nat) → List (List Byte) → Prop
  | _, [] => True
  | i, c :: cs => Allocated (superOf a.bufs.data) D i ∧
    (¬ (nameiparent = true ∧ cs = [] ∧ (D i).type = tDir) →
      ((D i).type = tDir → Lookup a D i c) ∧
      (Kept a D i ∨ (D i).type = tDir ∧ lookupName a.bufs.data (D i) c = some i) ∧
      ((D i).type = tDir → ∀ j, lookupName a.bufs.data (D i) c = some j →
        Passable a D nameiparent j cs))

/-- The state `b` is `a` with further references, one for each entry of the inode cache in `xs`,
and with the locks of the entries in `L` taken; inodes may have been read from the disk. -/
structure Walking (a b : FsState Vol) (D : Nat → Dinode) (xs : List Nat)
    (L : Finset Nat) : Prop where
  handles : Handles a b xs L
  tracks : Tracks b D
  bufs : b.bufs = a.bufs
  log : b.log = a.log
  opens : ∀ e j, b.Opens e j → a.Opens e j ∨ Allocated (superOf a.bufs.data) D j

section
variable {A : Allow} {pid ip i j : Nat} {a b : FsState Vol} {D : Nat → Dinode} {xs : List Nat}
  {L : Finset Nat} {x : Inode} {Q : Option (Nat × List Byte) → FsState Vol → Prop}
  {path : List Byte}

theorem Calm.start (h : Calm a D) : Walking a a D [] ∅ :=
  ⟨.refl h.entries h.unlocked, h.tracks, rfl, rfl, fun _ _ => .inl⟩

namespace Walking

section
variable (h : Walking a b D xs L)
include h

/-- An entry of the inode cache is changed. -/
theorem setEntry {xs' : List Nat} {L' : Finset Nat} (hh : Handles a (b.setEntry ip x) xs' L')
    (ht : Tracks (b.setEntry ip x) D)
    (ho : 0 < x.ref → x.valid = true → b.Opens ip x.inum ∨
      Allocated (superOf a.bufs.data) D x.inum) :
    Walking a (b.setEntry ip x) D xs' L' := by
  refine ⟨hh, ht, h.bufs, h.log, fun e j hej => ?_⟩
  obtain ⟨hr, hv, hj⟩ := hej
  rcases eq_or_ne e ip with rfl | hne
  · rw [FsState.setEntry_self] at hr hv hj
    rw [hj] at ho
    exact (ho hr hv).elim (h.opens e j) .inr
  · rw [FsState.setEntry_of_ne hne] at hr hv hj
    exact h.opens e j ⟨hr, hv, hj⟩

theorem gets (hg : Gets b j ip x) (hL : ∀ e ∈ L, 0 < (b.inode e).ref) :
    Walking a (b.setEntry ip x) D (ip :: xs) L := by
  refine h.setEntry (h.handles.gets hg hL) (hg.tracks h.handles.entries h.tracks) fun _ hv => ?_
  rcases (h.handles.entries.nonneg ip).lt_or_eq with hpos | hzero
  · rw [(hg.old hpos).1] at hv ⊢
    exact .inl ⟨hpos, hv, rfl⟩
  · exact absurd ((hg.new hzero.symm).2.1.symm.trans hv) nofun

theorem dup (hpos : 0 < (b.inode ip).ref) :
    Walking a (b.setEntry ip { b.inode ip with ref := (b.inode ip).ref + 1 }) D (ip :: xs) L :=
  h.setEntry (h.handles.dup hpos) (h.tracks.keepEntry rfl (fun hv => ⟨rfl, hv⟩) fun _ => hpos)
    fun _ hv => .inl ⟨hpos, hv, rfl⟩

theorem lockInode (hinum : (b.inode ip).inum = i) (hi : Allocated (superOf a.bufs.data) D i) :
    Walking a (b.lockInode ip (D i)) D xs (insert ip L) :=
  h.setEntry (h.handles.lockInode ip (D i)) (h.tracks.lockInode hinum) fun _ _ =>
    .inr (hinum.symm ▸ hi)

theorem unlock (ip : Nat) :
    Walking a (b.setEntry ip { b.inode ip with busy := false }) D xs (L.erase ip) :=
  h.setEntry (h.handles.unlock ip) (h.tracks.keepEntry rfl (fun hv => ⟨rfl, hv⟩) fun hr => hr)
    fun hr hv => .inl ⟨hr, hv, rfl⟩

theorem put (hpos : 0 < (b.inode ip).ref) (hip : ip ∈ xs) :
    Walking a (b.setEntry ip { b.inode ip with ref := (b.inode ip).ref - 1 }) D (xs.erase ip) L :=
  h.setEntry (h.handles.put hpos hip) (h.tracks.keepEntry rfl (fun hv => ⟨rfl, hv⟩) fun _ => hpos)
    fun _ hv => .inl ⟨hpos, hv, rfl⟩

/-- A reference that was taken after `a` is not the last one to an inode that is kept. -/
theorem not_last (hn : 0 ≤ (a.inode ip).ref) (hip : ip ∈ xs)
    (hkept : Kept a D (b.inode ip).inum ∨ 2 ≤ xs.count ip) : ¬ b.inode.Last ip := by
  rintro ⟨hone, hvalid, hnlink⟩
  have hpos : 0 < (b.inode ip).ref := by omega
  have hcount := List.count_pos_iff.2 hip
  have href := h.handles.ref ip
  rcases hkept with (hlinks | ⟨e, he, hinum⟩) | htwo
  · rw [h.tracks.cached ip _ ⟨hpos, hvalid, rfl⟩] at hnlink
    exact hlinks hnlink
  · -- The other reference is to the same entry.
    have hbe : 0 < (b.inode e).ref := by
      rw [h.handles.ref]
      omega
    obtain rfl := h.tracks.unique e ip hbe hpos ((h.handles.inum e he).trans hinum)
    omega
  · omega

/-- The only reference to an inode that is not kept is the last one. -/
theorem last (hn : 0 ≤ (a.inode ip).ref) (hcount : xs.count ip = 1)
    (hvalid : (b.inode ip).valid = true) (hkept : ¬ Kept a D (b.inode ip).inum) :
    b.inode.Last ip := by
  have href := h.handles.ref ip
  rw [hcount] at href
  have hzero : (a.inode ip).ref = 0 := by
    refine (hn.lt_or_eq.resolve_left fun hpos => hkept (.inr ⟨ip, hpos, ?_⟩)).symm
    exact (h.handles.inum ip hpos).symm
  rw [hzero] at href
  refine ⟨href, hvalid, not_not.1 fun hlinks => hkept (.inl ?_)⟩
  rwa [← h.tracks.cached ip _ ⟨by rw [href]; decide, hvalid, rfl⟩]

end

end Walking

/-- An entry of the inode cache is free, if there were two. -/
theorem Handles.exists_free (h : Handles a b [ip] L) (hfree : TwoFree a) :
    ∃ e < nInode, (b.inode e).ref = 0 := by
  obtain ⟨e₁, h₁, e₂, h₂, hne, hz₁, hz₂⟩ := hfree
  rcases eq_or_ne e₁ ip with rfl | hip
  · exact ⟨e₂, h₂, by rw [h.ref, hz₂, List.count_singleton]; simp [hne]⟩
  · exact ⟨e₁, h₁, by rw [h.ref, hz₁, List.count_singleton]; simp [hip.symm]⟩

/-! ## The rules -/

/-- There are two free entries in the inode cache, or it may be too small. -/
def WalkRoom (A : Allow) (a : FsState Vol) : Prop := A.panic .getNoInodes ∨ TwoFree a

section
variable (h : Calm a D) (hb : Walking a b D xs L) {Q : Unit → FsState Vol → Prop}
include h hb

theorem Calm.reads_of : A.Reads b := by
  refine .inr ?_
  rw [hb.log, hb.bufs, h.held]
  exact h.reads

theorem vwp_lockHeld (hL : ip ∉ L) (hip : ip ∈ xs)
    (hi : Allocated (superOf a.bufs.data) D (b.inode ip).inum)
    (hQ : Q () (b.lockInode ip (D (b.inode ip).inum))) : vwp A pid (inodeLock ip) Q b := by
  have hpos := hb.handles.ref_pos (h.entries.nonneg ip) hip
  have hfit : Fit ⟨fun _ => True, True⟩ b ⟨D, ∅, 0⟩ :=
    hb.tracks.fit (Nat.zero_le _) (.inl ⟨trivial, trivial⟩)
  rw [← hb.bufs] at hi
  refine vwp_inodeLock hfit hpos rfl hi.2.1 (h.reads_of hb) ?_ ?_ (fun _ => ?_)
    (fun _ h0 => ?_) fun _ => hQ
  · rw [hb.bufs, h.held]
    exact Finset.notMem_empty _
  · rw [hb.handles.busy ip hpos]
    exact fun hbusy => absurd (of_decide_eq_true hbusy) hL
  · exact hb.tracks.disk _ hi.2.1
  · exact absurd h0 hi.2.2

theorem vwp_putHeld (hip : ip ∈ xs) (hkept : Kept a D (b.inode ip).inum ∨ 2 ≤ xs.count ip)
    (hQ : ∀ b', Walking a b' D (xs.erase ip) L →
      (∀ e, (b'.inode e).inum = (b.inode e).inum) → Q () b') :
    vwp A pid (inodePut ip) Q b := by
  have hn := h.entries.nonneg ip
  refine vwp_inodePut_keep (hb.not_last hn hip hkept)
    (hQ _ (hb.put (hb.handles.ref_pos hn hip) hip) fun e => ?_)
  rcases eq_or_ne e ip with rfl | hne
  · rw [FsState.setEntry_self]
  · rw [FsState.setEntry_of_ne hne]

theorem vwp_unlockHeld (hL : ip ∈ L) (hip : ip ∈ xs)
    (hQ : ∀ b', Walking a b' D xs (L.erase ip) →
      (∀ e, (b'.inode e).inum = (b.inode e).inum) → Q () b') :
    vwp A pid (inodeUnlock ip) Q b := by
  have hpos := hb.handles.ref_pos (h.entries.nonneg ip) hip
  refine vwp_inodeUnlock ?_ hpos (hQ _ (hb.unlock ip) fun e => ?_)
  · rw [hb.handles.busy ip hpos]
    exact decide_eq_true hL
  · rcases eq_or_ne e ip with rfl | hne
    · rw [FsState.setEntry_self]
    · rw [FsState.setEntry_of_ne hne]

theorem vwp_unlockputHeld (hL : ip ∈ L) (hip : ip ∈ xs)
    (hkept : Kept a D (b.inode ip).inum ∨ 2 ≤ xs.count ip)
    (hQ : ∀ b', Walking a b' D (xs.erase ip) (L.erase ip) →
      (∀ e, (b'.inode e).inum = (b.inode e).inum) → Q () b') :
    vwp A pid (inodeUnlockput ip) Q b := by
  refine vwp_bind (vwp_unlockHeld h hb hL hip fun b' hb' hinum =>
    vwp_putHeld h hb' hip ?_ fun b'' hb'' hinum' => ?_)
  · rwa [hinum]
  · exact hQ b'' hb'' fun e => (hinum' e).trans (hinum e)

end

/-- A lookup from the inode `i` on that cannot be completed stops outside of a transaction, in one
of the panics. -/
structure StopsAt (A : Allow) (a : FsState Vol) (D : Nat → Dinode) (pid i : Nat) : Prop where
  searchable : Searchable a D pid
  stops : ∀ e, e ≠ .unsaved → A.panic e
  pos : 0 < i
  lt : i < (superOf a.bufs.data).ninodes.toNat

theorem StopsAt.outside (h : StopsAt A a D pid i) (hb : Walking a b D xs L) : Outside A b := by
  refine ⟨hb.tracks.geo, ?_, fun x hx => ?_, h.stops⟩
  · rw [hb.log]
    exact h.searchable.idle
  · rw [hb.bufs, h.searchable.held] at hx
    exact absurd hx (Finset.notMem_empty x)

theorem Walking.fit (hb : Walking a b D xs L) : Fit ⟨fun _ => True, True⟩ b ⟨D, ∅, 0⟩ :=
  hb.tracks.fit (Nat.zero_le _) (.inl ⟨trivial, trivial⟩)

/-- An inode that is not allocated is not locked. -/
theorem StopsAt.vwp_inodeLock {Q : Unit → FsState Vol → Prop}
    (hs : StopsAt A a D pid (b.inode ip).inum) (hb : Walking a b D xs ∅) (hip : ip ∈ xs)
    (hi : ¬ Allocated (superOf a.bufs.data) D (b.inode ip).inum) :
    vwp A pid (inodeLock ip) Q b := by
  have hpos := hb.handles.ref_pos (hs.searchable.entries.nonneg ip) hip
  have hlt : (b.inode ip).inum < (superOf b.bufs.data).ninodes.toNat := by
    rw [hb.bufs]
    exact hs.lt
  refine MCertikos.vwp_inodeLock hb.fit hpos rfl hlt (hs.outside hb).reads ?_ ?_
    (fun _ => hb.tracks.disk _ hlt) (fun _ _ => hs.stops _ nofun) fun htype => absurd ?_ hi
  · rw [hb.bufs, hs.searchable.held]
    exact Finset.notMem_empty _
  · rw [hb.handles.busy ip hpos]
    exact fun hbusy => absurd (of_decide_eq_true hbusy) (Finset.notMem_empty ip)
  · cases hvalid : (b.inode ip).valid with
    | true => exact (hb.opens ip _ ⟨hpos, hvalid, rfl⟩).elim (hs.searchable.opens ip _) id
    | false => exact ⟨hs.pos, hs.lt, htype hvalid⟩

/-- An inode that is not kept is not left. -/
theorem StopsAt.vwp_inodeUnlockput {Q : Unit → FsState Vol → Prop} (hs : StopsAt A a D pid i)
    (hb : Walking a b D xs L) (hL : ip ∈ L) (hcount : xs.count ip = 1)
    (hvalid : (b.inode ip).valid = true) (hi : Allocated (superOf a.bufs.data) D (b.inode ip).inum)
    (hkept : ¬ Kept a D (b.inode ip).inum) :
    vwp A pid (inodeUnlockput ip) Q b := by
  have hn := hs.searchable.entries.nonneg ip
  have hip : ip ∈ xs := List.count_pos_iff.1 (by omega)
  have hpos := hb.handles.ref_pos hn hip
  have hbusy : (b.inode ip).busy = true := by
    rw [hb.handles.busy ip hpos]
    exact decide_eq_true hL
  refine vwp_bind (vwp_inodeUnlock hbusy hpos ?_)
  have hb' := hb.unlock ip
  have hentry : (b.setEntry ip { b.inode ip with busy := false }).inode ip =
      { b.inode ip with busy := false } :=
    FsState.setEntry_self
  refine Outside.vwp_inodePut_last hb'.fit (hs.outside hb') (hb'.bufs.symm ▸ hs.searchable.held)
    (hb'.last hn hcount (by rw [hentry, hvalid]) (by rwa [hentry])) ?_
  rw [hentry, hb'.bufs]
  exact hi

/-- The inode that is locked is left, if it is kept or held twice. -/
theorem vwp_leaveHeld {K : Prop} {Q : Unit → FsState Vol → Prop} (h : Calm a D)
    (hb : Walking a b D xs {ip}) (hip : ip ∈ xs) (hvalid : (b.inode ip).valid = true)
    (hi : Allocated (superOf a.bufs.data) D (b.inode ip).inum)
    (hK : K ↔ Kept a D (b.inode ip).inum ∨ 2 ≤ xs.count ip) (hstop : ¬ K → StopsAt A a D pid i)
    (hQ : K → ∀ b', Walking a b' D (xs.erase ip) ∅ →
      (∀ e, (b'.inode e).inum = (b.inode e).inum) → Q () b') :
    vwp A pid (inodeUnlockput ip) Q b := by
  have hself := Finset.mem_singleton_self ip
  by_cases hkept : K
  · refine vwp_unlockputHeld h hb hself hip (hK.1 hkept) fun b' hb' => hQ hkept b' ?_
    rwa [Finset.erase_singleton] at hb'
  · have hs := hstop hkept
    rw [hK, not_or] at hkept
    have hpos := List.count_pos_iff.2 hip
    exact hs.vwp_inodeUnlockput hb hself (by omega) hvalid hi hkept.1

/-- The loop of `dir_lookup` from the entry `k` on, if it stops when it reads the entry `m`. -/
theorem vwp_dirLookupFrom_stop {A' : Allow} {g : Ghost}
    {Q : Option (Nat × Nat) → FsState Vol → Prop} {name : List Byte} {m k n : Nat} (h : Fit A' a g)
    (hl : ListsTo A a g ip i m) (hno : ∀ j < m, ¬ (dirent a.bufs.data (g.D i) j).Names name)
    (hread : ∀ {Q}, vwp A pid (readDirent ip (Dirent.size * m)) Q a) (hk : k ≤ m) (hm : m < k + n)
    (hn : k + n = nDirents (g.D i)) :
    vwp A pid (dirLookupFrom ip name ((List.range' k n).map (Dirent.size * ·))) Q a := by
  induction n generalizing k with
  | zero => omega
  | succ n ih =>
    rw [List.range'_succ, List.map_cons, dirLookupFrom]
    rcases hk.eq_or_lt with rfl | hlt
    · exact vwp_bind hread
    · exact vwp_bind (vwp_readDirent h hl hlt (by omega)
        (vwp_ite (fun hnames => absurd hnames (hno k hlt)) fun _ => ih hlt (by omega) (by omega)))

section
variable {Q : Option (Nat × Nat) → FsState Vol → Prop} {name : List Byte}
  (hb : Walking a b D [ip] {ip}) (hvalid : (b.inode ip).valid = true)
  (htype : (D (b.inode ip).inum).type = tDir)
include hb hvalid htype

/-- The first `m` entries of a locked directory can be read. -/
theorem Walking.listsTo {m : Nat} (h : Calm a D) (hsize : DirSize (D (b.inode ip).inum))
    (hblocks : ∀ k < m, k < nDirents (D (b.inode ip).inum) →
      owner a.bufs.data D ((b.inode ip).inum, slotOf (Dirent.size * k / bSize)) ≠ none) :
    ListsTo A b ⟨D, ∅, 0⟩ ip (b.inode ip).inum m := by
  refine ⟨⟨hb.handles.ref_pos (h.entries.nonneg ip) List.mem_cons_self, hvalid, rfl⟩,
    h.reads_of hb, ?_, htype, hsize, ?_⟩
  · rw [hb.bufs, h.held]
  · rw [hb.bufs]
    exact hblocks

/-- `dir_lookup` in a locked directory looks up the name. -/
theorem vwp_dirLookupHeld (h : Calm a D) (hroom : WalkRoom A a)
    (hlookup : Lookup a D (b.inode ip).inum name)
    (hmiss : lookupName a.bufs.data (D (b.inode ip).inum) name = none → Q none b)
    (hhit : ∀ j next off b', lookupName a.bufs.data (D (b.inode ip).inum) name = some j →
      Walking a b' D [next, ip] {ip} → (b'.inode ip).inum = (b.inode ip).inum →
      (b'.inode ip).valid = true → (b'.inode next).inum = j → Q (some (next, off)) b') :
    vwp A pid (dirLookup ip name) Q b := by
  have hpos := hb.handles.ref_pos (h.entries.nonneg ip) List.mem_cons_self
  obtain ⟨m, hblocks, hm⟩ := hlookup.blocks
  refine vwp_dirLookup hb.fit (hb.listsTo hvalid htype h hlookup.size hblocks)
    hb.handles.entries (hroom.imp id hb.handles.exists_free) (by rwa [hb.bufs]) (fun hno => ?_)
    fun k hk hnames hbefore next x hg => ?_
  · rw [hb.bufs] at hno
    exact hmiss (lookupName_eq_none.2 hno)
  · dsimp only at hk hnames hbefore hg
    rw [hb.bufs] at hnames hbefore hg
    have hsame : ((b.setEntry next x).inode ip).inum = (b.inode ip).inum ∧
        ((b.setEntry next x).inode ip).valid = (b.inode ip).valid := by
      rcases eq_or_ne ip next with rfl | hne
      · rw [FsState.setEntry_self, (hg.old hpos).1]
        exact ⟨rfl, rfl⟩
      · rw [FsState.setEntry_of_ne hne]
        exact ⟨rfl, rfl⟩
    refine hhit _ next _ _ (lookupName_eq_some_of_first hk hnames hbefore)
      (hb.gets hg fun e he => ?_) hsame.1 (hsame.2.trans hvalid) ?_
    · rwa [Finset.mem_singleton.1 he]
    · rw [FsState.setEntry_self, hg.inum]

/-- If the name cannot be looked up, an entry before it is in a block that is missing. -/
theorem StopsAt.vwp_dirLookup (hs : StopsAt A a D pid i)
    (hi : Allocated (superOf a.bufs.data) D (b.inode ip).inum)
    (hlookup : ¬ Lookup a D (b.inode ip).inum name) :
    vwp A pid (dirLookup ip name) Q b := by
  have hsize := hs.searchable.size _ hi htype
  have hex : ∃ m, m < nDirents (D (b.inode ip).inum) ∧
      owner a.bufs.data D ((b.inode ip).inum, slotOf (Dirent.size * m / bSize)) = none := by
    by_contra hall
    exact hlookup ⟨hsize, _, fun k hk _ hnone => hall ⟨k, hk, hnone⟩, .inl le_rfl⟩
  obtain ⟨hm, hnone⟩ := Nat.find_spec hex
  have hbefore : ∀ k < Nat.find hex, k < nDirents (D (b.inode ip).inum) →
      owner a.bufs.data D ((b.inode ip).inum, slotOf (Dirent.size * k / bSize)) ≠ none :=
    fun k hk hlt hk0 => Nat.find_min hex hk ⟨hlt, hk0⟩
  generalize Nat.find hex = m at hm hnone hbefore
  have hl : ListsTo A b ⟨D, ∅, 0⟩ ip (b.inode ip).inum m :=
    hb.listsTo hvalid htype hs.searchable.toCalm hsize hbefore
  have hend := hsize.entry_le hm
  have hmax : maxFile * bSize + Dirent.size < 2 ^ 32 := by decide
  have hoff : (BitVec.ofNat 32 (Dirent.size * m)).toNat = Dirent.size * m :=
    toNat_ofNat_of_lt (by have := hsize.le; omega)
  refine vwp_bind (vwp_readInode ?_)
  rw [hb.fit.cached ip _ hl.opens]
  refine vwp_ite (fun hne => absurd htype hne) fun _ => ?_
  rw [hsize.entryOffsets]
  refine vwp_dirLookupFrom_stop hb.fit
    hl (fun j hj hnames => hlookup ⟨hsize, m, hbefore, .inr ⟨j, by omega, hj, ?_⟩⟩) (vwp_bind ?_)
    (Nat.zero_le m) (by omega) (Nat.zero_add _)
  · rwa [hb.bufs] at hnames
  · refine Outside.vwp_inodeRead hb.fit (hs.outside hb) hl.held hl.opens (hb.bufs.symm ▸ hi) ?_
      hsize.le (by decide) ?_ ?_ ?_
    · show (D (b.inode ip).inum).type ≠ tDev
      rw [htype]
      decide
    · show _ < (D (b.inode ip).inum).size.toNat
      rw [hoff]
      rw [Dirent.size] at hend ⊢
      omega
    · rw [hoff, show (BitVec.ofNat 32 Dirent.size).toNat = Dirent.size from rfl]
      have := hsize.le
      omega
    · rwa [hoff, hb.bufs]

end

/-- The loop of `namex`. -/
theorem vwp_namexFrom {nameiparent : Bool} {name : List Byte} {cs : List (List Byte)}
    (h : Calm a D) (hroom : WalkRoom A a) (hb : Walking a b D [ip] ∅)
    (hkept : nameiparent = true → cs = [] → Kept a D (b.inode ip).inum)
    (hstop : ¬ Passable a D nameiparent (b.inode ip).inum cs → StopsAt A a D pid (b.inode ip).inum)
    (hnone : ∀ b', Passable a D nameiparent (b.inode ip).inum cs →
      resolve nameiparent a.bufs.data D (b.inode ip).inum name cs = none →
      Walking a b' D [] ∅ → Q none b')
    (hsome : ∀ b' ip' name', Passable a D nameiparent (b.inode ip).inum cs →
      resolve nameiparent a.bufs.data D (b.inode ip).inum name cs =
      some ((b'.inode ip').inum, name') → Walking a b' D [ip'] ∅ → Q (some (ip', name')) b') :
    vwp A pid (namexFrom nameiparent ip name cs) Q b := by
  induction cs generalizing b ip name with
  | nil =>
    refine vwp_ite (fun hp =>
      vwp_bind (vwp_putHeld h hb List.mem_cons_self (.inl (hkept hp rfl)) fun b' hb' _ => ?_))
        fun hp => ?_
    · rw [List.erase_cons_head] at hb'
      exact vwp_pure (hnone b' trivial (by rw [resolve, if_pos hp]; rfl) hb')
    · exact vwp_pure (hsome b ip name trivial (by rw [resolve, if_neg hp]; rfl) hb)
  | cons c cs ih =>
    by_cases hi : Allocated (superOf a.bufs.data) D (b.inode ip).inum
    swap
    · exact vwp_bind ((hstop fun hp => hi hp.1).vwp_inodeLock hb List.mem_cons_self hi)
    refine vwp_bind (vwp_lockHeld h hb (Finset.notMem_empty ip) List.mem_cons_self
      hi (vwp_bind (vwp_readInode ?_)))
    have hlock : Walking a (b.lockInode ip (D (b.inode ip).inum)) D [ip] {ip} :=
      hb.lockInode rfl hi
    have hentry : (b.lockInode ip (D (b.inode ip).inum)).inode ip =
        { b.inode ip with busy := true, valid := true, din := D (b.inode ip).inum } :=
        FsState.setEntry_self
    have hinum : ((b.lockInode ip (D (b.inode ip).inum)).inode ip).inum = (b.inode ip).inum :=
      by rw [hentry]
    have hvalid : ((b.lockInode ip (D (b.inode ip).inum)).inode ip).valid = true := by rw [hentry]
    have hi' : Allocated (superOf a.bufs.data) D
        ((b.lockInode ip (D (b.inode ip).inum)).inode ip).inum := hinum.symm ▸ hi
    have hkeep : Kept a D (b.inode ip).inum ↔
        Kept a D ((b.lockInode ip (D (b.inode ip).inum)).inode ip).inum ∨ 2 ≤ [ip].count ip := by
      simp [hinum]
    rw [hentry]
    refine vwp_ite (fun hne => ?_) fun htype => vwp_ite (fun hend => ?_) fun hgo => ?_
    · -- This is not a directory.
      have hgo : ¬ (nameiparent = true ∧ cs = [] ∧ (D (b.inode ip).inum).type = tDir) :=
        fun hp => hne hp.2.2
      refine vwp_bind (vwp_leaveHeld h hlock List.mem_cons_self hvalid hi' hkeep
        (fun hno => hstop fun hp => (hp.2 hgo).2.1.elim hno fun ht => hne ht.1)
        fun hk b' hb' _ => vwp_pure (hnone b' ⟨hi, fun _ => ⟨fun ht => absurd ht hne, .inl hk,
          fun ht => absurd ht hne⟩⟩ (resolve_of_not_dir hne) ?_))
      rwa [List.erase_cons_head] at hb'
    · obtain ⟨rfl, rfl⟩ := hend
      rw [not_not] at htype
      refine vwp_bind (vwp_unlockHeld h hlock (Finset.mem_singleton_self ip) List.mem_cons_self
        fun b' hb' hinum' => vwp_pure ?_)
      rw [Finset.erase_singleton] at hb'
      refine hsome b' ip c ⟨hi, fun hno => absurd ⟨rfl, rfl, htype⟩ hno⟩ ?_ hb'
      rw [(hinum' ip).trans hinum, resolve, if_pos rfl]
      exact if_pos htype
    rw [not_not] at htype
    have hgo' : ¬ (nameiparent = true ∧ cs = [] ∧ (D (b.inode ip).inum).type = tDir) :=
      fun hp => hgo ⟨hp.1, hp.2.1⟩
    rw [resolve_cons hgo htype] at hnone hsome
    by_cases hlookup : Lookup a D (b.inode ip).inum c
    swap
    · have hs := hstop fun hp => hlookup ((hp.2 hgo').1 htype)
      exact vwp_bind (hs.vwp_dirLookup hlock hvalid (hinum.symm ▸ htype) hi'
        (hinum.symm ▸ hlookup))
    refine vwp_bind (vwp_dirLookupHeld hlock hvalid (hinum.symm ▸ htype) h hroom
      (hinum.symm ▸ hlookup) (fun hmiss => ?_) fun j next off b' hhit hb' hip hvalid' hinum' => ?_)
    · rw [hinum] at hmiss
      refine vwp_bind (vwp_leaveHeld h hlock List.mem_cons_self hvalid hi' hkeep
        (fun hno => hstop fun hp => (hp.2 hgo').2.1.elim hno fun ht =>
          absurd (hmiss.symm.trans ht.2) nofun)
        fun hk b' hb' _ => vwp_pure (hnone b' ⟨hi, fun _ => ⟨fun _ => hlookup, .inl hk,
          fun _ j hj => absurd (hmiss.symm.trans hj) nofun⟩⟩ (by rw [hmiss, Option.bind_none]) ?_))
      rwa [List.erase_cons_head] at hb'
    · rw [hinum] at hip hhit
      rw [hhit, Option.bind_some] at hnone hsome
      -- The next inode may be this one.
      have hsame : 2 ≤ [next, ip].count ip ↔ j = (b.inode ip).inum := by
        have hcount : 2 ≤ [next, ip].count ip ↔ next = ip := by
          rcases eq_or_ne next ip with rfl | hne <;> simp [*]
        rw [hcount, ← hinum', ← hip]
        exact ⟨fun heq => heq ▸ rfl, hb'.tracks.unique next ip
          (hb'.handles.ref_pos (h.entries.nonneg _) (by simp))
          (hb'.handles.ref_pos (h.entries.nonneg _) (by simp))⟩
      refine vwp_bind (vwp_leaveHeld h hb' (List.mem_cons_of_mem _ List.mem_cons_self) hvalid'
        (hip.symm ▸ hi) (by rw [hip, hsame]) (fun hno => hstop fun hp => hno
          ((hp.2 hgo').2.1.imp_right fun ht => Option.some.inj (hhit.symm.trans ht.2)))
        fun hk b'' hb'' hinum'' => ?_)
      have hpass : Passable a D nameiparent j cs →
        Passable a D nameiparent (b.inode ip).inum (c :: cs) := fun hp =>
        ⟨hi, fun _ => ⟨fun _ => hlookup, hk.imp id fun hj =>
          ⟨htype, hhit.trans (congrArg some hj)⟩, fun _ l hl =>
          Option.some.inj (hhit.symm.trans hl) ▸ hp⟩⟩
      have hj' : (b''.inode next).inum = j := (hinum'' next).trans hinum'
      have herase : [next, ip].erase ip = [next] := by
        rcases eq_or_ne next ip with rfl | hne
        · rw [List.erase_cons_head]
        · rw [List.erase_cons_tail (by simpa using hne), List.erase_cons_head]
      rw [herase] at hb''
      refine ih hb'' (fun hp hnil => absurd ⟨hp, hnil⟩ hgo) ?_ ?_ ?_ <;> rw [hj']
      · intro hno
        have hs := hstop fun hp => hno ((hp.2 hgo').2.2 htype j hhit)
        obtain ⟨k, hfind, rfl⟩ := Option.map_eq_some_iff.1 hhit
        have hnames : (dirent a.bufs.data (D (b.inode ip).inum) k).Names c := by
          simpa using List.find?_some hfind
        exact ⟨hs.searchable, hs.stops, Nat.pos_of_ne_zero fun h0 =>
          hnames.2 (BitVec.eq_of_toNat_eq h0),
            hs.searchable.inums _ hi htype k (List.mem_range.1 (List.mem_of_find?_eq_some hfind))⟩
      · exact fun b' hp => hnone b' (hpass hp)
      · exact fun b' ip' name' hp => hsome b' ip' name' (hpass hp)

/-- The components can be looked up if each one can, in any directory. -/
theorem Passable.of_forall {nameiparent : Bool} {cs : List (List Byte)} (hlive : Live a D i)
    (hdir : ∀ c ∈ cs, ∀ i, Live a D i → (D i).type = tDir →
      Lookup a D i c ∧ ∀ j, lookupName a.bufs.data (D i) c = some j → Live a D j) :
    Passable a D nameiparent i cs := by
  induction cs generalizing i with
  | nil => trivial
  | cons c cs ih =>
    have hc := hdir c List.mem_cons_self i hlive
    exact ⟨hlive.1, fun _ => ⟨fun htype => (hc htype).1, .inl hlive.2, fun htype j hj =>
      ih ((hc htype).2 j hj) fun c' hc' => hdir c' (List.mem_cons_of_mem c hc')⟩⟩

/-- The inode at which the lookup of a path starts. -/
def walkStart (a : FsState Vol) (pid : Nat) (path : List Byte) : Nat :=
  if path.head? = some slash then rootIno else (a.inode (a.cwd pid)).inum

theorem Searchable.live_start (h : Searchable a D pid) : Live a D (walkStart a pid path) := by
  rw [walkStart]
  split
  · exact h.root
  · exact ⟨h.cwdAlloc, .inr ⟨_, h.cwd, rfl⟩⟩

/-- `namex` finds what it looks for, or it stops. -/
theorem vwp_namex {nameiparent : Bool} (h : Calm a D) (hroom : WalkRoom A a)
    (hcwd : path.head? ≠ some slash → 0 < (a.inode (a.cwd pid)).ref)
    (hkept : components path = [] → Kept a D (walkStart a pid path))
    (hstop : ¬ Passable a D nameiparent (walkStart a pid path) (components path) →
      StopsAt A a D pid (walkStart a pid path))
    (hnone : ∀ b', Passable a D nameiparent (walkStart a pid path) (components path) →
      resolve nameiparent a.bufs.data D (walkStart a pid path) [] (components path) = none →
      Walking a b' D [] ∅ → Q none b')
    (hsome : ∀ b' ip' name', Passable a D nameiparent (walkStart a pid path) (components path) →
      resolve nameiparent a.bufs.data D (walkStart a pid path) [] (components path) =
        some ((b'.inode ip').inum, name') → Walking a b' D [ip'] ∅ → Q (some (ip', name')) b') :
    vwp A pid (namex path nameiparent) Q a := by
  have hstart : vwp A pid (namexStart path)
      (fun ip b => Walking a b D [ip] ∅ ∧ (b.inode ip).inum = walkStart a pid path) a := by
    refine vwp_ite (fun hslash => ?_) fun hrel => ?_
    · refine vwp_inodeGet h.entries ?_ fun ip x hg => ⟨h.start.gets hg nofun, ?_⟩
      · exact hroom.imp id fun ⟨e, hlt, _, _, _, hzero, _⟩ => ⟨e, hlt, .inl hzero⟩
      · rw [FsState.setEntry_self, hg.inum, walkStart, if_pos hslash]
    · refine vwp_bind (vwp_mem (o := .getCwd) trivial (vwp_bind (vwp_inodeDup (vwp_pure
        ⟨h.start.dup (hcwd hrel), ?_⟩))))
      rw [FsState.setEntry_self, walkStart, if_neg hrel]
  refine vwp_bind (vwp_mono hstart ?_)
  rintro ip b ⟨hb, hinum⟩
  rw [elements_eq_components]
  exact vwp_namexFrom h hroom hb (fun _ => hinum.symm ▸ hkept) (hinum.symm ▸ hstop)
    (hinum.symm ▸ hnone) (hinum.symm ▸ hsome)

/-- The specification of `namex` holds of its runs if and only if the lookups can be done. -/
theorem Searchable.run_namex_iff {α : Type} {nameiparent : Bool} {p : Fs α} {s : FsState BufCache}
    {Q : α → FsState Vol → Prop} (R : Option (Nat × List Byte) → α) (hs : s.View a)
    (h : Searchable a D pid) (hp : ∀ {A Q},
      vwp A pid (namex path nameiparent) (fun r b => Q (R r) b) a → vwp A pid p Q a)
    (hnone : ∀ b', resolve nameiparent a.bufs.data D (walkStart a pid path) []
      (components path) = none →
      Walking a b' D [] ∅ → Q (R none) b')
    (hsome : ∀ b' ip' name', resolve nameiparent a.bufs.data D (walkStart a pid path) []
      (components path) =
      some ((b'.inode ip').inum, name') → Walking a b' D [ip'] ∅ → Q (R (some (ip', name'))) b') :
    ((fsHandler BufCache.layer pid).run p s).Sat (fun r s' => ∃ b, s'.View b ∧ Q r b)
    (fun _ _ => False)
        (fun _ => False) ↔
      Passable a D nameiparent (walkStart a pid path) (components path) := by
  have hlive : Live a D (walkStart a pid path) := h.live_start
  constructor
  · intro hsat
    by_contra hno
    have hwp : vwp ⟨fun e => e ≠ .unsaved, False⟩ pid p (fun _ _ => False) a :=
      hp (vwp_namex h.toCalm (.inr h.free) (fun _ => h.cwd) (fun _ => hlive.2)
        (fun _ => ⟨h, fun _ he => he, hlive.1.1, hlive.1.2.1⟩) (fun _ hp => absurd hp hno)
        fun _ _ _ hp => absurd hp hno)
    have hrun := hwp.run hs fun he => he rfl
    obtain ⟨r, s', hr, -⟩ := hsat.returns
    rw [hr] at hrun
    obtain ⟨-, -, hfalse⟩ := hrun
    exact hfalse
  · intro hpass
    have hwp : vwp ⟨fun _ => False, False⟩ pid p Q a :=
      hp (vwp_namex h.toCalm (.inr h.free) (fun _ => h.cwd) (fun _ => hlive.2)
        (fun hno => absurd hpass hno) (fun b _ => hnone b)
        fun b ip name _ => hsome b ip name)
    exact hwp.run hs id

end

/-! ## Images of `mkfs` -/

section
variable {d : Disk} (h : d.Consistent) (hroot : Live (mounted d) (dinodeAt d) rootIno)
  (honly : ∀ i, Allocated (superOf d) (dinodeAt d) i → i = rootIno)
  (hsize : DirSize (dinodeAt d rootIno))
  (hdir : ∀ k < nDirents (dinodeAt d rootIno),
    (dirent d (dinodeAt d rootIno) k).inum.toNat ≤ rootIno)
include h hroot honly hsize hdir

/-- Paths can be looked up in a volume without files. -/
theorem searchable_mounted : Searchable (mounted d) (dinodeAt d) 0 where
  tracks := h.mounted.toTracks
  entries := entries_mounted
  unlocked e he := by
    rw [mounted_ref he]
    rfl
  held := rfl
  reads := by
    rw [show (mounted d).log.n = 0 from rfl]
    decide
  idle := rfl
  free := ⟨1, by decide, 2, by decide, by decide, rfl, rfl⟩
  opens _ _ he := absurd (mounted_valid.symm.trans he.valid) nofun
  root := hroot
  cwd := Int.natCast_pos.2 (by decide)
  cwdAlloc := hroot.1
  size i hi _ := honly i hi ▸ hsize
  inums i hi _ k hk := by
    obtain rfl := honly i hi
    exact (hdir k hk).trans_lt hroot.1.2.1

/-- In a volume without files every lookup can be done. -/
theorem passable_mounted {nameiparent : Bool} {cs : List (List Byte)} :
    Passable (mounted d) (dinodeAt d) nameiparent rootIno cs := by
  refine .of_forall hroot fun c _ i hi _ => ?_
  obtain rfl := honly i hi.1
  refine ⟨⟨hsize, _, fun k hk _ => (h.full _ hi.1).2 _ ?_, .inl le_rfl⟩, fun j hj => ?_⟩
  · have := hsize.entry_le hk
    rw [Dirent.size] at this ⊢
    omega
  · replace hj : lookupName d (dinodeAt d rootIno) c = some j := hj
    obtain ⟨k, hk, rfl⟩ := Option.map_eq_some_iff.1 hj
    have hnames : (dirent d (dinodeAt d rootIno) k).Names c := by simpa using List.find?_some hk
    have hle := hdir k (List.mem_range.1 (List.mem_of_find?_eq_some hk))
    have hpos : (dirent d (dinodeAt d rootIno) k).inum.toNat ≠ 0 :=
      fun h0 => hnames.2 (BitVec.eq_of_toNat_eq h0)
    rwa [show (dirent d (dinodeAt d rootIno) k).inum.toNat = rootIno from
      le_antisymm hle (Nat.pos_of_ne_zero hpos)]

end

end MCertikos
