import MCertikos.Fs.FileTree

/-!
# System calls on open files

What `sys_open`, `sys_fstat`, `sys_read`, `sys_write` and `sys_close` do to a file tree.
-/

namespace MCertikos

open Program Ownership Function

/-- The weakest precondition over file trees: from every state that shows the tree, the program
ends in one that shows a tree with `Q`. It neither panics nor waits. -/
def swp {α : Type} (pid : Nat) (p : Fs α) (Q : α → FileTree → Prop) (t : FileTree) : Prop :=
  ∀ a, Resting pid a t → vwp .strict pid p (fun r a' => ∃ t', Resting pid a' t' ∧ Q r t') a

section
variable {α β : Type} {pid : Nat} {t : FileTree}

theorem swp_pure {r : α} {Q : α → FileTree → Prop} (h : Q r t) : swp pid (pure r) Q t :=
  fun _ ha => vwp_pure ⟨t, ha, h⟩

theorem swp_bind {p : Fs β} {f : β → Fs α} {Q : α → FileTree → Prop}
    (h : swp pid p (fun r t' => swp pid (f r) Q t') t) : swp pid (p >>= f) Q t := fun a ha =>
  vwp_bind (vwp_mono (h a ha) fun _ b ⟨_, hb, hf⟩ => hf b hb)

theorem swp_mono {p : Fs α} {Q Q' : α → FileTree → Prop} (h : swp pid p Q t)
    (hQ : ∀ r t', Q r t' → Q' r t') :
    swp pid p Q' t := fun a ha => vwp_mono (h a ha) fun r _ ⟨t', hb, hq⟩ => ⟨t', hb, hQ r t' hq⟩

end

/-! ## The tables of a process -/

section
variable {A : Allow} {pid f fd ip i : Nat} {a b : FsState Vol} {N : Nat → Option Node} {B : Budget}
  {D : Nat → Dinode} {t : FileTree} {xs : List (Nat × Nat)} {r : Nat → Nat} {o : OpenFile}

theorem vwp_fdallocFrom {Q : Option Nat → FsState Vol → Prop} {fds : List Nat}
    (hfd : fds.find? (fun d => a.openfiles pid d = none) = some fd)
    (hQ : Q (some fd) { a with
      openfiles := update a.openfiles pid (update (a.openfiles pid) fd (some f)) }) :
    vwp A pid (fdallocFrom f fds) Q a := by
  induction fds with
  | nil => cases hfd
  | cons d fds ih =>
    refine vwp_bind (vwp_mem (o := .getOpenfile d) trivial ?_)
    simp only [fsHandler, Outcome.Sat]
    refine vwp_ite (fun hnone => ?_) fun hsome => ih ?_
    · rw [List.find?_cons_of_pos (by simpa using hnone)] at hfd
      obtain rfl := Option.some.inj hfd
      exact vwp_bind (vwp_mem (o := .setOpenfile d (some f)) trivial (vwp_pure hQ))
    · rwa [List.find?_cons_of_neg (by simpa using hsome)] at hfd

/-- The last part of `sys_open`: the process gets a descriptor for the inode. -/
theorem Session.openInode {Q : SysRet → FsState Vol → Prop} {omode : BitVec 32}
    (h : Session a b N B [(ip, i)] {ip})
    (hfile : (List.range nFile).find? (fun f => (a.file f).ref = 0) = some f)
    (hfd : (List.range nOFile).find? (fun d => a.openfiles pid d = none) = some fd)
    (hQ : ∀ b', Session { a with file := b'.file, openfiles := b'.openfiles } b' N B [(ip, i)] ∅ →
      b'.Opens ip i →
      b'.file = update a.file f {
        type := .inode, ref := 1, readable := omode &&& oWronly = 0
        writable := omode &&& oWronly ≠ 0 ∨ omode &&& oRdwr ≠ 0, ip
        off := 0, holdingFlock := 0 } →
      b'.openfiles = update a.openfiles pid (update (a.openfiles pid) fd (some f)) →
      Q (.val .succ fd) b') :
    vwp .strict pid (MCertikos.openInode ip omode) Q b := by
  have htab := h.tables_eq
  have halloc : b.fileAlloc = ({ b with
      file := update b.file f { b.file f with ref := 1, holdingFlock := 0 } }, some f) := by
    rw [FsState.fileAlloc, htab.1, hfile]
  refine vwp_bind (vwp_mem (o := .fileAlloc) trivial ?_)
  simp only [fsHandler, Outcome.Sat, halloc]
  refine vwp_bind (vwp_fdallocFrom (by rwa [← htab.2] at hfd) ?_)
  dsimp only
  -- The tables have changed behind the session.
  have h' := h.tables (update b.file f { b.file f with ref := 1, holdingFlock := 0 })
    (update b.openfiles pid (update (b.openfiles pid) fd (some f)))
  have hopen := h'.opens (h'.refers (List.mem_singleton_self _)) (Finset.mem_singleton_self ip)
  refine vwp_bind (h'.unlock (Finset.mem_singleton_self ip) fun b' hb' _ hopens => ?_)
  have htab' := hb'.tables_eq
  dsimp only at htab'
  rw [Finset.erase_singleton] at hb'
  refine vwp_bind (vwp_mem (o := .fileSetInode f ip _ _)
    trivial (vwp_pure (hQ _ (hb'.tables _ _) ?_ ?_ ?_)))
  · obtain ⟨href, hvalid, hinum⟩ := hopens i hopen
    exact ⟨href, hvalid, hinum⟩
  · rw [htab'.1, update_self, update_idem, htab.1]
  · rw [htab'.2, htab.2]

/-- A session comes to rest with a change to one entry of the file table. -/
theorem Session.resting_file {a' : FsState Vol} {x : File} {o : Option OpenFile} {s : Nat}
    {O : Nat → Nat → Option Nat} (h : Session a' b N B xs ∅) (h0 : RestingAt pid a D t)
    (htrans : B.trans = false) (hcounts : Counts a' r)
    (href : ∀ j, (t.setFile f o).ref j = r j + (xs.map Prod.snd).count j)
    (halloc : ∀ j, (t.setFile f o).ref j ≠ 0 → N j ≠ none)
    (hsuper : superOf a'.bufs.data = superOf a.bufs.data) (hspare : s ≤ B.reserve) (hf : f < nFile)
    (hfile : b.file = update a.file f x) (hclosed : o = none → x.ref = 0)
    (hx : ∀ o', o = some o' → b.ShowsFile x o')
    (hshow : ∀ f' o', f' ≠ f → t.file f' = some o' → a'.ShowsFile (a.file f') o')
    (hopen : b.openfiles = O) (hcwd : a'.Refers (a'.cwd pid) t.cwd) :
    Resting pid b { t.setFile f o with node := N, spare := s, openfiles := O } := by
  refine Session.resting (r := r) h htrans hcounts href halloc (hsuper ▸ h0.ninodes)
    hspare (fun f' hf' => ?_) (fun f' o' hf' => ?_) hopen hcwd h0.base
  · replace hf' : (t.setFile f o).file f' = none := hf'
    rw [hfile]
    rcases eq_or_ne f' f with rfl | hne
    · rw [FileTree.setFile_self] at hf'
      rw [update_self]
      exact hclosed hf'
    · rw [update_of_ne hne]
      exact h0.closed f' (FileTree.setFile_of_ne hne ▸ hf')
  · replace hf' : (t.setFile f o).file f' = some o' := hf'
    rw [hfile]
    rcases eq_or_ne f' f with rfl | hne
    · rw [FileTree.setFile_self] at hf'
      rw [update_self]
      exact ⟨hf, hx o' hf'⟩
    · rw [FileTree.setFile_of_ne hne] at hf'
      rw [update_of_ne hne]
      exact ⟨(h0.file f' o' hf').1, (hshow f' o' hne hf').session h⟩

/-- Other tables do not matter for the inode cache. -/
theorem Counts.tables (h : Counts a r) (file : Nat → File) (openfiles : Nat → Nat → Option Nat) :
    Counts { a with file, openfiles } r :=
  ⟨h.ref, fun j hj => (h.entry j hj).imp fun _ he => ⟨he.ref, he.inum⟩⟩

/-- The process has opened a file. -/
theorem Session.resting_open {x : File} {s : Nat}
    (h : Session { a with file := b.file, openfiles := b.openfiles } b N B [(ip, i)] ∅)
    (h0 : RestingAt pid a D t) (htrans : B.trans = false) (hfree : t.Free pid fd f)
    (hfile : b.file = update a.file f x)
    (hopen : b.openfiles = update a.openfiles pid (update (a.openfiles pid) fd (some f)))
    (hx : b.ShowsFile x o) (ho : o.ino = i) (hall : ∀ j, t.ref j ≠ 0 → N j ≠ none)
    (hi : N i ≠ none) (hspare : s ≤ B.reserve) :
    Resting pid b { (t.setFile f (some o)).setDesc pid fd (some f) with node := N, spare :=
  s } := by
  have hf : f < nFile := List.mem_range.1 (List.mem_of_find?_eq_some hfree.file)
  have hnone : t.file f = none := by simpa using List.find?_some hfree.file
  have href : ∀ j, (t.setFile f (some o)).ref j = t.ref j + [i].count j := by
    intro j
    have hset := FileTree.ref_setFile (t := t) (o := some o) (i := j) hf
    simpa [hnone, ho, List.count_singleton] using hset
  refine h.resting_file h0 htrans (h0.counts.tables _ _) href (fun j hj => ?_) rfl hspare
    hf hfile nofun (fun o' ho' => Option.some.inj ho' ▸ hx)
    (fun f' o' _ hf' => (h0.file f' o' hf').2.tables _ _) ?_ ⟨h0.cwd.ref, h0.cwd.inum⟩
  · rcases eq_or_ne j i with rfl | hne
    · exact hi
    · refine hall j fun h0 => hj ?_
      rw [href, h0, List.count_eq_zero_of_not_mem (by simpa using hne)]
  · rw [hopen, h0.openfiles]
    rfl

/-- The offset of an open file is changed. -/
theorem Session.seek {L : Finset Nat} (h : Session a b N B xs L) (f : Nat) (off : BitVec 32) :
    Session (a.seek f off) (b.seek f off) N B xs L := by
  have htab := h.tables_eq
  have h' := h.tables (b.seek f off).file b.openfiles
  have ha : a.seek f off = { a with file := (b.seek f off).file, openfiles := b.openfiles } := by
    rw [htab.2, FsState.seek, FsState.seek, htab.1]
  rw [ha]
  exact h'

/-- The thread takes over a reference that was there. -/
theorem Session.take {L : Finset Nat} (h : Session a b N B xs L) (hip : a.Refers ip i) :
    Session (a.setEntry ip { a.inode ip with ref := (a.inode ip).ref - 1 }) b N
    B ((ip, i) :: xs) L := by
  have hb := h.refers_of_base hip.ref
  obtain ⟨g, h, hnode⟩ := h
  have hpos := hip.ref
  have hkeep : ∀ e, (a.setEntry ip { a.inode ip with ref := (a.inode ip).ref - 1 }).inode e =
      { a.inode e with ref := (a.inode e).ref - if e = ip then 1 else 0 } := by
    intro e
    rcases eq_or_ne e ip with rfl | hne
    · rw [FsState.setEntry_self, if_pos rfl]
    · rw [FsState.setEntry_of_ne hne, if_neg hne, Int.sub_zero]
  refine ⟨g, { h with nonneg := fun e => ?_, handles :=
    ⟨h.handles.entries, h.handles.file, h.handles.openfiles, h.handles.cwd, fun e => ?_,
      fun e he => ?_, fun e he hv => ?_, h.handles.busy⟩, names := ?_ }, hnode⟩
  · rw [hkeep]
    have := h.nonneg e
    dsimp only
    split_ifs with heq
    · subst heq
      omega
    · omega
  · have href := h.handles.ref e
    rw [hkeep, List.map_cons, List.count_cons]
    simp only [beq_iff_eq, eq_comm (a := ip)]
    split_ifs <;> push_cast <;> omega
  · rw [hkeep] at he ⊢
    dsimp only at he
    exact h.handles.inum e (by split_ifs at he <;> omega)
  · rw [hkeep] at he hv
    dsimp only at he
    exact h.handles.valid e (by split_ifs at he <;> omega) hv
  · intro x hx
    rcases List.mem_cons.1 hx with rfl | hx
    · exact hb.inum.trans hip.inum
    · exact h.names x hx

/-- The references apart from one, and those of them that are left. -/
theorem RestingAt.take {e j : Nat} (h0 : RestingAt pid a D t) (hip : a.Refers ip i)
    (hr : ∀ j, r j + (if j = i then 1 else 0) = t.ref j) :
    Counts (a.setEntry ip { a.inode ip with ref := (a.inode ip).ref - 1 }) r ∧
    (a.Refers e j → r j ≠ 0 →
      (a.setEntry ip { a.inode ip with ref := (a.inode ip).ref - 1 }).Refers e j) := by
  have hcount := h0.counts.ref ip hip.ref
  rw [hip.inum, ← hr i, if_pos rfl] at hcount
  have hleft : ∀ e j, a.Refers e j → r j ≠ 0 →
      (a.setEntry ip { a.inode ip with ref := (a.inode ip).ref - 1 }).Refers e j := by
    intro e j he hne
    rcases eq_or_ne e ip with rfl | hni
    · obtain rfl : i = j := hip.inum.symm.trans he.inum
      refine ⟨?_, ?_⟩ <;> rw [FsState.setEntry_self]
      · dsimp only
        omega
      · exact hip.inum
    · refine ⟨?_, ?_⟩ <;> rw [FsState.setEntry_of_ne hni]
      · exact he.ref
      · exact he.inum
  refine ⟨⟨fun e he => ?_, fun j hj => ?_⟩, hleft e j⟩
  · rcases eq_or_ne e ip with rfl | hni
    · rw [FsState.setEntry_self]
      dsimp only
      rw [hip.inum]
      omega
    · rw [FsState.setEntry_of_ne hni] at he ⊢
      have hne : (a.inode e).inum ≠ i := fun heq =>
        hni (h0.intact.consistent.unique e ip he hip.ref (heq.trans hip.inum.symm))
      rw [h0.counts.ref e he, ← hr, if_neg hne, Nat.add_zero]
  · obtain ⟨e, he⟩ := h0.counts.entry j (by rw [← hr]; omega)
    exact ⟨e, hleft e j he hj⟩

/-- A file is closed, and its reference is now one of the thread. -/
theorem RestingAt.drop (h0 : RestingAt pid a D t) (ho : t.file f = some o) (x : File) : ∃ a₀,
      Session a₀ { a with file := update a.file f x } t.node
        ⟨{(superOf a.bufs.data).bitmapStart, iblock o.ino}, ∅, t.spare, false⟩
        [((a.file f).ip, o.ino)] ∅ ∧
      Counts a₀ (t.setFile f none).ref ∧ superOf a₀.bufs.data = superOf a.bufs.data ∧
      a₀.Refers (a₀.cwd pid) t.cwd ∧
      ∀ f' o', f' ≠ f → t.file f' = some o' → a₀.ShowsFile (a.file f') o' := by
  obtain ⟨hf, hshow⟩ := h0.file f o ho
  have hip : a.Refers (a.file f).ip o.ino := ⟨hshow.opens.ref, hshow.opens.inum⟩
  have hr : ∀ j, (t.setFile f none).ref j + (if j = o.ino then 1 else 0) = t.ref j := fun j => by
    have hset := FileTree.ref_setFile (t := t) (o := none) (i := j) hf
    simpa [ho, eq_comm (a := o.ino)] using hset
  have hs : Session a a t.node ⟨{(superOf a.bufs.data).bitmapStart, iblock o.ino}, ∅, t.spare,
      false⟩ [] ∅ :=
    h0.session (Finset.mem_insert_self _ _) (Nat.add_le_add Finset.card_le_two (Nat.zero_le 5))
      (by simp [lacking]) rfl
  have htake := fun e j => h0.take (e := e) (j := j) hip hr
  refine ⟨_, (hs.take hip).tables (update a.file f x) a.openfiles,
    (htake 0 0).1.tables _ _, rfl, ?_, fun f' o' hne ho' => .tables ?_ _ _⟩
  · have hcwd := (htake (a.cwd pid) t.cwd).2 h0.cwd fun hzero => h0.base ?_
    · exact ⟨hcwd.ref, hcwd.inum⟩
    · exact (Nat.add_eq_zero_iff.1 hzero).1
  · obtain ⟨hf', hshow'⟩ := h0.file f' o' ho'
    have hip' := (htake (a.file f').ip o'.ino).2 ⟨hshow'.opens.ref, hshow'.opens.inum⟩
      (FileTree.ref_pos hf' ((FileTree.setFile_of_ne hne).trans ho'))
    refine { hshow' with opens := ⟨hip'.ref, ?_, hip'.inum⟩ }
    rcases eq_or_ne (a.file f').ip (a.file f).ip with heq | hne
    · rw [heq, FsState.setEntry_self]
      exact hshow.opens.valid
    · rw [FsState.setEntry_of_ne hne]
      exact hshow'.opens.valid

/-- It is at another offset. -/
theorem Session.resting_seek {off : BitVec 32} {s : Nat} (h : Session (a.seek f off) b N B [] ∅)
    (h0 : RestingAt pid a D t) (htrans : B.trans = false) (ho : t.file f = some o)
    (hall : ∀ j, t.ref j ≠ 0 → N j ≠ none) (hspare : s ≤ B.reserve) :
    Resting pid b { t.setFile f (some { o with off }) with node := N, spare := s } := by
  have htab : b.file = (a.seek f off).file ∧ b.openfiles = a.openfiles := h.tables_eq
  obtain ⟨hf, hshow⟩ := h0.file f o ho
  have href : ∀ j, (t.setFile f (some { o with off })).ref j = t.ref j := fun j => by
    have hset := FileTree.ref_setFile (t := t) (o := some { o with off }) (i := j) hf
    rw [ho] at hset
    exact Nat.add_right_cancel hset
  refine h.resting_file (r := t.ref) h0 htrans (h0.counts.tables _ _)
    (fun j => (href j).trans (Nat.add_zero (t.ref j)).symm) (fun j hj => hall j (href j ▸ hj))
    rfl hspare hf htab.1 nofun (fun o' ho' => ?_)
    (fun f' o' _ hf' => (h0.file f' o' hf').2.tables _ _) (htab.2.trans h0.openfiles)
    ⟨h0.cwd.ref, h0.cwd.inum⟩
  obtain rfl := Option.some.inj ho'
  have hb := (hshow.tables (a.seek f off).file a.openfiles).session h
  exact ⟨hb.type, hb.ref, hb.opens, rfl, hb.readable, hb.writable, hb.flock⟩

end

/-! ## The calls -/

section
variable {pid f fd i : Nat} {t : FileTree} {n : Node} {o : OpenFile} {buf len : BitVec 32}
  {bytes : List Byte} {Q : SysRet → FileTree → Prop}

/-- `sys_open` of a path to a node that is there, for reading. -/
theorem swp_sysOpen_read (hbuf : checkBuf buf len 128 = true) (hroom : t.Room 2)
    (hstart : t.Alive (t.start (cstring bytes)))
    (hlead : t.Leads (t.start (cstring bytes)) (components (cstring bytes)) i)
    (hfree : t.Free pid fd f) (hQ :
      Q (.val .succ fd) ((t.setFile f (some ⟨i, 0, true, false, 0⟩)).setDesc pid fd (some f))) :
    swp pid (sysOpen buf oRdonly len bytes) Q t := by
  rintro a ⟨D, h0⟩
  have hi := hlead.alive hstart
  have hne : t.node i ≠ none := by
    obtain ⟨n, hn, -⟩ := hi
    rw [hn]
    exact nofun
  rw [sysOpen, hbuf]
  refine vwp_bind (h0.start.namei (fun i hi => h0.counts.entry i hi) (fun e i he => h0.all he)
    (h0.le_freeEntries hroom) h0.cwd hstart hlead fun ip b hb _ => ?_)
  refine vwp_bind (hb.lock (hb.refers (List.mem_singleton_self _)) (Finset.notMem_empty ip) hne
    fun b' hb' _ => ?_)
  refine vwp_bind (vwp_readInode (vwp_ite (fun hdir => absurd rfl hdir.2) fun _ => ?_))
  have hfile := hfree.file
  have hdesc := hfree.desc
  simp only [← h0.ref_eq_zero_iff] at hfile
  rw [← h0.openfiles] at hdesc
  refine hb'.openInode hfile hdesc fun b'' hb'' hopens hfile hopen =>
    ⟨_, hb''.resting_open h0 rfl hfree hfile hopen ⟨rfl, rfl, hopens, rfl, rfl, rfl, rfl⟩
      rfl h0.alloc hne le_rfl, hQ⟩

theorem RestingAt.vwp_inodeFile {a : FsState Vol} {D : Nat → Dinode}
    {Q : Option Nat → FsState Vol → Prop} (h0 : RestingAt pid a D t) (hfd : t.Has pid fd f o)
    (hQ : Q (some f) a) : vwp .strict pid (inodeFile fd) Q a := by
  refine vwp_ite (fun hrange => absurd ⟨Int.natCast_nonneg fd, Int.ofNat_lt.2 hfd.lt⟩ hrange)
    fun _ => ?_
  refine vwp_bind (vwp_mem (o := .getOpenfile fd) trivial ?_)
  simp only [fsHandler, Outcome.Sat, h0.openfiles, hfd.desc]
  refine vwp_bind (vwp_readFile (vwp_ite (fun htype => ?_) fun _ => vwp_pure hQ))
  exact absurd (h0.file f o hfd.file).2.type htype

/-- What `sys_fstat` says of the node with the inode `i`. -/
def Node.stat (n : Node) (i : Nat) : FileStat where
  type := n.type
  dev := rootDev
  ino := i
  nlink := n.nlink
  size := BitVec.ofNat 32 n.bytes.length

/-- `sys_fstat` of an open file. -/
theorem swp_sysFstat (hbuf : checkBuf buf fileStatSize 0 = true) (hfd : t.Has pid fd f o)
    (hn : t.node o.ino = some n)
    (hQ : Q { errno := .succ, retval1 := some 0, out := [], stat := some (n.stat o.ino) } t) :
    swp pid (sysFstat fd buf) Q t := by
  rintro a ⟨D, h0⟩
  obtain ⟨hf, hshow⟩ := h0.file f o hfd.file
  have hip := h0.start.refers_of_base hshow.opens.ref
  rw [hshow.opens.inum] at hip
  rw [sysFstat, hbuf]
  refine vwp_bind (h0.vwp_inodeFile hfd (vwp_bind (vwp_bind (vwp_readFile ?_))))
  rw [if_pos hshow.type]
  refine vwp_bind (h0.start.lock hip (Finset.notMem_empty _) (by rw [hn]; exact nofun)
    fun b hb _ => ?_)
  have hip' := hshow.opens.inum ▸ hb.refers_of_base hshow.opens.ref
  obtain ⟨htype, hnlink, hsize, hdev⟩ := hb.din hip' (Finset.mem_insert_self _ _) hn
  have hstat : inodeStat (b.inode (a.file f).ip) = n.stat o.ino := by
    rw [inodeStat, htype, hnlink, hdev, hip'.inum, Node.stat, ← hsize, BitVec.ofNat_toNat,
      BitVec.setWidth_eq]
  refine vwp_bind (vwp_readInode
    (vwp_bind (hb.unlock (Finset.mem_insert_self _ _) fun b' hb' _ _ => ?_)))
  rw [insert_empty_eq, Finset.erase_singleton] at hb'
  rw [hstat]
  exact vwp_pure (vwp_pure ⟨t, hb'.resting_same h0 rfl h0.alloc le_rfl, hQ⟩)

/-- `sys_read` of an open file returns the contents from its offset on, and advances it. -/
theorem swp_sysRead (hbuf : checkBuf buf len buflenMax = true) (hfd : t.Has pid fd f o)
    (hreadable : o.readable = true) (hn : t.node o.ino = some n) (htype : n.type ≠ tDev)
    (hoff : o.off.toNat ≤ n.bytes.length) (hlen : o.off.toNat + len.toNat < 2 ^ 32)
    (hQ : ∀ data, data = (n.bytes.drop o.off.toNat).take len.toNat →
      Q { errno := .succ, retval1 := some data.length, out := data, stat := none }
        (t.setFile f (some { o with off := o.off + BitVec.ofNat 32 data.length }))) :
    swp pid (sysRead fd buf len) Q t := by
  rintro a ⟨D, h0⟩
  obtain ⟨hf, hshow⟩ := h0.file f o hfd.file
  have hip := hshow.opens.inum ▸ h0.start.refers_of_base hshow.opens.ref
  rw [sysRead, hbuf]
  refine vwp_bind (h0.vwp_inodeFile hfd (vwp_bind (vwp_bind (vwp_readFile ?_))))
  rw [hshow.readable, hreadable]
  rw [if_neg nofun, if_pos hshow.type]
  refine vwp_bind (h0.start.lock hip (Finset.notMem_empty _) (by rw [hn]; exact nofun)
    fun b hb _ => ?_)
  have hfile : b.file f = a.file f := by rw [hb.tables_eq.1]
  have hip' := hshow.opens.inum ▸ hb.refers_of_base hshow.opens.ref
  refine vwp_bind (vwp_readFile (vwp_bind (hb.read ?_ ?_ hn htype ?_ ?_ ?_)))
  · rwa [hfile]
  · rw [hfile]
    exact Finset.mem_insert_self _ _
  · rwa [hfile, hshow.off]
  · rwa [hfile, hshow.off]
  rw [hfile, hshow.off]
  refine vwp_advance (vwp_bind ((hb.seek f _).unlock (Finset.mem_insert_self _ _)
    fun b' hb' _ _ => ?_))
  rw [hfile, hshow.off, insert_empty_eq, Finset.erase_singleton] at hb'
  exact vwp_pure (vwp_pure ⟨_, hb'.resting_seek h0 rfl hfd.file h0.alloc le_rfl, hQ _ rfl⟩)

theorem update_ne_none {N : Nat → Option Node} {j : Nat} (hj : N j ≠ none) :
    update N i (some n) j ≠ none := by
  rcases eq_or_ne j i with rfl | hne
  · rw [update_self]
    exact nofun
  · rwa [update_of_ne hne]

/-- The open file behind what was read or written. -/
def OpenFile.advance (o : OpenFile) (len : Nat) : OpenFile :=
  { o with off := o.off + BitVec.ofNat 32 len }

/-- The blocks of an open file that a write goes to, as inodes and slots. -/
def OpenFile.slots (o : OpenFile) (len : Nat) : Finset (Nat × Nat) :=
  (slotsIn o.off.toNat len).image (Prod.mk o.ino)

/-- The tree after a write to an open file, with the node that it had. -/
def FileTree.write (t : FileTree) (f : Nat) (o : OpenFile) (n : Node)
    (src : List Byte) : FileTree :=
  { t.setFile f (some (o.advance src.length)) with
    node := update t.node o.ino (some { n with bytes := spliceAt n.bytes o.off.toNat src })
    spare := t.spare - lacking t.node (o.slots src.length) }

/-- An open file of the node `n` can be written at its offset. -/
structure FileTree.CanWrite (t : FileTree) (o : OpenFile) (n : Node) (len : Nat) : Prop where
  node : t.node o.ino = some n
  type : n.type ≠ tDev
  off : o.off.toNat ≤ n.bytes.length
  max : o.off.toNat + len ≤ maxFile * bSize
  spare : lacking t.node (o.slots len) ≤ t.spare

/-- A turn of the loop of `file_write`. -/
theorem swp_writeTurn {β : Type} {src : List Byte} {next : Option Nat → Fs β}
    {Q : β → FileTree → Prop} (ho : t.file f = some o) (hw : t.CanWrite o n src.length)
    (hlen : src.length ≤ fileWriteMax)
    (hnext : swp pid (next (some src.length)) Q (t.write f o n src)) :
    swp pid (writeTurn f src next) Q t := by
  rintro a ⟨D, h0⟩
  obtain ⟨hf, hshow⟩ := h0.file f o ho
  have hcard : (o.slots src.length).card ≤ 5 := Finset.card_image_le.trans (card_slotsIn_le hlen)
  have hpair := Finset.card_le_two (a := (superOf a.bufs.data).bitmapStart) (b := iblock o.ino)
  have hs : Session a a t.node ⟨{(superOf a.bufs.data).bitmapStart, iblock o.ino},
    o.slots src.length,
      t.spare - lacking t.node (o.slots src.length), false⟩ [] ∅ :=
    h0.session (Finset.mem_insert_self _ _) (Nat.add_le_add hpair hcard)
    (Nat.sub_add_cancel hw.spare).le rfl
  refine vwp_bind (hs.begin rfl fun b₁ h₁ _ _ => ?_)
  have hfile₁ : b₁.file f = a.file f := by rw [h₁.tables_eq.1]
  have hip₁ := h₁.refers_of_base hshow.opens.ref
  rw [hshow.opens.inum] at hip₁
  refine vwp_bind (vwp_readFile ?_)
  rw [hfile₁]
  refine vwp_bind (h₁.lock hip₁ (Finset.notMem_empty _) (by rw [hw.node]; exact nofun)
    fun b₂ h₂ _ => ?_)
  have hfile₂ : b₂.file f = a.file f := by rw [h₂.tables_eq.1]
  have hip₂ := h₂.refers_of_base hshow.opens.ref
  rw [hshow.opens.inum] at hip₂
  refine vwp_bind (vwp_readFile ?_)
  rw [hfile₂, hshow.off]
  refine vwp_bind (h₂.write hip₂ (Finset.mem_insert_self _ _) hw.node hw.type hw.off hw.max
    rfl (Finset.mem_insert_of_mem (Finset.mem_singleton_self _)) subset_rfl fun b₃ h₃ => ?_)
  have hfile₃ : b₃.file f = a.file f := by rw [h₃.tables_eq.1]
  refine vwp_advance (vwp_bind ((h₃.seek f _).unlock (Finset.mem_insert_self _ _)
    fun b₄ h₄ _ _ => ?_))
  rw [hfile₃, hshow.off, insert_empty_eq, Finset.erase_singleton] at h₄
  exact vwp_bind (h₄.commit fun b₅ h₅ =>
    hnext b₅ (h₅.resting_seek h0 rfl ho (fun j hj => update_ne_none (h0.alloc j hj)) le_rfl))

/-- The slots of an inode that are not for blocks of its contents. -/
theorem lacking_image {N : Nat → Option Node} (hn : N i = some n) (W : Finset Nat) :
    lacking N (W.image (Prod.mk i)) = (W \ slotsIn 0 n.bytes.length).card := by
  rw [lacking, Finset.filter_image, Finset.card_image_of_injective _ (Prod.mk_right_injective i)]
  congr 1
  ext k
  simp [hn]

theorem FileTree.Has.write {src : List Byte} (h : t.Has pid fd f o) :
    (t.write f o n src).Has pid fd f (o.advance src.length) :=
  ⟨h.lt, h.desc, update_self _ _ _⟩

theorem FileTree.write_nil (ho : t.file f = some o) (hn : t.node o.ino = some n) :
    t.write f o n [] = t := by
  have hslots : slotsIn o.off.toNat 0 = ∅ := by simp [slotsIn]
  rw [write, lacking, OpenFile.slots, List.length_nil, hslots]
  simp [FileTree.setFile, OpenFile.advance, spliceAt, ← ho, ← hn]

/-- The blocks that a write needs, when it is made in two parts. -/
theorem FileTree.lacking_write (src : List Byte) {k : Nat} (hn : t.node o.ino = some n)
    (hoff : o.off.toNat ≤ n.bytes.length) (hmax : o.off.toNat + src.length < 2 ^ 32) :
    lacking t.node (o.slots src.length) +
      lacking (t.write f o n src).node ((o.advance src.length).slots k) =
        lacking t.node (o.slots (src.length + k)) := by
  have hoff' : (o.advance src.length).off.toNat = o.off.toNat + src.length := toNat_add_ofNat hmax
  have hnode : (t.write f o n src).node (o.advance src.length).ino =
      some { n with bytes := spliceAt n.bytes o.off.toNat src } := update_self _ _ _
  -- the first part fills the slots from the offset on
  have hfilled : slotsIn 0 (max n.bytes.length (o.off.toNat + src.length)) =
      slotsIn 0 n.bytes.length ∪ slotsIn o.off.toNat src.length := by
    rcases Nat.le_total (o.off.toNat + src.length) n.bytes.length with hle | hle
    · rw [Nat.max_eq_left hle,
        Finset.union_eq_left.2 (slotsIn_subset (Nat.zero_le _) (by omega))]
    · have hold : slotsIn 0 o.off.toNat ⊆ slotsIn 0 n.bytes.length :=
        slotsIn_subset le_rfl (by omega)
      have hnew : slotsIn 0 n.bytes.length ⊆ slotsIn 0 (o.off.toNat + src.length) :=
        slotsIn_subset le_rfl (by omega)
      rw [slotsIn_add, Nat.zero_add] at hnew
      rw [Nat.max_eq_right hle, slotsIn_add, Nat.zero_add]
      exact Finset.Subset.antisymm (Finset.union_subset_union_left hold)
        (Finset.union_subset hnew Finset.subset_union_right)
  rw [OpenFile.slots, OpenFile.slots, OpenFile.slots, lacking_image hn, lacking_image hn,
    lacking_image hnode, length_spliceAt hoff, hfilled, hoff', slotsIn_add,
    ← Finset.card_union_of_disjoint]
  · congr 1
    ext k
    simp only [Finset.mem_union, Finset.mem_sdiff]
    tauto
  · refine Finset.disjoint_left.2 fun k hk hk' => ?_
    simp only [Finset.mem_union, Finset.mem_sdiff] at hk hk'
    tauto

/-- A write in two parts. -/
theorem FileTree.write_append {src src' : List Byte} (hn : t.node o.ino = some n)
    (hoff : o.off.toNat ≤ n.bytes.length) (hmax : o.off.toNat + src.length < 2 ^ 32) :
    (t.write f o n src).write f (o.advance src.length)
      { n with bytes := spliceAt n.bytes o.off.toNat src } src' = t.write f o n (src ++ src') := by
  have hoff' : (o.off + BitVec.ofNat 32 src.length).toNat = o.off.toNat + src.length :=
    toNat_add_ofNat hmax
  have hspare := lacking_write src (f := f) (k := src'.length) hn hoff hmax
  rw [← List.length_append] at hspare
  simp only [write, OpenFile.advance] at hspare ⊢
  rw [← hspare]
  simp only [FileTree.setFile, update_idem, hoff', spliceAt_append hoff, List.length_append,
    BitVec.ofNat_add, BitVec.add_assoc, Nat.sub_sub]

/-- The loop of `file_write`. -/
theorem swp_fileWriteFrom {src : List Byte} {turns : Nat} {Q : Bool → FileTree → Prop}
    (ho : t.file f = some o) (hw : t.CanWrite o n src.length) (hturns : src.length ≤ turns)
    (hQ : Q true (t.write f o n src)) : swp pid (fileWriteFrom f turns src) Q t := by
  induction turns generalizing src t o n with
  | zero =>
    obtain rfl : src = [] := List.eq_nil_of_length_eq_zero (by omega)
    rw [FileTree.write_nil ho hw.node] at hQ
    exact swp_pure hQ
  | succ turns ih =>
    rw [fileWriteFrom_succ]
    split_ifs with hnil
    · obtain rfl : src = [] := List.eq_nil_of_length_eq_zero hnil
      rw [FileTree.write_nil ho hw.node] at hQ
      exact swp_pure hQ
    -- the part that this turn writes, and the rest
    obtain ⟨hn, htype, hoff, hmax, hspare⟩ := hw
    obtain ⟨m, hm⟩ : ∃ m, min src.length fileWriteMax = m := ⟨_, rfl⟩
    have hmpos : 0 < m ∧ m ≤ src.length ∧ m ≤ fileWriteMax := by
      rw [show fileWriteMax = 1536 from rfl] at hm ⊢
      omega
    have htake : (src.take m).length = m := List.length_take_of_le hmpos.2.1
    have hdrop : (src.drop m).length = src.length - m := List.length_drop
    have hlong : maxFile * bSize < 2 ^ 32 := by decide
    have hneed := FileTree.lacking_write (src.take m) (f := f)
      (k := (src.drop m).length) hn hoff (by omega)
    rw [← List.length_append, List.take_append_drop] at hneed
    rw [hm]
    refine swp_writeTurn ho ⟨hn, htype, hoff, by omega, by omega⟩ (by omega) ?_
    rw [writeNext, if_neg (not_not.2 (htake.trans hm.symm)), htake]
    have hoff' : (o.advance (src.take m).length).off.toNat = o.off.toNat + (src.take m).length :=
      toNat_add_ofNat (by omega)
    refine ih (o := o.advance (src.take m).length) FileTree.setFile_self
      ⟨update_self _ _ _, htype, ?_, by omega, ?_⟩ (by omega) ?_
    · rw [hoff', length_spliceAt hoff]
      exact Nat.le_max_right _ _
    · show _ ≤ t.spare - lacking t.node (o.slots (src.take m).length)
      omega
    · rw [FileTree.write_append hn hoff (by omega), List.take_append_drop]
      exact hQ

/-- `sys_write` to an open file. -/
theorem swp_sysWrite {src : List Byte} {fsbuf : Nat → Byte}
    (hbuf : checkBuf buf len buflenMax = true) (hsrc : (List.range len.toNat).map fsbuf = src)
    (hfd : t.Has pid fd f o) (hwritable : o.writable = true) (hw : t.CanWrite o n src.length)
    (hQ : Q (.val .succ src.length) (t.write f o n src)) :
    swp pid (sysWrite fd buf len fsbuf) Q t := by
  have hloop : swp pid (fileWriteFrom f src.length src)
      (fun r t' => r = true ∧ t' = t.write f o n src) t :=
    swp_fileWriteFrom hfd.file hw le_rfl ⟨rfl, rfl⟩
  intro a ha
  obtain ⟨D, h0⟩ := id ha
  obtain ⟨hf, hshow⟩ := h0.file f o hfd.file
  rw [sysWrite, hbuf, hsrc]
  refine vwp_bind (h0.vwp_inodeFile hfd (vwp_bind (vwp_bind (vwp_readFile ?_))))
  rw [hshow.writable, hwritable, if_neg nofun, if_pos hshow.type]
  refine vwp_bind (vwp_mono (hloop a ha) ?_)
  rintro _ a' ⟨_, ha', rfl, rfl⟩
  exact vwp_pure (vwp_pure ⟨_, ha', hQ⟩)

/-- The nodes after a reference to the inode `i` with the node `n` has been dropped. -/
def FileTree.nodePut (t : FileTree) (i : Nat) (n : Node) : Nat → Option Node :=
  if t.ref i = 1 ∧ n.nlink = 0 then update t.node i none else t.node

/-- The tree after an open file has been closed, with the node that it had. -/
def FileTree.close (t : FileTree) (pid fd f : Nat) (o : OpenFile) (n : Node) : FileTree :=
  { (t.setFile f none).setDesc pid fd none with node := t.nodePut o.ino n }

theorem FileTree.nodePut_ne_none (hf : f < nFile) (ho : t.file f = some o)
    (hall : ∀ j, t.ref j ≠ 0 → t.node j ≠ none) {j : Nat} (hj : (t.setFile f none).ref j ≠ 0) :
    t.nodePut o.ino n j ≠ none := by
  have hset := FileTree.ref_setFile (t := t) (o := none) (i := j) hf
  simp only [ho, Option.map_some, Option.some.injEq, Option.map_none, reduceCtorEq,
    if_false] at hset
  rw [FileTree.nodePut]
  split_ifs with hlast
  · rcases eq_or_ne o.ino j with rfl | hne
    · rw [if_pos rfl, hlast.1] at hset
      omega
    · rw [update_of_ne hne.symm]
      exact hall j (by omega)
  · exact hall j (by omega)

/-- `sys_close` of an open file without a lock. -/
theorem swp_sysClose (hfd : t.Has pid fd f o) (hn : t.node o.ino = some n) (hflock : o.flock = 0)
    (hQ : Q (.val .succ 0) (t.close pid fd f o n)) : swp pid (sysClose fd) Q t := by
  rintro a ⟨D, h0⟩
  obtain ⟨hf, hshow⟩ := h0.file f o hfd.file
  have hip : a.Refers (a.file f).ip o.ino := ⟨hshow.opens.ref, hshow.opens.inum⟩
  have hdrop : a.fileDrop f = .ok (some { a.file f with ref := 0 })
      { a with file := update a.file f { a.file f with ref := 0, type := .none } } := by
    rw [FsState.fileDrop, hshow.ref]
    rfl
  refine vwp_ite (fun hrange => absurd ⟨Int.natCast_nonneg fd, Int.ofNat_lt.2 hfd.lt⟩ hrange)
    fun _ => ?_
  refine vwp_bind (vwp_mem (o := .getOpenfile fd) trivial ?_)
  simp only [fsHandler, Outcome.Sat, h0.openfiles, hfd.desc]
  refine vwp_bind (vwp_readFile ?_)
  rw [hshow.ref, if_neg (by decide)]
  refine vwp_bind (vwp_bind (vwp_mem (o := .fileDrop f) trivial ?_))
  simp only [fsHandler, hdrop, Outcome.Sat]
  rw [if_pos hshow.type, if_neg (not_not.2 (hshow.flock.trans hflock))]
  obtain ⟨a₀, hs, hcounts, hsuper, hcwd, hothers⟩ :=
    h0.drop hfd.file { a.file f with ref := 0, type := .none }
  refine vwp_bind (hs.begin rfl fun b₁ h₁ _ hinode => ?_)
  refine vwp_bind (h₁.release (List.mem_singleton_self _) (Finset.notMem_empty _) hn
    (by rw [hinode]; exact hshow.opens.valid)
    rfl (Finset.mem_insert_of_mem (Finset.mem_singleton_self _)) (by simp) fun b₂ h₂ =>
    h₂.commit fun b₃ h₃ => ?_)
  have hnode : (if (b₁.inode (a.file f).ip).ref = 1 ∧ n.nlink = 0 then
    update t.node o.ino none else t.node) =
      t.nodePut o.ino n := by
    rw [FileTree.nodePut]
    simp only [hinode, h0.counts.ref _ hip.ref, hip.inum, Nat.cast_eq_one]
  rw [hnode, List.erase_cons_head] at h₃
  have htab := h₃.tables_eq
  have htab₀ := hs.tables_eq
  have hopen : update b₃.openfiles pid (update (b₃.openfiles pid) fd none) =
      (t.close pid fd f o n).openfiles := by
    rw [htab.2, ← htab₀.2]
    dsimp only
    rw [h0.openfiles]
    rfl
  have hrest : Resting pid { b₃ with
      openfiles := update b₃.openfiles pid (update (b₃.openfiles pid) fd none) }
      { t.setFile f none with
        node := t.nodePut o.ino n, spare := t.spare, openfiles :=
          (t.close pid fd f o n).openfiles } := by
    refine (h₃.tables b₃.file _).resting_file (r := (t.setFile f none).ref) h0
      rfl (hcounts.tables _ _) (fun j => (Nat.add_zero ((t.setFile f none).ref j)).symm)
      (fun j hj => FileTree.nodePut_ne_none hf hfd.file h0.alloc hj) hsuper le_rfl
      hf (htab.1.trans htab₀.1.symm) (fun _ => rfl) (by simp)
      (fun f' o' hne ho' => (hothers f' o' hne ho').tables _ _) hopen ⟨hcwd.ref, hcwd.inum⟩
  refine vwp_bind (vwp_mem (o := .setOpenfile fd none) trivial ?_)
  simp only [fsHandler, Outcome.Sat]
  exact vwp_pure ⟨_, hrest, hQ⟩

end

end MCertikos
