import MCertikos.Fs.FileCalls

/-!
# System calls on directories

What `sys_mkdir` and `sys_open` with `O_CREATE` do to a file tree.
-/

namespace MCertikos

open Program Ownership Function

/-! ## Blocks of directories -/

/-- The blocks of an entry of the directory `d`, as inodes and slots. -/
def entrySlots (d k : Nat) : Finset (Nat × Nat) :=
  (slotsOf (Dirent.size * k / bSize)).image (Prod.mk d)

section
variable {N : Nat → Option Node} {d k : Nat} {nd : Node}

theorem card_entrySlots_le : (entrySlots d k).card ≤ 2 := by
  refine Finset.card_image_le.trans ?_
  rw [slotsOf]
  split
  · exact (Finset.card_singleton _).trans_le (by decide)
  · exact Finset.card_le_two

theorem fst_of_mem_entrySlots {s : Nat × Nat} (hs : s ∈ entrySlots d k) : s.1 = d := by
  obtain ⟨_, -, rfl⟩ := Finset.mem_image.1 hs
  rfl

theorem lacking_congr {N' : Nat → Option Node} {W : Finset (Nat × Nat)}
    (h : ∀ s ∈ W, N' s.1 = N s.1) :
    lacking N' W = lacking N W := by
  rw [lacking, lacking]
  congr 1
  refine Finset.filter_congr fun s hs => ?_
  rw [h s hs]

theorem lacking_union_le {W W' : Finset (Nat × Nat)} :
    lacking N (W ∪ W') ≤ W.card + lacking N W' := by
  rw [lacking, Finset.filter_union]
  exact (Finset.card_union_le _ _).trans (Nat.add_le_add_right (Finset.card_filter_le _ _) _)

end

section
variable {pid d i k dp : Nat} {t : FileTree} {nd n : Node} {buf len : BitVec 32}
  {bytes c : List Byte} {cs : List (List Byte)} {a b : FsState Vol} {N : Nat → Option Node}
  {B : Budget} {Q : SysRet → FileTree → Prop} {type : BitVec 16}

/-! ## `create` -/

/-- `inode_unlockput` of the first one of two inodes. -/
theorem Session.unlockputFirst {ip : Nat} {Q : Unit → FsState Vol → Prop}
    (h : Session a b N B [(ip, i), (dp, d)] {ip, dp}) (hne : i ≠ d) (hd : N d = some nd)
    (hlive : nd.nlink ≠ 0 ∨ ∃ e, a.Refers e d)
    (hQ : ∀ b', Session a b' N B [(ip, i)] {ip} → Q () b') :
    vwp .strict pid (inodeUnlockput dp) Q b := by
  have hdp : (dp, d) ∈ [(ip, i), (dp, d)] := List.mem_cons_of_mem _ (List.mem_singleton_self _)
  have hdiff : ip ≠ dp := by
    rintro rfl
    exact hne ((h.refers List.mem_cons_self).inum.symm.trans (h.refers hdp).inum)
  have hxs : [(ip, i), (dp, d)].erase (dp, d) = [(ip, i)] := by
    rw [List.erase_cons_tail (by simpa using fun hip => absurd hip hdiff), List.erase_cons_head]
  have hL : ({ip, dp} : Finset Nat).erase dp = {ip} := by
    rw [Finset.pair_comm, Finset.erase_insert (by simpa using hdiff.symm)]
  rw [← hxs, ← hL] at hQ
  exact h.unlockput hdp (by simp) hd hlive hQ

/-- A new directory, with its entries for itself and its parent. -/
def Node.newDir (i d : Nat) : Node :=
  (Node.setEntry ⟨tDir, 1, []⟩ 0 ⟨BitVec.ofNat 16 i, padName [46]⟩).setEntry
    1 ⟨BitVec.ofNat 16 d, padName [46, 46]⟩

/-- What `create` makes. -/
def Node.new (type : BitVec 16) (i d : Nat) : Node :=
  if type = tDir then newDir i d else ⟨type, 1, []⟩

/-- The nodes after `create` has made the inode `i` in the directory `d`. -/
def nodesCreate (N : Nat → Option Node) (type : BitVec 16) (d : Nat) (nd : Node)
    (c : List Byte) (i : Nat) :
    Nat → Option Node :=
  update (update N i (some (.new type i d))) d (some { nd.setEntry nd.free
    ⟨BitVec.ofNat 16 i, padName c⟩ with nlink := if type = tDir then nd.nlink + 1 else nd.nlink })

/-- The end of `create`: the entry for the new inode is made. -/
theorem Session.createEnd {ip : Nat} {Q : Nat → FsState Vol → Prop}
    (h : Session a b N B [(ip, i), (dp, d)] {ip, dp}) (hne : i ≠ d) (hd : N d = some nd)
    (hdir : nd.type = tDir) (hwhole : nd.Whole) (hname : nd.find c = none)
    (hroom : 3 ≤ freeEntries a) (hmax : Dirent.size * nd.free + Dirent.size ≤ maxFile * bSize)
    (htrans : B.trans = true) (hU : iblock d ∈ B.sectors) (hW : entrySlots d nd.free ⊆ B.slots)
    (hlive : nd.nlink ≠ 0 ∨ ∃ e, a.Refers e d)
    (hQ : ∀ b', Session a b'
      (update N d (some (nd.setEntry nd.free ⟨BitVec.ofNat 16 i, padName c⟩))) B
      [(ip, i)] {ip} → Q ip b') :
    vwp .strict pid (do
      if !(← dirLink dp c i) then
        kernPanic .createLink
      inodeUnlockput dp
      return ip) Q b := by
  have hdp : (dp, d) ∈ [(ip, i), (dp, d)] := List.mem_cons_of_mem _ (List.mem_singleton_self _)
  refine vwp_bind (h.link (h.refers hdp) (by simp) hd hdir hwhole hname hroom hmax htrans hU hW
    fun b₁ h₁ => ?_)
  exact vwp_ite nofun fun _ => vwp_bind (h₁.unlockputFirst hne (update_self _ _ _) hlive
    fun b₂ h₂ => vwp_pure (hQ b₂ h₂))

/-- The entries of a new directory are made. -/
theorem Session.createDots {ip : Nat} {β : Type} {q : Fs β} {Q : β → FsState Vol → Prop}
    {L : Finset Nat} (h : Session a b N B [(ip, i), (dp, d)] L) (hL : ip ∈ L) (hpos : 0 < i)
    (hi : i < 2 ^ 16) (hn : N i = some ⟨tDir, 1, []⟩) (hroom : 3 ≤ freeEntries a)
    (htrans : B.trans = true) (hU : iblock i ∈ B.sectors) (hW : (i, 0) ∈ B.slots)
    (hq : ∀ b', Session a b' (update N i (some (.newDir i d))) B [(ip, i), (dp, d)] L →
      vwp .strict pid q Q b') :
    vwp .strict pid (do
      if !(← dirLink ip [46] i) then
        kernPanic .createDots
      if !(← dirLink ip [46, 46] d) then
        kernPanic .createDots
      q) Q b := by
  have hip : (ip, i) ∈ [(ip, i), (dp, d)] := List.mem_cons_self
  have hW' : ∀ k, k < 2 → (slotsOf (Dirent.size * k / bSize)).image (Prod.mk i) ⊆ B.slots := by
    intro k hk
    rw [show Dirent.size * k / bSize = 0 by rw [Dirent.size, bSize]; omega]
    exact Finset.singleton_subset_iff.2 hW
  have hwhole : (Node.mk tDir 1 []).Whole := rfl
  have hcount : (Node.mk tDir 1 []).count = 0 := rfl
  -- The directory is empty at first, and has one entry when the second one is made.
  have hlen : (padName [46]).length = dirSiz := length_padName
  have hwhole' : (Node.setEntry ⟨tDir, 1, []⟩ 0 ⟨BitVec.ofNat 16 i, padName [46]⟩).Whole :=
    Node.whole_setEntry hwhole (Nat.zero_le _) hlen
  have hcount' : (Node.setEntry ⟨tDir, 1, []⟩ 0 ⟨BitVec.ofNat 16 i, padName [46]⟩).count = 1 :=
    Node.count_setEntry hwhole (Nat.zero_le _) hlen
  have hfree' : (Node.setEntry ⟨tDir, 1, []⟩ 0 ⟨BitVec.ofNat 16 i, padName [46]⟩).free = 1 := by
    refine Node.isFirst_free.unique ⟨hcount'.ge, fun hlt => ?_, fun j hj => ?_⟩
    · rw [hcount'] at hlt
      exact absurd hlt (lt_irrefl 1)
    · obtain rfl : j = 0 := by omega
      rw [Node.entry_setEntry hwhole (Nat.zero_le _) hlen, if_pos rfl]
      intro h0
      have := congrArg BitVec.toNat h0
      rw [BitVec.toNat_ofNat, Nat.mod_eq_of_lt hi] at this
      exact absurd this hpos.ne'
  refine vwp_bind (h.link (h.refers hip) hL hn rfl hwhole rfl hroom (by decide) htrans
    hU (hW' 0 (by decide)) fun b₁ h₁ => vwp_ite (fun hc => by cases hc) fun _ => ?_)
  refine vwp_bind (h₁.link (h₁.refers hip) hL (update_self _ _ _) rfl hwhole' ?_
    hroom ?_ htrans hU ?_ fun b₂ h₂ => vwp_ite (fun hc => by cases hc) fun _ => hq b₂ ?_)
  · refine Node.find_setEntry_eq_none hwhole (Nat.zero_le _) hlen ?_ fun j hj =>
      absurd hj (Nat.not_lt_zero j)
    rintro ⟨hcmp, -⟩
    rw [dirNamecmp_padName] at hcmp
    exact absurd hcmp (by decide)
  · rw [show (Node.mk tDir 1 []).free = 0 from rfl, hfree']
    decide
  · rw [show (Node.mk tDir 1 []).free = 0 from rfl, hfree']
    exact hW' 1 (by decide)
  · rw [update_idem, show (Node.mk tDir 1 []).free = 0 from rfl, hfree'] at h₂
    exact h₂

/-- The blocks that `create` writes, apart from those of inodes. -/
def newSlots (type : BitVec 16) (i d k : Nat) : Finset (Nat × Nat) :=
  (if type = tDir then {(i, 0)} else ∅) ∪ entrySlots d k

/-- The number of blocks that `create` allocates. -/
def blocksNew (N : Nat → Option Node) (type : BitVec 16) (d k : Nat) : Nat :=
  (if type = tDir then 1 else 0) + lacking N (entrySlots d k)

theorem card_newSlots_le : (newSlots type i d k).card ≤ 3 := by
  refine (Finset.card_union_le _ _).trans (Nat.add_le_add ?_ card_entrySlots_le)
  split
  · exact (Finset.card_singleton _).le
  · exact Nat.zero_le 1

theorem lacking_newSlots_le (hne : i ≠ d) {x : Option Node} :
    lacking (update N i x) (newSlots type i d k) ≤ blocksNew N type d k := by
  have hsame : lacking (update N i x) (entrySlots d k) = lacking N (entrySlots d k) :=
    lacking_congr fun s hs => update_of_ne ((fst_of_mem_entrySlots hs).trans_ne hne.symm) _ _
  rw [blocksNew, ← hsame]
  refine lacking_union_le.trans (Nat.add_le_add_right ?_ _)
  split
  · exact (Finset.card_singleton _).le
  · exact le_rfl

/-- `create` in a directory that is locked. -/
theorem Session.createIn {s : Nat} {major minor : BitVec 16} {Q : Nat → FsState Vol → Prop}
    (h : Session a b N B [(dp, d)] {dp}) (htrans : B.trans = true) (hempty : b.log.n = 0)
    (hroom : 3 ≤ freeEntries a) (htype : type ≠ 0) (hd : N d = some nd) (hdir : nd.type = tDir)
    (hwhole : nd.Whole) (hname : nd.find c = none)
    (hmax : Dirent.size * nd.free + Dirent.size ≤ maxFile * bSize)
    (hlive : (if type = tDir then nd.nlink + 1 else nd.nlink) ≠ 0 ∨ ∃ e, a.Refers e d)
    (hsmall : (superOf a.bufs.data).ninodes.toNat ≤ 2 ^ 16)
    (hinode : ∃ i, 0 < i ∧ i < (superOf a.bufs.data).ninodes.toNat ∧ N i = none)
    (hspare : s + blocksNew N type d nd.free ≤ B.reserve)
    (hQ : ∀ i ip b' B', Session a b' (nodesCreate N type d nd c i) B' [(ip, i)] {ip} →
      B'.trans = true →
      B'.reserve = s → 0 < i → i < (superOf a.bufs.data).ninodes.toNat → N i = none → Q ip b') :
    vwp .strict pid (MCertikos.createIn dp c type major minor) Q b := by
  refine vwp_bind (vwp_readInode ?_)
  rw [(h.din (h.refers (List.mem_singleton_self _)) (Finset.mem_singleton_self _) hd).2.2.2]
  refine vwp_bind (h.alloc htrans hempty (lt_of_lt_of_le (show 1 < 3 by decide) hroom) htype hinode
    fun i ip b₁ hpos hlt hnone h₁ hsec => ?_)
  have hne : i ≠ d := by
    rintro rfl
    rw [hd] at hnone
    cases hnone
  have hip : (ip, i) ∈ [(ip, i), (dp, d)] := List.mem_cons_self
  have hdp : (dp, d) ∈ [(ip, i), (dp, d)] := List.mem_cons_of_mem _ (List.mem_singleton_self _)
  have hdiff : ip ≠ dp := by
    rintro rfl
    exact hne ((h₁.refers hip).inum.symm.trans (h₁.refers hdp).inum)
  -- The number of the inode is known now, and with it the sectors that are written.
  have h₂ : Session a b₁ (update N i (some ⟨type, 0, []⟩))
      ⟨{(superOf a.bufs.data).bitmapStart, iblock i, iblock d}, newSlots type i d nd.free, s, true⟩
      [(ip, i), (dp, d)] {dp} := by
    refine h₁.regrow ?_ (Finset.mem_insert_self _ _) ?_ ?_ rfl
    · rw [hsec]
      exact Finset.singleton_subset_iff.2 (by simp)
    · have hthree :=
        Finset.card_le_three (a := (superOf a.bufs.data).bitmapStart) (b := iblock i)
          (c := iblock d)
      have hslots : (newSlots type i d nd.free).card ≤ 3 := card_newSlots_le
      exact (Nat.add_le_add hthree hslots).trans (by decide)
    · exact (Nat.add_le_add_left (lacking_newSlots_le hne) s).trans hspare
  refine vwp_bind (h₂.lock (h₂.refers hip) (by simpa using hdiff)
    (by rw [update_self]; exact nofun) fun b₃ h₃ _ => vwp_bind (vwp_readInode ?_))
  refine h₃.setInode (h₃.refers hip) (Finset.mem_insert_self _ _) (update_self _ _ _)
    rfl (by simp) rfl rfl rfl fun b₄ h₄ => ?_
  rw [update_idem] at h₄
  rw [(h₃.refers hip).inum]
  have hd₄ : update N i (some ⟨type, 1, []⟩) d = some nd := by rw [update_of_ne hne.symm, hd]
  have hL : ip ∈ insert ip ({dp} : Finset Nat) := Finset.mem_insert_self _ _
  replace hQ := hQ i ip
  refine vwp_ite (fun hdirType => ?_) fun hfile => ?_
  · refine vwp_bind (vwp_readInode ?_)
    rw [(h₄.refers hdp).inum]
    refine h₄.setInode (h₄.refers hdp) (by simp) hd₄ rfl (by simp) rfl rfl rfl fun b₅ h₅ => ?_
    rw [(h₄.din (h₄.refers hdp) (by simp) hd₄).2.1] at h₅
    have hn₅ : update (update N i (some ⟨type, 1, []⟩))
      d (some { nd with nlink := nd.nlink + 1 }) i =
        some ⟨tDir, 1, []⟩ := by
      rw [update_of_ne hne, update_self, hdirType]
    refine h₅.createDots hL hpos (hlt.trans_le hsmall) hn₅ hroom rfl (by simp) ?_ fun b₆ h₆ => ?_
    · rw [newSlots, if_pos hdirType]
      exact Finset.mem_union_left _ (Finset.mem_singleton_self _)
    · rw [update_comm hne.symm, update_idem] at h₆
      rw [if_pos hdirType] at hlive
      refine h₆.createEnd hne (update_self _ _ _) hdir hwhole hname hroom hmax rfl (by simp)
        Finset.subset_union_right hlive fun b₇ h₇ => ?_
      rw [update_idem] at h₇
      rw [nodesCreate, Node.new, if_pos hdirType, if_pos hdirType] at hQ
      exact hQ b₇ _ h₇ rfl rfl hpos hlt hnone
  · rw [if_neg hfile] at hlive
    refine h₄.createEnd hne hd₄ hdir hwhole hname hroom hmax rfl (by simp)
      Finset.subset_union_right hlive fun b₇ h₇ => ?_
    rw [nodesCreate, Node.new, if_neg hfile, if_neg hfile] at hQ
    exact hQ b₇ _ h₇ rfl rfl hpos hlt hnone

/-- The path is for a new name `c` in the directory `d`, and an inode can be made there. -/
structure FileTree.CanCreate (t : FileTree) (type : BitVec 16) (path : List Byte)
    (cs : List (List Byte)) (c : List Byte) (d : Nat) (nd : Node) : Prop where
  start : t.Alive (t.start path)
  components : components path = cs ++ [c]
  leads : t.Leads (t.start path) cs d
  node : t.node d = some nd
  dir : nd.type = tDir
  whole : nd.Whole
  fresh : nd.find c = none
  max : Dirent.size * nd.free + Dirent.size ≤ maxFile * bSize
  live : (if type = tDir then nd.nlink + 1 else nd.nlink) ≠ 0 ∨ t.ref d ≠ 0
  small : t.ninodes ≤ 2 ^ 16
  inode : ∃ i, 0 < i ∧ i < t.ninodes ∧ t.node i = none
  spare : blocksNew t.node type d nd.free ≤ t.spare
  room : t.Room 3

/-- The tree after `create` has made the inode `i`. -/
def FileTree.create (t : FileTree) (type : BitVec 16) (d : Nat) (nd : Node) (c : List Byte)
    (i : Nat) : FileTree :=
  { t with node := nodesCreate t.node type d nd c i, spare :=
    t.spare - blocksNew t.node type d nd.free }

/-- `create` makes a node if there is room. -/
theorem RestingAt.create {D : Nat → Dinode} {path : List Byte} {major minor : BitVec 16}
    {Q : Option Nat → FsState Vol → Prop} (h0 : RestingAt pid a D t)
    (h : Session a b t.node B [] ∅) (htrans : B.trans = true) (hempty : b.log.n = 0)
    (hreserve : B.reserve = t.spare) (htype : type ≠ 0) (hc : t.CanCreate type path cs c d nd)
    (hQ : ∀ i ip b' B', Session a b' (nodesCreate t.node type d nd c i) B' [(ip, i)] {ip} →
      B'.trans = true →
      B'.reserve = t.spare - blocksNew t.node type d nd.free → 0 < i → i < t.ninodes →
      t.node i = none → Q (some ip) b') :
    vwp .strict pid (MCertikos.create path type major minor) Q b := by
  have hroom := h0.le_freeEntries hc.room
  have hd : t.node d ≠ none := by
    rw [hc.node]
    exact nofun
  refine vwp_bind (h.nameiparent (fun i hi => h0.counts.entry i hi) (fun e i he => h0.all he)
    (by omega) h0.cwd hc.start hc.components hc.leads hc.node hc.dir fun dp b₁ h₁ hlog₁ => ?_)
  have hdp : (dp, d) ∈ [(dp, d)] := List.mem_singleton_self _
  refine vwp_bind (h₁.lock (h₁.refers hdp) (Finset.notMem_empty _) hd fun b₂ h₂ hlog₂ => ?_)
  refine vwp_bind (h₂.lookup (h₂.refers hdp) (Finset.mem_insert_self _ _) hc.node hc.dir hc.whole
    (lt_of_lt_of_le (show 1 < 3 by decide) hroom) (fun _ => ?_) fun k ip b' hk => ?_)
  · rw [insert_empty_eq] at h₂
    have hninodes := h0.ninodes
    refine vwp_bind (h₂.createIn (s := t.spare - blocksNew t.node type d nd.free) htrans
      (by rw [hlog₂, hlog₁, hempty]) hroom htype hc.node hc.dir hc.whole hc.fresh hc.max
      (hc.live.imp id fun hr => h0.counts.entry d hr) (hninodes.trans_le hc.small)
      (hninodes ▸ hc.inode) (by rw [hreserve, Nat.sub_add_cancel hc.spare])
      fun i ip b' B' h' htrans' hreserve' hpos hlt hnone => ?_)
    exact vwp_pure (hQ i ip b' B' h' htrans' hreserve' hpos (hninodes ▸ hlt) hnone)
  · rw [hc.fresh] at hk
    cases hk

/-- The inodes in use stay. -/
theorem nodesCreate_ne_none {j : Nat} (hj : N j ≠ none ∨ j = i) :
    nodesCreate N type d nd c i j ≠ none := by
  refine update_ne_none ?_
  rcases hj with hj | rfl
  · exact update_ne_none hj
  · rw [update_self]
    exact nofun

/-- `sys_mkdir` of a new name. -/
theorem swp_sysMkdir (hbuf : checkBuf buf len 128 = true)
    (hc : t.CanCreate tDir (cstring bytes) cs c d nd)
    (hQ : ∀ i, 0 < i → i < t.ninodes → t.node i = none → Q (.err .succ) (t.create tDir d nd c i)) :
    swp pid (sysMkdir buf len bytes) Q t := by
  rintro a ⟨D, h0⟩
  rw [sysMkdir, hbuf]
  refine vwp_bind (h0.start.begin rfl fun b₁ h₁ hempty _ => ?_)
  refine vwp_bind (h0.create h₁ rfl hempty rfl (by decide) hc
    fun i ip b₂ B h₂ htrans hreserve hpos hlt hnone => ?_)
  have hne : i ≠ d := by
    rintro rfl
    rw [hc.node] at hnone
    cases hnone
  have hi : nodesCreate t.node tDir d nd c i i = some (.newDir i d) := by
    rw [nodesCreate, update_of_ne hne, update_self, Node.new, if_pos rfl]
  refine vwp_bind (h₂.unlockput (List.mem_singleton_self _) (Finset.mem_singleton_self _)
    hi (.inl nofun) fun b₃ h₃ => ?_)
  rw [List.erase_cons_head, Finset.erase_singleton] at h₃
  exact vwp_bind (h₃.commit fun b₄ h₄ => vwp_pure ⟨_, h₄.resting_same h0 rfl
    (fun j hj => nodesCreate_ne_none (.inl (h0.alloc j hj))) hreserve.ge, hQ i hpos hlt hnone⟩)

/-- `sys_open` of a new name, with `O_CREATE` and `O_RDWR`. -/
theorem swp_sysOpen_create {fd f : Nat} (hbuf : checkBuf buf len 128 = true)
    (hc : t.CanCreate tFile (cstring bytes) cs c d nd) (hfree : t.Free pid fd f)
    (hQ : ∀ i, 0 < i → i < t.ninodes → t.node i = none → Q (.val .succ fd)
      (((t.create tFile d nd c i).setFile f (some ⟨i, 0, true, true, 0⟩)).setDesc pid fd
        (some f))) :
    swp pid (sysOpen buf (oCreate ||| oRdwr) len bytes) Q t := by
  rintro a ⟨D, h0⟩
  rw [sysOpen, hbuf]
  refine vwp_bind (h0.start.begin rfl fun b₁ h₁ hempty _ => ?_)
  refine vwp_bind (h0.create h₁ rfl hempty rfl (by decide) hc
    fun i ip b₂ B h₂ htrans hreserve hpos hlt hnone => ?_)
  refine vwp_bind (h₂.commit fun b₃ h₃ => ?_)
  have hfile := hfree.file
  have hdesc := hfree.desc
  simp only [← h0.ref_eq_zero_iff] at hfile
  rw [← h0.openfiles] at hdesc
  refine h₃.openInode hfile hdesc fun b' h' hopens hfile hopen =>
    ⟨_, h'.resting_open h0 rfl hfree hfile hopen ⟨rfl, rfl, hopens, rfl, rfl, rfl, rfl⟩
      rfl (fun j hj => nodesCreate_ne_none (.inl (h0.alloc j hj)))
    (nodesCreate_ne_none (.inr rfl)) hreserve.ge, hQ i hpos hlt hnone⟩

end

end MCertikos
