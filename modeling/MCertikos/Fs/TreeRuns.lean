import MCertikos.Fs.TreeCalls

/-!
# Runs of system calls on the file tree

`FileTree.Step` says what each system call of a process does to the file tree, and when it can be
made. A sequence of such calls on a booted file system does what the steps do
(`syscalls_refine_fileTree`). The tree of a disk is `treeOf`.
-/

namespace MCertikos

open Program Function

/-! ## Calls -/

/-- The tree with an open file for the descriptor `fd`, at the entry `f` of the file table. -/
def FileTree.opened (t : FileTree) (pid fd f : Nat) (o : OpenFile) : FileTree :=
  (t.setFile f (some o)).setDesc pid fd (some f)

/-- What a system call does to the file tree and returns. The premises are what the call needs to
succeed: buffers and descriptors that the kernel accepts, paths that lead somewhere, and room in
the tables and on the disk. The inode of a new file may be any that is free. -/
inductive FileTree.Step (pid : Nat) (t : FileTree) : Syscall → SysRet → FileTree → Prop
  | openRead {buf len : BitVec 32} {bytes : List Byte} {i fd f : Nat}
    (hbuf : checkBuf buf len 128 = true) (hroom : t.Room 2)
    (hstart : t.Alive (t.start (cstring bytes)))
    (hlead : t.Leads (t.start (cstring bytes)) (components (cstring bytes)) i)
    (hfree : t.Free pid fd f) :
    Step pid t (.open buf oRdonly len bytes) (.val .succ fd)
      (t.opened pid fd f ⟨i, 0, true, false, 0⟩)
  | openCreate {buf len : BitVec 32} {bytes c : List Byte} {cs : List (List Byte)} {nd : Node}
    {d i fd f : Nat} (hbuf : checkBuf buf len 128 = true)
    (hc : t.CanCreate tFile (cstring bytes) cs c d nd) (hfree : t.Free pid fd f) (hpos : 0 < i)
    (hlt : i < t.ninodes) (hnone : t.node i = none) :
    Step pid t (.open buf (oCreate ||| oRdwr) len bytes) (.val .succ fd)
      ((t.create tFile d nd c i).opened pid fd f ⟨i, 0, true, true, 0⟩)
  | mkdir {buf len : BitVec 32} {bytes c : List Byte} {cs : List (List Byte)} {nd : Node}
    {d i : Nat} (hbuf : checkBuf buf len 128 = true)
    (hc : t.CanCreate tDir (cstring bytes) cs c d nd) (hpos : 0 < i) (hlt : i < t.ninodes)
    (hnone : t.node i = none) :
    Step pid t (.mkdir buf len bytes) (.err .succ) (t.create tDir d nd c i)
  | fstat {buf : BitVec 32} {fd f : Nat} {o : OpenFile} {n : Node}
    (hbuf : checkBuf buf fileStatSize 0 = true) (hfd : t.Has pid fd f o)
    (hn : t.node o.ino = some n) :
    Step pid t (.fstat fd buf)
      { errno := .succ, retval1 := some 0, out := [], stat := some (n.stat o.ino) } t
  | read {buf len : BitVec 32} {data : List Byte} {fd f : Nat} {o : OpenFile} {n : Node}
    (hbuf : checkBuf buf len buflenMax = true) (hfd : t.Has pid fd f o)
    (hreadable : o.readable = true) (hn : t.node o.ino = some n) (htype : n.type ≠ tDev)
    (hoff : o.off.toNat ≤ n.bytes.length) (hlen : o.off.toNat + len.toNat < 2 ^ 32)
    (hdata : data = (n.bytes.drop o.off.toNat).take len.toNat) :
    Step pid t (.read fd buf len)
      { errno := .succ, retval1 := some data.length, out := data, stat := none }
      (t.setFile f (some (o.advance data.length)))
  | write {buf len : BitVec 32} {fsbuf : Nat → Byte} {src : List Byte} {fd f : Nat}
    {o : OpenFile} {n : Node} (hbuf : checkBuf buf len buflenMax = true)
    (hsrc : (List.range len.toNat).map fsbuf = src) (hfd : t.Has pid fd f o)
    (hwritable : o.writable = true) (hw : t.CanWrite o n src.length) :
    Step pid t (.write fd buf len fsbuf) (.val .succ src.length) (t.write f o n src)
  | close {fd f : Nat} {o : OpenFile} {n : Node} (hfd : t.Has pid fd f o)
    (hn : t.node o.ino = some n) (hflock : o.flock = 0) :
    Step pid t (.close fd) (.val .succ 0) (t.close pid fd f o n)

/-- System calls one after the other, with what they return. -/
def syscalls : List Syscall → Fs (List SysRet)
  | [] => return []
  | c :: cs => do
    let r ← c.code
    let rs ← syscalls cs
    return r :: rs

/-- The calls can be made one after the other, whatever inodes new files get. -/
def FileTree.Admissible (pid : Nat) : List Syscall → FileTree → Prop
  | [], _ => True
  | c :: cs, t => (∃ r u, t.Step pid c r u) ∧ ∀ r u, t.Step pid c r u → Admissible pid cs u

/-- The steps of calls one after the other. -/
inductive FileTree.Steps (pid : Nat) : FileTree → List Syscall → List SysRet → FileTree → Prop
  | nil {t : FileTree} : Steps pid t [] [] t
  | cons {t u v : FileTree} {c : Syscall} {cs : List Syscall} {r : SysRet} {rs : List SysRet}
    (h : t.Step pid c r u) (hs : Steps pid u cs rs v) : Steps pid t (c :: cs) (r :: rs) v

section
variable {pid : Nat} {t u : FileTree} {c : Syscall} {r : SysRet} {cs : List Syscall}

/-- A call that can be made does what one of its steps does. -/
theorem FileTree.Step.code (h : t.Step pid c r u) : swp pid c.code (t.Step pid c) t := by
  cases h with
  | openRead hbuf hroom hstart hlead hfree =>
    exact swp_sysOpen_read hbuf hroom hstart hlead hfree (.openRead hbuf hroom hstart hlead hfree)
  | openCreate hbuf hc hfree =>
    exact swp_sysOpen_create hbuf hc hfree fun _ => .openCreate hbuf hc hfree
  | mkdir hbuf hc => exact swp_sysMkdir hbuf hc fun _ => .mkdir hbuf hc
  | fstat hbuf hfd hn => exact swp_sysFstat hbuf hfd hn (.fstat hbuf hfd hn)
  | read hbuf hfd hreadable hn htype hoff hlen =>
    exact swp_sysRead hbuf hfd hreadable hn htype hoff hlen fun _ =>
      .read hbuf hfd hreadable hn htype hoff hlen
  | write hbuf hsrc hfd hwritable hw =>
    exact swp_sysWrite hbuf hsrc hfd hwritable hw (.write hbuf hsrc hfd hwritable hw)
  | close hfd hn hflock => exact swp_sysClose hfd hn hflock (.close hfd hn hflock)

theorem FileTree.Admissible.steps (h : t.Admissible pid cs) :
    swp pid (syscalls cs) (t.Steps pid cs) t := by
  induction cs generalizing t with
  | nil => exact swp_pure .nil
  | cons c cs ih =>
    obtain ⟨⟨r, u, hstep⟩, hrest⟩ := h
    refine swp_bind (swp_mono hstep.code fun r u hu =>
      swp_bind (swp_mono (ih (hrest r u hu)) fun rs v hv => ?_))
    exact swp_pure (.cons hu hv)

end

/-! ## After the boot -/

/-- The file tree of a disk. Every process is in the root directory, and no file is open. -/
def treeOf (d : Disk) : FileTree where
  node := nodesOf d (dinodeAt d)
  file _ := none
  openfiles _ _ := none
  base i := if i = rootIno then numIds else 0
  cwd := rootIno
  ninodes := (superOf d).ninodes.toNat
  spare := spare d

section
variable {d : Disk} {i k : Nat}

theorem ref_treeOf : (treeOf d).ref i = if i = rootIno then numIds else 0 := by
  simp [FileTree.ref, FileTree.opens, treeOf]

theorem ref_treeOf_ne_zero : (treeOf d).ref i ≠ 0 ↔ i = rootIno := by
  rw [ref_treeOf, ite_ne_right_iff, and_iff_left (by decide)]

theorem room_treeOf (hk : 1 + k ≤ nInode) : (treeOf d).Room k :=
  ⟨{rootIno}, fun _ hi => Finset.mem_singleton.2 (ref_treeOf_ne_zero.1 hi), hk⟩

end

/-- A consistent disk is at rest after the boot. -/
theorem resting_mounted {pid : Nat} {d : Disk} (h : d.Consistent)
    (hlog : 9 ≤ (superOf d).nlog.toNat) (hsize : (superOf d).size.toNat ≤ bpb)
    (hroot : Allocated (superOf d) (dinodeAt d) rootIno) :
    Resting pid (mounted d) (treeOf d) := by
  have hcwd : (mounted d).Refers 0 rootIno := ⟨Int.natCast_pos.2 (by decide), rfl⟩
  refine ⟨dinodeAt d, h.intact, rfl, fun e he => ?_, rfl, rfl, rfl, ⟨hlog, hsize⟩, rfl, le_rfl,
    ⟨fun e he => ?_, fun i hi => ?_⟩, fun i hi => ?_, fun _ _ => rfl, nofun, rfl, hcwd,
    (by decide : numIds ≠ 0)⟩
  · rw [mounted_ref he]
    rfl
  · rw [mounted_ref he, ref_treeOf]
    rfl
  · exact ⟨0, ref_treeOf_ne_zero.1 hi ▸ hcwd⟩
  · exact mt nodesOf_eq_none.1 (not_not.2 (ref_treeOf_ne_zero.1 hi ▸ hroot))

/-- A file or a directory can be made in the root directory of a disk. -/
theorem canCreate_treeOf (type : BitVec 16) {d : Disk} {nd : Node} {c path : List Byte}
    (hroot : Allocated (superOf d) (dinodeAt d) rootIno) (hnd : nodeOf d (dinodeAt d rootIno) = nd)
    (hfree : ¬ Allocated (superOf d) (dinodeAt d) 2)
    (hpath : path.head? = some slash ∧ components path = [c])
    (hdir : nd.type = tDir ∧ nd.Whole ∧ nd.find c = none ∧ nd.free < 32)
    (hinodes : 2 < (superOf d).ninodes.toNat ∧ (superOf d).ninodes.toNat ≤ 2 ^ 16)
    (hspare : 3 ≤ spare d) :
    (treeOf d).CanCreate type path [] c rootIno nd := by
  have hnode : (treeOf d).node rootIno = some nd := nodesOf_eq_some.2 ⟨hroot, hnd⟩
  have href : (treeOf d).ref rootIno ≠ 0 := ref_treeOf_ne_zero.2 rfl
  have hstart : (treeOf d).start path = rootIno := if_pos hpath.1
  have hslots := (Finset.card_filter_le (entrySlots rootIno nd.free)
    fun s => ∀ n ∈ (treeOf d).node s.1, s.2 ∉ slotsIn 0 n.bytes.length).trans card_entrySlots_le
  refine ⟨?_, hpath.2, hstart, hnode, hdir.1, hdir.2.1, hdir.2.2.1, ?_, .inr href, hinodes.2,
    ⟨2, by decide, hinodes.1, nodesOf_eq_none.2 hfree⟩,
    (Nat.add_le_add (by split <;> decide) hslots).trans hspare, room_treeOf (by decide)⟩
  · rw [hstart]
    exact ⟨_, hnode, .inr href⟩
  · have hmax : 1024 ≤ maxFile * bSize := by decide
    rw [Dirent.size]
    omega

theorem canCreate_emptyImage (type : BitVec 16) :
    (treeOf emptyImage).CanCreate type [47, 97] [] [97]
    rootIno (nodeOf emptyImage (dinodeAt emptyImage rootIno)) :=
  canCreate_treeOf type rootOnly_emptyImage.allocated
    rfl (mt allocated_emptyImage.1 (by decide)) (by decide) (by unfold Node.Whole; decide +kernel)
    (by decide +kernel) (by decide +kernel)

section
variable {pid f : Nat} {t u : FileTree} {r : SysRet} {o : OpenFile} {n : Node}

/-- What an `open` that is not for reading only has done. -/
theorem FileTree.Step.open_inv {buf omode len : BitVec 32} {bytes : List Byte}
    (h : t.Step pid (.open buf omode len bytes) r u) (hmode : omode ≠ oRdonly) :
    ∃ cs c d nd fd f i, t.CanCreate tFile (cstring bytes) cs c d nd ∧ t.Free pid fd f ∧
      t.node i = none ∧ u = (t.create tFile d nd c i).opened pid fd f ⟨i, 0, true, true, 0⟩ := by
  cases h with
  | openRead => exact absurd rfl hmode
  | openCreate _ hc hfree _ _ hnone => exact ⟨_, _, _, _, _, _, _, hc, hfree, hnone, rfl⟩

/-- What a `write` has done. -/
theorem FileTree.Step.write_inv {x : Int} {buf len : BitVec 32} {fsbuf : Nat → Byte}
    (h : t.Step pid (.write x buf len fsbuf) r u) : ∃ fd f o n, x = (fd : Nat) ∧ t.Has pid fd f o ∧
      t.node o.ino = some n ∧ u = t.write f o n ((List.range len.toNat).map fsbuf) := by
  cases h with
  | write _ hsrc hfd _ hw =>
    subst hsrc
    exact ⟨_, _, _, _, rfl, hfd, hw.node, rfl⟩

/-- A `fstat` leaves the tree as it was. -/
theorem FileTree.Step.fstat_inv {x : Int} {buf : BitVec 32} (h : t.Step pid (.fstat x buf) r u) :
    u = t := by
  cases h
  rfl

/-- `open("/a", O_CREATE | O_RDWR)`, a `write` of 2000 bytes, `fstat` and `close`. -/
def newFileCalls : List Syscall :=
  [.open 0x40000000 (oCreate ||| oRdwr) 3 [47, 97, 0], .write 0 0x40000000 2000 fun _ => 7,
    .fstat 0 0x40000000, .close 0]

/-- An open file without a lock can be described and closed. -/
theorem admissible_fstat_close (hhas : t.Has 0 0 0 o) (hn : t.node o.ino = some n)
    (hflock : o.flock = 0) : t.Admissible 0 [.fstat 0 0x40000000, .close 0] := by
  refine ⟨⟨_, _, .fstat (by decide) hhas hn⟩, fun r u hu => ?_⟩
  obtain rfl := hu.fstat_inv
  exact ⟨⟨_, _, .close hhas hn hflock⟩, fun _ _ _ => trivial⟩

/-- 2000 bytes can be written to a new file. -/
theorem admissible_write {j : Nat} (hhas : t.Has 0 0 0 ⟨j, 0, true, true, 0⟩)
    (hn : t.node j = some ⟨tFile, 1, []⟩) (hspare : 10 ≤ t.spare) :
    t.Admissible 0 [.write 0 0x40000000 2000 fun _ => 7, .fstat 0 0x40000000, .close 0] := by
  have hlen : ((List.range (BitVec.toNat (2000 : BitVec 32))).map fun _ => (7 : Byte)).length =
      2000 := by
    rw [List.length_map, List.length_range]
    rfl
  have hslots : (slotsIn 0 (1536 + 464)).card ≤ 5 + 5 := by
    rw [slotsIn_add]
    exact (Finset.card_union_le _ _).trans
      (Nat.add_le_add (card_slotsIn_le (by decide)) (card_slotsIn_le (by decide)))
  refine ⟨⟨_, _, .write (by decide) rfl hhas rfl ⟨hn, nofun, Nat.zero_le _, ?_, ?_⟩⟩,
    fun r u hu => ?_⟩
  · rw [hlen]
    exact (by decide : 0 + 2000 ≤ maxFile * bSize)
  · rw [hlen]
    exact (Finset.card_filter_le _ _).trans (Finset.card_image_le.trans (hslots.trans hspare))
  · obtain ⟨fd, f, o, n, hfd, hhas', hn', rfl⟩ := hu.write_inv
    obtain rfl : fd = 0 := by exact_mod_cast hfd.symm
    obtain rfl : f = 0 := Option.some.inj (hhas'.desc.symm.trans hhas.desc)
    obtain rfl : o = ⟨j, 0, true, true, 0⟩ := Option.some.inj (hhas'.file.symm.trans hhas.file)
    exact admissible_fstat_close hhas.write (update_self _ _ _) rfl

/-- The calls can be made on a disk in whose root directory a file can be made. -/
theorem admissible_newFileCalls {d : Disk} {nd : Node}
    (hc : (treeOf d).CanCreate tFile [47, 97] [] [97] rootIno nd) (hspare : 13 ≤ spare d) :
    (treeOf d).Admissible 0 newFileCalls := by
  have hfree : (treeOf d).Free 0 0 0 := ⟨rfl, rfl⟩
  obtain ⟨i, hpos, hlt, hnone⟩ := hc.inode
  refine ⟨⟨_, _, .openCreate (by decide) hc hfree hpos hlt hnone⟩, fun r u hu => ?_⟩
  obtain ⟨cs, c, e, ne, fd, f, j, hc', hfree', hnone', rfl⟩ := hu.open_inv (by decide)
  obtain rfl : fd = 0 := Option.some.inj (hfree'.desc.symm.trans hfree.desc)
  obtain rfl : f = 0 := Option.some.inj (hfree'.file.symm.trans hfree.file)
  refine admissible_write ⟨by decide, rfl, rfl⟩ ?_ ?_
  · have hne : j ≠ e := by
      rintro rfl
      rw [hc'.node] at hnone'
      cases hnone'
    show nodesCreate _ _ _ _ _ _ _ = _
    rw [nodesCreate, update_of_ne hne, update_self, Node.new, if_neg (by decide)]
  · have hnew : blocksNew (treeOf d).node tFile e ne.free ≤ 3 :=
      Nat.add_le_add (by split <;> decide) ((Finset.card_filter_le _ _).trans card_entrySlots_le)
    show 10 ≤ spare d - blocksNew (treeOf d).node tFile e ne.free
    omega

end

/-- What the calls return: the descriptor 0, the number of bytes, and the size. -/
def newFileResults : List SysRet :=
  [.val .succ 0, .val .succ 2000,
    { errno := .succ, retval1 := some 0, out := [], stat := some ⟨tFile, rootDev, 2, 1, 2000⟩ },
    .val .succ 0]

theorem run_newFileCalls : ((fsHandler BufCache.layer 0).run (syscalls newFileCalls)
    (.bootFrom emptyImage)).Sat (fun rs _ => rs = newFileResults) (fun _ _ => False)
      fun _ => False := by decide +kernel

end MCertikos
