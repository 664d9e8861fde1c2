import MCertikos.Fs.Low
import MCertikos.Lib.Table
import Mathlib.Data.Multiset.AddSub

/-!
# Who owns a reference

Each reference that is counted in an inode of the inode cache is owned by a process, which keeps it
in a local variable or as its working directory, or by an open file; and each open file is owned by
a process. A process takes and gives up references and files through the operations of `ownSpec`,
and each file system call gives back what it took, apart from what it stores in the descriptor
table and the working directory (`Syscall.owns`).
-/

namespace MCertikos

open Program Function

/-- What a process owns. -/
structure Own where
  /-- References to inodes, with the one of the working directory. -/
  refs : Multiset Nat
  /-- Files that are allocated and have no inode yet. -/
  fresh : Multiset Nat
  /-- Open files. -/
  files : Multiset Nat
  /-- The descriptor table. -/
  desc : Nat → Option Nat
  /-- The working directory. -/
  cwd : Nat

namespace Own

variable (t : Own) (ip : Nat)

/-- One more reference. -/
def take : Own := { t with refs := ip ::ₘ t.refs }

/-- A reference less. -/
def drop : Own := { t with refs := t.refs.erase ip }

variable {t ip}

@[simp] theorem drop_take : (t.take ip).drop ip = t := by
  simp [take, drop]

theorem take_drop (h : ip ∈ t.refs) : (t.drop ip).take ip = t := by
  simp [take, drop, Multiset.cons_erase h]

/-- References that are taken and given up in the other order. -/
theorem take_drop_comm {next : Nat} (h : ip ∈ t.refs) :
    (t.take next).drop ip = (t.drop ip).take next := by
  rcases eq_or_ne next ip with rfl | hne
  · rw [drop_take, take_drop h]
  · simp [take, drop, Multiset.erase_cons_tail _ hne]

theorem mem_take_self : ip ∈ (t.take ip).refs := Multiset.mem_cons_self _ _

theorem mem_take {next : Nat} (h : ip ∈ t.refs) : ip ∈ (t.take next).refs :=
  Multiset.mem_cons_of_mem h

end Own

/-- What the operations take and give. -/
def ownSpec : Spec fsSig Own
  | .inodeGet _ _, Q, t => ∀ ip < nInode, Q ip (t.take ip)
  | .inodeDup ip, Q, t => ip ∈ t.refs ∧ Q () (t.take ip)
  | .inodePutTest ip, Q, t => ip ∈ t.refs ∧ Q true t ∧ Q false (t.drop ip)
  | .inodePutDrop ip, Q, t => ip ∈ t.refs ∧ Q () (t.drop ip)
  | .fileAlloc, Q, t => Q none t ∧ ∀ f < nFile, Q (some f) { t with fresh := f ::ₘ t.fresh }
  | .fileDrop f, Q, t =>
    (f ∈ t.fresh ∧ ∀ ff : File, ff.type ≠ .inode →
      Q (some ff) { t with fresh := t.fresh.erase f }) ∨ f ∈ t.files ∧ ∀ ff : File,
      ff.type = .inode →
        Q (some ff) { t with files := t.files.erase f, refs := ff.ip ::ₘ t.refs }
  | .fileSetInode f ip _ _, Q, t =>
    f ∈ t.fresh ∧ ip ∈ t.refs ∧
      Q () { t with fresh := t.fresh.erase f, files := f ::ₘ t.files, refs := t.refs.erase ip }
  | .fileGet f, Q, t => f ∈ t.files ∧ ∀ r, Q r t
  | .getOpenfile fd, Q, t => Q (t.desc fd) t
  | .setOpenfile fd f, Q, t => Q () { t with desc := update t.desc fd f }
  | .getCwd, Q, t => Q t.cwd t
  | .setCwd ip, Q, t => Q () { t with cwd := ip }
  | _, Q, t => ∀ r, Q r t

theorem ownSpec_mono : ownSpec.Mono := by
  intro o Q Q' t h hQ
  cases o with
  | inodeGet => exact fun ip hip => h _ _ (hQ ip hip)
  | inodeDup | inodePutDrop => exact ⟨hQ.1, h _ _ hQ.2⟩
  | inodePutTest => exact ⟨hQ.1, h _ _ hQ.2.1, h _ _ hQ.2.2⟩
  | fileAlloc => exact ⟨h _ _ hQ.1, fun f hf => h _ _ (hQ.2 f hf)⟩
  | fileDrop f =>
    exact hQ.imp (fun hf => ⟨hf.1, fun ff hff => h _ _ (hf.2 ff hff)⟩)
      fun hf => ⟨hf.1, fun ff hff => h _ _ (hf.2 ff hff)⟩
  | fileSetInode => exact ⟨hQ.1, hQ.2.1, h _ _ hQ.2.2⟩
  | fileGet => exact ⟨hQ.1, fun r => h _ _ (hQ.2 r)⟩
  | getOpenfile | setOpenfile | getCwd | setCwd => exact h _ _ hQ
  | _ => exact fun r => h _ _ (hQ r)

/-- The program takes and gives references by the rules and ends with `Q`. -/
abbrev Owns {α : Type} (p : Fs α) (Q : α → Own → Prop) (t : Own) : Prop := p.Follows ownSpec Q t

section
variable {α β : Type} {t : Own} {ip dp f : Nat} {Q : Unit → Own → Prop} {type : BitVec 16}
  {name path : List Byte} {R : Multiset Nat}

/-- Operations on locked data own nothing. -/
theorem ownSpec_low {o : FsOp} (ho : o.Low) {Q : o.Resp → Own → Prop} (hQ : ∀ r, Q r t) :
    ownSpec o Q t := by
  cases o <;> first | exact hQ | exact ho.elim

theorem Low.owns {p : Fs α} (hp : Low p) {Q : α → Own → Prop} (hQ : ∀ a, Q a t) : Owns p Q t :=
  Prog.All.follows hp (fun _ _ ho hr => ownSpec_low ho hr) hQ

/-- Code on locked data before other code. -/
theorem Low.owns_bind {p : Fs β} (hp : Low p) {f : β → Fs α} {Q : α → Own → Prop}
    (hf : ∀ b, Owns (f b) Q t) : Owns (p >>= f) Q t :=
  .bind (hp.owns hf)

theorem owns_beginTrans (hQ : Q () t) : Owns beginTrans Q t := fun _ => hQ

theorem owns_kernPanic {e : Panic} {Q : α → Own → Prop} : Owns (kernPanic e : Fs α) Q t := nofun

theorem owns_commitTrans (hQ : Q () t) : Owns commitTrans Q t := by
  have hrelease : Owns logRelease Q t := fun _ => hQ
  exact blocks_logGet.low.owns_bind fun _ => .ite (fun _ => blocks_writeHead.low.owns_bind fun _ =>
    blocks_installTrans.low.owns_bind fun _ => (blocks_logSetN _).low.owns_bind fun _ =>
    blocks_writeHead.low.owns_bind fun _ => hrelease) fun _ => hrelease

/-! ## References to inodes -/

/-- The disk inode changes. -/
theorem owns_update {g : Inode → Dinode} {f : Inode → Unit → Fs α} {Q : α → Own → Prop}
    (hf : ∀ inode, Owns (f inode ()) Q t) :
    Owns (readInode ip >>= fun inode => setDinode ip (g inode) >>= fun _ =>
      inodeUpdate ip >>= f inode) Q t :=
  (blocks_readInode _).low.owns_bind fun inode => (low_setDinode _ _).owns_bind fun _ =>
    (blocks_inodeUpdate _).low.owns_bind fun _ => hf inode

theorem owns_inodePut (hip : ip ∈ t.refs) (hQ : Q () (t.drop ip)) : Owns (inodePut ip) Q t := by
  exact .bind ⟨hip, (low_inodeTrunc _).owns_bind fun _ => owns_update fun _ => ⟨hip, hQ⟩, hQ⟩

theorem owns_inodeUnlockput (hip : ip ∈ t.refs) (hQ : Q () (t.drop ip)) :
    Owns (inodeUnlockput ip) Q t :=
  (low_inodeUnlock _).owns_bind fun _ => owns_inodePut hip hQ

/-- The reference that was taken last is given up. -/
theorem owns_put_last (hQ : Q () t) : Owns (inodePut ip) Q (t.take ip) :=
  owns_inodePut Own.mem_take_self (by rwa [Own.drop_take])

theorem owns_unlockput_last (hQ : Q () t) : Owns (inodeUnlockput ip) Q (t.take ip) :=
  (low_inodeUnlock _).owns_bind fun _ => owns_put_last hQ

/-- The one that was taken before it is given up. -/
theorem owns_unlockput_under {dp : Nat} (hdp : dp ∈ t.refs) (hQ : Q () ((t.drop dp).take ip)) :
    Owns (inodeUnlockput dp) Q (t.take ip) :=
  owns_inodeUnlockput (Own.mem_take hdp) (by rwa [Own.take_drop_comm hdp])

theorem owns_inodeAllocFrom {Q : Nat → Own → Prop} {dev : Nat} {inums : List Nat}
    (hQ : ∀ ip < nInode, Q ip (t.take ip)) : Owns (inodeAllocFrom dev type inums) Q t := by
  induction inums with
  | nil => exact owns_kernPanic
  | cons inum inums ih =>
    refine (blocks_bufcacheRead _).low.owns_bind fun _ => .ite (fun _ => ?_) fun _ => ?_
    · exact (blocks_bufSet _ _).low.owns_bind fun _ => (blocks_logWrite _).low.owns_bind fun _ =>
        (blocks_bufcacheRelease _).low.owns_bind fun _ => hQ
    · exact (blocks_bufcacheRelease _).low.owns_bind fun _ => ih

theorem owns_inodeAlloc {Q : Nat → Own → Prop} {dev : Nat} (hQ : ∀ ip < nInode, Q ip (t.take ip)) :
    Owns (inodeAlloc dev type) Q t :=
  blocks_readSuperblock.low.owns_bind fun _ => owns_inodeAllocFrom hQ

/-! ## Directories and paths -/

theorem owns_dirLookupFrom {Q : Option (Nat × Nat) → Own → Prop} {offs : List Nat}
    (hnone : Q none t) (hsome : ∀ ip off, Q (some (ip, off)) (t.take ip)) :
    Owns (dirLookupFrom dp name offs) Q t := by
  induction offs with
  | nil => exact hnone
  | cons off offs ih =>
    refine (low_readDirent _ _).owns_bind fun _ => .ite (fun _ => ?_) fun _ => ih
    exact (blocks_readInode _).low.owns_bind fun _ => .bind fun ip _ => hsome ip off

theorem owns_dirLookup {Q : Option (Nat × Nat) → Own → Prop} (hnone : Q none t)
    (hsome : ∀ ip off, Q (some (ip, off)) (t.take ip)) : Owns (dirLookup dp name) Q t :=
  (blocks_readInode _).low.owns_bind fun _ => .ite (fun _ => .bind owns_kernPanic) fun _ =>
    owns_dirLookupFrom hnone hsome

theorem owns_dirLink {Q : Bool → Own → Prop} {inum : Nat} (hQ : ∀ b, Q b t) :
    Owns (dirLink dp name inum) Q t := by
  refine .bind (owns_dirLookup ?_ fun ip off => ?_)
  · exact (blocks_readInode _).low.owns_bind fun _ => (low_freeEntryFrom _ _ _).owns_bind fun _ =>
      (low_inodeWrite _ _ _).owns_bind fun _ => .ite (fun _ => .bind owns_kernPanic)
      fun _ => hQ true
  · exact .bind (owns_put_last (hQ false))

/-- The loop of `namex` drops the inode that it leaves. -/
theorem owns_namexFrom {Q : Option (Nat × List Byte) → Own → Prop} {parent : Bool}
    {names : List (List Byte)} (hip : ip ∈ t.refs) (hnone : Q none (t.drop ip))
    (hsome : ∀ ip' name, Q (some (ip', name)) ((t.drop ip).take ip')) :
    Owns (namexFrom parent ip name names) Q t := by
  have hself : ∀ name, Q (some (ip, name)) t := fun name => by
    have := hsome ip name
    rwa [Own.take_drop hip] at this
  induction names generalizing ip name t with
  | nil => exact .ite (fun _ => .bind (owns_inodePut hip hnone)) fun _ => hself name
  | cons name' names ih =>
    refine (low_inodeLock _).owns_bind fun _ => (blocks_readInode _).low.owns_bind
      fun inode => .ite ?_ ?_
    · exact fun _ => .bind (owns_inodeUnlockput hip hnone)
    · refine fun _ =>
        .ite (fun _ => (low_inodeUnlock _).owns_bind fun _ => hself name') fun _ => ?_
      refine .bind (owns_dirLookup ?_ fun next off => ?_)
      · exact .bind (owns_inodeUnlockput hip hnone)
      · refine .bind (owns_unlockput_under hip ?_)
        refine ih Own.mem_take_self ?_ (fun ip' n => ?_) fun n => hsome next n
        · rwa [Own.drop_take]
        · rw [Own.drop_take]
          exact hsome ip' n

theorem owns_namexStart {Q : Nat → Own → Prop} (hcwd : t.cwd ∈ t.refs)
    (hQ : ∀ ip, Q ip (t.take ip)) :
    Owns (namexStart path) Q t :=
  .ite (fun _ ip _ => hQ ip) fun _ => .bind (.bind ⟨hcwd, hQ t.cwd⟩)

theorem owns_namex {Q : Option (Nat × List Byte) → Own → Prop} {parent : Bool}
    (hcwd : t.cwd ∈ t.refs) (hnone : Q none t)
    (hsome : ∀ ip name, Q (some (ip, name)) (t.take ip)) : Owns (namex path parent) Q t := by
  refine .bind (owns_namexStart hcwd fun ip => owns_namexFrom Own.mem_take_self ?_ ?_)
  · rwa [Own.drop_take]
  · intro ip' name
    rw [Own.drop_take]
    exact hsome ip' name

theorem owns_namei {Q : Option Nat → Own → Prop} (hcwd : t.cwd ∈ t.refs) (hnone : Q none t)
    (hsome : ∀ ip, Q (some ip) (t.take ip)) : Owns (namei path) Q t :=
  .bind (owns_namex hcwd hnone fun ip _ => hsome ip)

/-! ## Files -/

/-- The files in a descriptor table. -/
def descFiles (desc : Nat → Option Nat) : Multiset Nat :=
  ∑ fd ∈ Finset.range nOFile, (desc fd).elim 0 ({·})

/-- A change of one descriptor. -/
theorem descFiles_update (desc : Nat → Option Nat) {fd : Nat} (hfd : fd < nOFile)
    (v : Option Nat) :
    descFiles (update desc fd v) + (desc fd).elim 0 ({·}) =
      descFiles desc + v.elim 0 ({·}) :=
  Table.sum_range_update hfd (fun f : Option Nat => f.elim 0 ({·})) desc v

/-- The state of a process between two calls, with the references `R` besides its working
directory. -/
structure Own.Rest (R : Multiset Nat) (t : Own) : Prop where
  refs : t.refs = t.cwd ::ₘ R
  fresh : t.fresh = 0
  files : t.files = descFiles t.desc

theorem Own.Rest.cwd_mem (h : t.Rest R) : t.cwd ∈ t.refs := by
  rw [h.refs]
  exact Multiset.mem_cons_self _ _

theorem owns_fileClose_fresh (hf : f ∈ t.fresh) (hQ : Q () { t with fresh := t.fresh.erase f }) :
    Owns (fileClose f) Q t :=
  .bind (.inl ⟨hf, fun _ hff => .ite (fun h => absurd h hff) fun _ => hQ⟩)

theorem owns_fileClose (hf : f ∈ t.files) (hQ : Q () { t with files := t.files.erase f }) :
    Owns (fileClose f) Q t := by
  refine .bind (.inr ⟨hf, fun ff hff => .ite (fun _ => ?_) fun h => absurd hff h⟩)
  refine .join (fun hput => .bind fun _ => hput) (.bind (owns_beginTrans (.bind ?_)))
  exact owns_put_last (t := { t with files := t.files.erase f }) (owns_commitTrans hQ)

theorem owns_fdallocFrom {Q : Option Nat → Own → Prop} {fds : List Nat} (hnone : Q none t)
    (hsome : ∀ fd ∈ fds, t.desc fd = none →
      Q (some fd) { t with desc := update t.desc fd (some f) }) :
    Owns (fdallocFrom f fds) Q t := by
  induction fds with
  | nil => exact hnone
  | cons fd fds ih =>
    rw [List.forall_mem_cons] at hsome
    exact .bind (.ite (fun h => .bind (hsome.1 h)) fun _ => ih hsome.2)

/-- An inode that is dropped before the call returns. -/
theorem owns_unlockput_return (h : t.Rest R) (v : SysRet) :
    Owns (do
      inodeUnlockput ip
      return v) (fun _ => Own.Rest R) (t.take ip) :=
  .bind (owns_unlockput_last h)

/-- The end of `sys_open` passes the reference to the inode on to the new file, or drops it. -/
theorem owns_openInode {omode : BitVec 32} (h : t.Rest R) :
    Owns (openInode ip omode) (fun _ => Own.Rest R) (t.take ip) := by
  refine .bind ⟨owns_unlockput_return h _, fun f _ => .bind (owns_fdallocFrom ?_ ?_)⟩
  · refine .bind (owns_fileClose_fresh (Multiset.mem_cons_self _ _) ?_)
    simp only [Multiset.erase_cons_head]
    exact owns_unlockput_return h _
  · intro fd hfd hnone
    refine (low_inodeUnlock _).owns_bind fun _ => .bind
      ⟨Multiset.mem_cons_self _ _, Own.mem_take_self, ?_, ?_, ?_⟩
    · exact (Multiset.erase_cons_head _ _).trans h.refs
    · exact (Multiset.erase_cons_head _ _).trans h.fresh
    · have hupd := descFiles_update t.desc (List.mem_range.1 hfd) (some f)
      have hnone' : t.desc fd = none := hnone
      rw [hnone'] at hupd
      show f ::ₘ t.files = descFiles (update t.desc fd (some f))
      rw [h.files, ← Multiset.singleton_add, add_comm]
      simpa using hupd.symm

/-! ## System calls -/

theorem owns_createIn {Q : Nat → Own → Prop} {major minor : BitVec 16} (hdp : dp ∈ t.refs)
    (hQ : ∀ ip, Q ip ((t.drop dp).take ip)) : Owns (createIn dp name type major minor) Q t := by
  refine (blocks_readInode _).low.owns_bind fun _ => .bind (owns_inodeAlloc fun ip _ => ?_)
  refine (low_inodeLock _).owns_bind fun _ => owns_update fun inode => .join (fun hend => ?_) ?_
  · refine owns_update fun _ =>
      .bind (owns_dirLink fun b => .ite (fun _ => .bind owns_kernPanic) fun _ => ?_)
    exact .bind (owns_dirLink fun b => .ite (fun _ => .bind owns_kernPanic) fun _ => hend)
  · exact .bind (owns_dirLink fun b => .ite (fun _ => .bind owns_kernPanic) fun _ =>
      .bind (owns_unlockput_under hdp (hQ ip)))

theorem owns_create {Q : Option Nat → Own → Prop} {major minor : BitVec 16} (hcwd : t.cwd ∈ t.refs)
    (hnone : Q none t) (hsome : ∀ ip, Q (some ip) (t.take ip)) :
    Owns (create path type major minor) Q t := by
  refine .bind (owns_namex hcwd hnone fun dp name => ?_)
  refine (low_inodeLock _).owns_bind fun _ => .bind (owns_dirLookup ?_ fun ip off => ?_)
  · refine .bind (owns_createIn Own.mem_take_self fun ip => ?_)
    rw [Own.drop_take]
    exact hsome ip
  · refine .bind (owns_unlockput_under Own.mem_take_self ?_)
    rw [Own.drop_take]
    exact (low_inodeLock _).owns_bind fun _ => (blocks_readInode _).low.owns_bind fun _ =>
      .ite (fun _ => hsome ip) fun _ => .bind (owns_unlockput_last hnone)

theorem owns_getOpenfile {fd : Nat} {f : Option Nat → Fs α} {Q : α → Own → Prop}
    (h : Owns (f (t.desc fd)) Q t) : Owns (getOpenfile fd >>= f) Q t := h

/-- The files in the descriptor table belong to the process. -/
theorem Own.Rest.mem_files (h : t.Rest R) {fd : Nat} (hfd : fd < nOFile)
    (hf : t.desc fd = some f) :
    f ∈ t.files := by
  have hupd := descFiles_update t.desc hfd none
  simp only [hf, Option.elim_some, Option.elim_none, add_zero] at hupd
  rw [h.files, ← hupd]
  exact Multiset.mem_add.2 (.inr (Multiset.mem_singleton_self f))

theorem owns_readFile {p : File → Fs α} {Q : α → Own → Prop} (hf : f ∈ t.files)
    (h : ∀ file, Owns (p file) Q t) :
    Owns (readFile f >>= p) Q t := ⟨hf, h⟩

theorem owns_inodeFile {Q : Option Nat → Own → Prop} (h : t.Rest R) {fd : Int} (hnone : Q none t)
    (hsome : ∀ f ∈ t.files, Q (some f) t) : Owns (inodeFile fd) Q t := by
  refine .ite (fun _ => hnone) fun hfd => owns_getOpenfile ?_
  rw [not_not] at hfd
  cases hdesc : t.desc fd.toNat with
  | none => exact hnone
  | some f =>
    have hf := h.mem_files (by omega) hdesc
    exact owns_readFile hf fun _ => .ite (fun _ => hnone) fun _ => hsome f hf

theorem owns_sysOpen (h : t.Rest R) (buf omode buflen : BitVec 32) (path : List Byte) :
    Owns (sysOpen buf omode buflen path) (fun _ => Own.Rest R) t := by
  refine .ite (fun _ => h) fun _ => .ite (fun _ => ?_) fun _ => ?_
  · refine .bind (owns_beginTrans (.bind (owns_create h.cwd_mem ?_ fun ip => ?_)))
    · exact .bind (owns_commitTrans h)
    · exact .bind (owns_commitTrans (owns_openInode h))
  · refine .bind (owns_namei h.cwd_mem h fun ip => ?_)
    exact (low_inodeLock _).owns_bind fun _ => (blocks_readInode _).low.owns_bind fun _ =>
      .ite (fun _ => owns_unlockput_return h _) fun _ => owns_openInode h

theorem owns_sysClose (h : t.Rest R) (fd : Int) : Owns (sysClose fd) (fun _ => Own.Rest R) t := by
  refine .ite (fun _ => h) fun hfd => owns_getOpenfile ?_
  rw [not_not] at hfd
  have hlt : fd.toNat < nOFile := by omega
  cases hdesc : t.desc fd.toNat with
  | none => exact h
  | some f =>
    have hupd := descFiles_update t.desc hlt none
    simp only [hdesc, Option.elim_some, Option.elim_none, add_zero] at hupd
    have hf := h.mem_files hlt hdesc
    refine owns_readFile hf fun _ => .ite (fun _ => h) fun _ =>
      .bind (owns_fileClose hf (.bind ⟨h.refs, h.fresh, ?_⟩))
    show t.files.erase f = descFiles (update t.desc fd.toNat none)
    rw [h.files, ← hupd, add_comm, Multiset.singleton_add, Multiset.erase_cons_head]

theorem owns_fileRead {Q : Option (List Byte) → Own → Prop} {n : BitVec 32} (hf : f ∈ t.files)
    (hQ : ∀ r, Q r t) :
    Owns (fileRead f n) Q t := by
  refine owns_readFile hf fun _ => .ite (fun _ => hQ none) fun _ => .ite (fun _ => ?_)
    fun _ => owns_kernPanic
  refine (low_inodeLock _).owns_bind fun _ => owns_readFile hf fun file =>
    (low_inodeRead _ _ _).owns_bind fun r => ?_
  cases r with
  | none => exact (low_inodeUnlock _).owns_bind fun _ => hQ none
  | some data =>
    exact .join (fun hend => (low_fileAdvance _ _).owns_bind fun _ => hend)
      ((low_inodeUnlock _).owns_bind fun _ => hQ (some data))

theorem owns_fileWriteFrom {Q : Bool → Own → Prop} {turns : Nat} {addr : List Byte}
    (hf : f ∈ t.files) (hQ : ∀ b, Q b t) : Owns (fileWriteFrom f turns addr) Q t := by
  induction turns generalizing addr with
  | zero => exact hQ true
  | succ turns ih =>
    refine .ite (fun _ => hQ true) fun _ => .bind (owns_beginTrans ?_)
    refine owns_readFile hf fun _ => (low_inodeLock _).owns_bind fun _ =>
      owns_readFile hf fun file => (low_inodeWrite _ _ _).owns_bind fun r => ?_
    cases r with
    | none =>
      exact (low_inodeUnlock _).owns_bind fun _ => .bind (owns_commitTrans (hQ false))
    | some r =>
      exact .join (fun hend => (low_fileAdvance _ _).owns_bind fun _ => hend)
        ((low_inodeUnlock _).owns_bind fun _ => .bind (owns_commitTrans
          (.ite (fun _ => .bind owns_kernPanic) fun _ => ih)))

theorem owns_fileWrite {Q : Option Nat → Own → Prop} {addr : List Byte} (hf : f ∈ t.files)
    (hQ : ∀ r, Q r t) :
    Owns (fileWrite f addr) Q t :=
  owns_readFile hf fun _ => .ite (fun _ => hQ none) fun _ => .ite
    (fun _ => .bind (owns_fileWriteFrom hf fun _ => hQ _)) fun _ => owns_kernPanic

theorem owns_fileStat {Q : Option FileStat → Own → Prop} (hf : f ∈ t.files) (hQ : ∀ r, Q r t) :
    Owns (fileStat f) Q t :=
  owns_readFile hf fun _ => .ite (fun _ => (low_inodeLock _).owns_bind fun _ =>
    (blocks_readInode _).low.owns_bind fun _ => (low_inodeUnlock _).owns_bind fun _ => hQ _)
      fun _ => hQ none

theorem owns_sysRead (h : t.Rest R) (fd : Int) (buf buflen : BitVec 32) :
    Owns (sysRead fd buf buflen) (fun _ => Own.Rest R) t := by
  refine .ite (fun _ => h) fun _ => .bind (owns_inodeFile h h fun f hf => ?_)
  refine .bind (owns_fileRead hf fun r => ?_)
  cases r <;> exact h

theorem owns_sysWrite (h : t.Rest R) (fd : Int) (buf buflen : BitVec 32) (fsbuf : Nat → Byte) :
    Owns (sysWrite fd buf buflen fsbuf) (fun _ => Own.Rest R) t := by
  refine .ite (fun _ => h) fun _ => .bind (owns_inodeFile h h fun f hf => ?_)
  refine .bind (owns_fileWrite hf fun r => ?_)
  cases r <;> exact h

theorem owns_sysFstat (h : t.Rest R) (fd : Int) (stat : BitVec 32) :
    Owns (sysFstat fd stat) (fun _ => Own.Rest R) t := by
  refine .ite (fun _ => h) fun _ => .bind (owns_inodeFile h h fun f hf => ?_)
  refine .bind (owns_fileStat hf fun r => ?_)
  cases r <;> exact h

theorem owns_linkBad (h : t.Rest R) : Owns (linkBad ip) (fun _ => Own.Rest R) (t.take ip) :=
  (low_inodeLock _).owns_bind fun _ => owns_update fun _ =>
    .bind (owns_unlockput_last (.bind (owns_commitTrans h)))

theorem owns_linkEntry {Q : Bool → Own → Prop} (hQ : ∀ b, Q b t) :
    Owns (linkEntry dp ip name) Q t :=
  (blocks_readInode _).low.owns_bind fun _ => (blocks_readInode _).low.owns_bind fun _ =>
    .ite (fun _ => hQ false) fun _ => owns_dirLink hQ

theorem owns_sysLink (h : t.Rest R) (uold unew oldlen newlen : BitVec 32) (old new : List Byte) :
    Owns (sysLink uold unew oldlen newlen old new) (fun _ => Own.Rest R) t := by
  refine .ite (fun _ => h) fun _ => .bind (owns_namei h.cwd_mem h fun ip => ?_)
  refine .bind (owns_beginTrans ?_)
  refine (low_inodeLock _).owns_bind fun _ => (blocks_readInode _).low.owns_bind fun _ =>
    .ite (fun _ => ?_) ?_
  · exact .bind (owns_unlockput_last (.bind (owns_commitTrans h)))
  refine fun _ => (low_setDinode _ _).owns_bind fun _ =>
    (blocks_inodeUpdate _).low.owns_bind fun _ =>
    (low_inodeUnlock _).owns_bind fun _ => .bind (owns_namex ?_ ?_ fun dp name => ?_)
  · exact Own.mem_take h.cwd_mem
  · exact owns_linkBad h
  refine (low_inodeLock _).owns_bind fun _ => .bind (owns_linkEntry fun linked => ?_)
  exact .bind (owns_unlockput_last (.ite (fun _ => owns_linkBad h) fun _ =>
    .bind (owns_put_last (.bind (owns_commitTrans h)))))

theorem owns_unlinkBad (h : t.Rest R) : Owns (unlinkBad ip) (fun _ => Own.Rest R) (t.take ip) :=
  .bind (owns_unlockput_last (.bind (owns_commitTrans h)))

theorem owns_sysUnlink (h : t.Rest R) (buf buflen : BitVec 32) (path : List Byte) :
    Owns (sysUnlink buf buflen path) (fun _ => Own.Rest R) t := by
  refine .ite (fun _ => h) fun _ => .bind (owns_namex h.cwd_mem h fun dp name => ?_)
  refine .bind (owns_beginTrans ((low_inodeLock _).owns_bind fun _ => ?_))
  refine .ite (fun _ => owns_unlinkBad h) fun _ => .bind (owns_dirLookup ?_ fun ip off => ?_)
  · exact owns_unlinkBad h
  refine (low_inodeLock _).owns_bind fun _ => (blocks_readInode _).low.owns_bind fun _ =>
    .ite (fun _ => .bind owns_kernPanic) fun _ => (low_isFullDir _).owns_bind fun full =>
    .ite (fun _ => ?_) fun _ => ?_
  · exact .bind (owns_unlockput_last (owns_unlinkBad h))
  -- the second reference goes last
  refine (low_inodeWrite _ _ _).owns_bind fun _ => .ite (fun _ => .bind owns_kernPanic) fun _ =>
    .join (fun hend => owns_update fun _ => hend)
      (.bind (owns_unlockput_under Own.mem_take_self ?_))
  rw [Own.drop_take]
  exact owns_update fun _ => .bind (owns_unlockput_last (.bind (owns_commitTrans h)))

theorem owns_sysMkdir (h : t.Rest R) (buf buflen : BitVec 32) (path : List Byte) :
    Owns (sysMkdir buf buflen path) (fun _ => Own.Rest R) t := by
  refine .ite (fun _ => h) fun _ => .bind (owns_beginTrans (.bind
    (owns_create h.cwd_mem ?_ fun ip => ?_)))
  · exact .bind (owns_commitTrans h)
  · exact .bind (owns_unlockput_last (.bind (owns_commitTrans h)))

/-- The new working directory takes the place of the old one. -/
theorem owns_sysChdir (h : t.Rest R) (buf buflen : BitVec 32) (path : List Byte) :
    Owns (sysChdir buf buflen path) (fun _ => Own.Rest R) t := by
  refine .ite (fun _ => h) fun _ => .bind (owns_namei h.cwd_mem h fun ip => ?_)
  refine (low_inodeLock _).owns_bind fun _ => (blocks_readInode _).low.owns_bind fun _ =>
    .ite (fun _ => owns_unlockput_return h _) fun _ => (low_inodeUnlock _).owns_bind fun _ => ?_
  refine .bind (.bind (owns_inodePut (Own.mem_take h.cwd_mem) ?_))
  refine .bind ⟨?_, h.fresh, h.files⟩
  calc ((t.take ip).drop t.cwd).refs = ((t.drop t.cwd).take ip).refs := by
        rw [Own.take_drop_comm h.cwd_mem]
    _ = ip ::ₘ R := by simp only [Own.take, Own.drop, h.refs, Multiset.erase_cons_head]

/-- Each file system call gives back what it took. -/
theorem Syscall.owns (h : t.Rest R) (c : Syscall) : Owns c.code (fun _ => Own.Rest R) t := by
  cases c with
  | «open» buf omode buflen path => exact owns_sysOpen h buf omode buflen path
  | close fd => exact owns_sysClose h fd
  | read fd buf buflen => exact owns_sysRead h fd buf buflen
  | write fd buf buflen fsbuf => exact owns_sysWrite h fd buf buflen fsbuf
  | link uold unew oldlen newlen old new => exact owns_sysLink h uold unew oldlen newlen old new
  | unlink buf buflen path => exact owns_sysUnlink h buf buflen path
  | mkdir buf buflen path => exact owns_sysMkdir h buf buflen path
  | chdir buf buflen path => exact owns_sysChdir h buf buflen path
  | fstat fd stat => exact owns_sysFstat h fd stat

end

end MCertikos
