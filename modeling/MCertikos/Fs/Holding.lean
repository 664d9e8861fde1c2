import MCertikos.Fs.Owning

/-!
# What a thread has locked

A thread locks inodes and buffers and begins transactions; `lockSpec` keeps account of what it has
locked. Each function gives back the buffers that it takes (`Neutral`), apart from the operations
on buffers themselves, and each file system call ends without locks and outside of a transaction
(`Syscall.locks`). A transaction begins only while the thread has nothing locked.
-/

namespace MCertikos

open Program

/-- What a thread has locked, and what it knows about its files. -/
structure Held where
  /-- The inodes on which it has set `I_BUSY`. -/
  inodes : Multiset Nat
  /-- The sectors on whose buffers it has set `B_BUSY`. -/
  bufs : Multiset Nat
  /-- It is between `begin_trans` and `commit_trans`. -/
  trans : Bool
  /-- The files it has allocated that have no inode yet. -/
  fresh : Multiset Nat
  /-- The inodes of its open files. -/
  ipOf : Nat → Nat

namespace Held

/-- The state of a thread between two calls. -/
structure Rest (h : Held) : Prop where
  inodes : h.inodes = 0
  bufs : h.bufs = 0
  trans : h.trans = false
  fresh : h.fresh = 0

variable (h : Held)

/-- One more buffer. -/
def hold (x : Nat) : Held := { h with bufs := x ::ₘ h.bufs }

/-- A buffer less. -/
def release (x : Nat) : Held := { h with bufs := h.bufs.erase x }

/-- One more inode. -/
def lock (ip : Nat) : Held := { h with inodes := ip ::ₘ h.inodes }

/-- An inode less. -/
def unlock (ip : Nat) : Held := { h with inodes := h.inodes.erase ip }

variable {h} {x y : Nat}

@[simp] theorem release_hold : (h.hold x).release x = h := by simp [hold, release]

@[simp] theorem unlock_lock : (h.lock x).unlock x = h := by simp [lock, unlock]

theorem release_hold_hold : ((h.hold x).hold y).release x = h.hold y := by
  simp [hold, release, Multiset.cons_swap y x]

theorem unlock_lock_lock : ((h.lock x).lock y).unlock x = h.lock y := by
  simp [lock, unlock, Multiset.cons_swap y x]

end Held

/-- What the operations lock and unlock. -/
def lockSpec : Spec fsSig Held
  | .bread x, Q, h => ∀ r, Q r (h.hold x)
  | .brelse x, Q, h => x ∈ h.bufs ∧ Q () (h.release x)
  | .logAcquire, Q, h =>
    h.inodes = 0 ∧ h.bufs = 0 ∧ h.trans = false ∧ Q () { h with trans := true }
  | .logRelease, Q, h => h.trans = true ∧ Q () { h with trans := false }
  | .inodeAcquire ip, Q, h => ∀ r, Q r (h.lock ip)
  | .inodeUnlock ip, Q, h => ip ∈ h.inodes ∧ Q () (h.unlock ip)
  | .inodePutTest ip, Q, h => Q false h ∧ Q true (h.lock ip)
  | .inodePutDrop ip, Q, h => ip ∈ h.inodes ∧ Q () (h.unlock ip)
  | .fileAlloc, Q, h => Q none h ∧ ∀ f, Q (some f) { h with fresh := f ::ₘ h.fresh }
  | .fileDrop f, Q, h =>
    ∀ r : Option File, (f ∈ h.fresh → ∀ ff, r = some ff → ff.type ≠ .inode) →
      Q r { h with fresh := h.fresh.erase f }
  | .fileGet f, Q, h => ∀ r : File, r.ip = h.ipOf f → Q r h
  | .fileSetInode f ip _ _, Q, h =>
    Q () { h with fresh := h.fresh.erase f, ipOf := Function.update h.ipOf f ip }
  | _, Q, h => ∀ r, Q r h

theorem lockSpec_mono : lockSpec.Mono := by
  intro o Q Q' h hle hQ
  cases o with
  | brelse | inodeUnlock | inodePutDrop | logRelease => exact ⟨hQ.1, hle _ _ hQ.2⟩
  | logAcquire => exact ⟨hQ.1, hQ.2.1, hQ.2.2.1, hle _ _ hQ.2.2.2⟩
  | inodePutTest => exact ⟨hle _ _ hQ.1, hle _ _ hQ.2⟩
  | fileAlloc => exact ⟨hle _ _ hQ.1, fun f => hle _ _ (hQ.2 f)⟩
  | fileDrop | fileGet => exact fun r hr => hle _ _ (hQ r hr)
  | fileSetInode => exact hle _ _ hQ
  | _ => exact fun r => hle _ _ (hQ r)

/-- The program locks and unlocks by the rules and ends with `Q`. -/
abbrev Locks {α : Type} (p : Fs α) (Q : α → Held → Prop) (h : Held) : Prop :=
  p.Follows lockSpec Q h

/-- The program gives back what it locks. -/
def Neutral {α : Type} (p : Fs α) : Prop := ∀ h Q, (∀ a, Q a h) → Locks p Q h

/-- The program gives back what it locks, and the buffer of the sector `x`. -/
def Brackets {α : Type} (x : Nat) (p : Fs α) : Prop := ∀ h Q, (∀ a, Q a h) → Locks p Q (h.hold x)

section
variable {α β : Type} {h : Held} {ip x dev f turns off dp : Nat} {n : BitVec 32}
  {Q : Unit → Held → Prop} {type : BitVec 16} {name path : List Byte} {offs : List Nat}

theorem neutral_pure (a : α) : Neutral (pure a : Fs α) := fun _ _ hQ => hQ a

theorem Neutral.bind {p : Fs β} {f : β → Fs α} (hp : Neutral p) (hf : ∀ b, Neutral (f b)) :
    Neutral (p >>= f) := fun h Q hQ =>
  .bind (hp h _ fun b => hf b h Q hQ)

theorem Neutral.ite {c : Prop} [Decidable c] {p q : Fs α} (hp : Neutral p) (hq : Neutral q) :
    Neutral (if c then p else q) := fun h Q hQ => .ite (fun _ => hp h Q hQ) fun _ => hq h Q hQ

/-- Neutral code before other code. -/
theorem Neutral.locks_bind {p : Fs β} (hp : Neutral p) {f : β → Fs α} {Q : α → Held → Prop}
    (hf : ∀ b, Locks (f b) Q h) : Locks (p >>= f) Q h :=
  .bind (hp h _ hf)

theorem neutral_call {o : FsOp}
    (ho : ∀ h (Q : o.Resp → Held → Prop), (∀ r, Q r h) → lockSpec o Q h) :
    Neutral (.call (S := fsSig) o) := fun h Q hQ => ho h Q hQ

theorem locks_kernPanic {e : Panic} {Q : α → Held → Prop} : Locks (kernPanic e : Fs α) Q h := nofun

theorem neutral_kernPanic {e : Panic} : Neutral (kernPanic e : Fs α) :=
  fun _ _ _ => locks_kernPanic

theorem Brackets.bind {p : Fs β} {f : β → Fs α} (hp : Neutral p) (hf : ∀ b, Brackets x (f b)) :
    Brackets x (p >>= f) := fun h Q hQ =>
  .bind (hp _ _ fun b => hf b h Q hQ)

theorem Brackets.ite {c : Prop} [Decidable c] {p q : Fs α} (hp : Brackets x p)
    (hq : Brackets x q) :
    Brackets x (if c then p else q) := fun h Q hQ => .ite (fun _ => hp h Q hQ) fun _ => hq h Q hQ

/-- The buffer is given back. -/
theorem Brackets.release {p : Fs α} (hp : Neutral p) :
    Brackets x (bufcacheRelease x >>= fun _ => p) := fun h Q hQ => by
  refine .bind ⟨Multiset.mem_cons_self _ _, ?_⟩
  rw [Held.release_hold]
  exact hp h Q hQ

theorem brackets_release : Brackets x (bufcacheRelease x) := fun h Q hQ => by
  refine ⟨Multiset.mem_cons_self _ _, ?_⟩
  rw [Held.release_hold]
  exact hQ ()

/-- A buffer that is read and given back. -/
theorem neutral_bufcacheRead {f : Block → Fs α} (hf : ∀ data, Brackets x (f data)) :
    Neutral (bufcacheRead x >>= f) := fun h Q hQ => .bind fun data => hf data h Q hQ

theorem neutral_bufGet : Neutral (bufGet x) := neutral_call fun _ _ hQ => hQ

theorem neutral_bufSet {v : Block} : Neutral (bufSet x v) := neutral_call fun _ _ hQ => hQ

theorem neutral_bufcacheWrite : Neutral (bufcacheWrite x) := neutral_call fun _ _ hQ => hQ

theorem neutral_bufDirty : Neutral (bufDirty x) := neutral_call fun _ _ hQ => hQ

theorem neutral_logGet : Neutral logGet := neutral_call fun _ _ hQ => hQ

theorem neutral_logCheck : Neutral logCheck := neutral_call fun _ _ hQ => hQ

theorem neutral_logSetSector {i v : Nat} : Neutral (logSetSector i v) :=
  neutral_call fun _ _ hQ => hQ

theorem neutral_logSetN {n : Nat} : Neutral (logSetN n) := neutral_call fun _ _ hQ => hQ

theorem neutral_readInode : Neutral (readInode ip) := neutral_call fun _ _ hQ => hQ

theorem neutral_setDinode {din : Dinode} : Neutral (setDinode ip din) :=
  neutral_call fun _ _ hQ => hQ

theorem neutral_inodeSetValid : Neutral (inodeSetValid ip) := neutral_call fun _ _ hQ => hQ

theorem neutral_inodeGet {inum : Nat} : Neutral (inodeGet dev inum) :=
  neutral_call fun _ _ hQ => hQ

theorem neutral_inodeDup : Neutral (inodeDup ip) := neutral_call fun _ _ hQ => hQ

theorem neutral_fileAdvance : Neutral (fileAdvance f n) :=
  neutral_call fun _ _ hQ => hQ

theorem neutral_getOpenfile {fd : Nat} : Neutral (getOpenfile fd) := neutral_call fun _ _ hQ => hQ

theorem neutral_setOpenfile {fd : Nat} {f : Option Nat} : Neutral (setOpenfile fd f) :=
  neutral_call fun _ _ hQ => hQ

theorem neutral_getCwd : Neutral getCwd := neutral_call fun _ _ hQ => hQ

theorem neutral_setCwd : Neutral (setCwd ip) := neutral_call fun _ _ hQ => hQ

theorem neutral_inodeFlockRelease {lockType : BitVec 32} :
    Neutral (inodeFlockRelease ip lockType) :=
  neutral_call fun _ _ hQ => hQ

/-! ## The log and the block allocator -/

theorem neutral_logWrite : Neutral (logWrite x) := by
  refine neutral_logCheck.bind fun l => neutral_logSetSector.bind fun _ =>
    neutral_bufcacheRead fun _ => .bind neutral_bufGet fun _ => .bind neutral_bufSet fun _ =>
    .bind neutral_bufcacheWrite fun _ => .release ?_
  exact .ite (neutral_logSetN.bind fun _ => neutral_bufDirty) neutral_bufDirty

theorem neutral_writeHead : Neutral writeHead :=
  neutral_logGet.bind fun _ => neutral_bufcacheRead fun _ => .bind neutral_bufSet fun _ =>
    .bind neutral_bufcacheWrite fun _ => brackets_release

theorem neutral_installFrom {l : Log} {tails : List Nat} : Neutral (installFrom l tails) := by
  induction tails with
  | nil => exact neutral_pure _
  | cons tail tails ih =>
    refine neutral_bufcacheRead fun _ h Q hQ => .bind fun _ => ?_
    refine neutral_bufSet.locks_bind fun _ => neutral_bufcacheWrite.locks_bind fun _ => ?_
    refine .bind ⟨Multiset.mem_cons_of_mem (Multiset.mem_cons_self _ _), ?_⟩
    rw [Held.release_hold_hold]
    exact Brackets.release ih h Q hQ

theorem neutral_installTrans : Neutral installTrans :=
  neutral_logGet.bind fun _ => neutral_installFrom

theorem neutral_readSuperblock : Neutral readSuperblock :=
  neutral_bufcacheRead fun _ => .release (neutral_pure _)

/-- The code after a buffer was changed. -/
theorem brackets_logged {v : Block} {p : Fs α} (hp : Neutral p) : Brackets x (do
    bufSet x v
    logWrite x
    bufcacheRelease x
    p) :=
  .bind neutral_bufSet fun _ => .bind neutral_logWrite fun _ => .release hp

theorem neutral_blockZero : Neutral (blockZero x) :=
  neutral_bufcacheRead fun _ => .bind neutral_bufSet fun _ => .bind neutral_logWrite fun _ =>
    brackets_release

theorem neutral_blockAllocFrom {sb : Superblock} {bs : List Nat} :
    Neutral (blockAllocFrom sb bs) := by
  induction bs with
  | nil => exact neutral_kernPanic
  | cons b bs ih =>
    refine neutral_bufcacheRead fun data => ?_
    split
    · exact brackets_logged (neutral_blockZero.bind fun _ => neutral_pure _)
    · exact .release ih

theorem neutral_blockAlloc : Neutral blockAlloc :=
  neutral_readSuperblock.bind fun _ => neutral_blockAllocFrom

theorem neutral_blockFree {b : Nat} : Neutral (blockFree b) := by
  refine neutral_readSuperblock.bind fun _ => neutral_bufcacheRead fun _ => .ite ?_ ?_
  · exact .bind neutral_kernPanic fun _ => .bind neutral_bufSet fun _ =>
      .bind neutral_logWrite fun _ =>
      brackets_release
  · exact .bind neutral_bufSet fun _ => .bind neutral_logWrite fun _ => brackets_release

/-! ## Inodes -/

theorem neutral_inodeUpdate : Neutral (inodeUpdate ip) :=
  neutral_readInode.bind fun _ => neutral_bufcacheRead fun _ => .bind neutral_bufSet fun _ =>
    .bind neutral_logWrite fun _ => brackets_release

/-- The disk inode changes. -/
theorem locks_update {g : Inode → Dinode} {f : Inode → Unit → Fs α} {Q : α → Held → Prop}
    (hf : ∀ inode, Locks (f inode ()) Q h) :
    Locks (readInode ip >>= fun inode => setDinode ip (g inode) >>= fun _ =>
      inodeUpdate ip >>= f inode) Q h :=
  neutral_readInode.locks_bind fun inode => neutral_setDinode.locks_bind fun _ =>
    neutral_inodeUpdate.locks_bind fun _ => hf inode

theorem locks_inodeLock (hQ : Q () (h.lock ip)) : Locks (inodeLock ip) Q h := by
  refine .bind fun valid => .ite (fun _ => ?_) fun _ => hQ
  have hread : Neutral (do
      let inode ← readInode ip
      let data ← bufcacheRead (iblock inode.inum)
      setDinode ip (getDinode data (inode.inum % ipb))
      bufcacheRelease (iblock inode.inum)
      inodeSetValid ip
      if (getDinode data (inode.inum % ipb)).type = 0 then
        kernPanic .noType : Fs Unit) :=
    neutral_readInode.bind fun _ => neutral_bufcacheRead fun _ => .bind neutral_setDinode fun _ =>
      .release (neutral_inodeSetValid.bind fun _ => .ite neutral_kernPanic (neutral_pure _))
  exact hread _ Q fun _ => hQ

theorem locks_inodeUnlock (hQ : Q () h) : Locks (inodeUnlock ip) Q (h.lock ip) := by
  refine ⟨Multiset.mem_cons_self _ _, ?_⟩
  rw [Held.unlock_lock]
  exact hQ

theorem neutral_indirectBlock : Neutral (indirectBlock ip) :=
  neutral_readInode.bind fun _ =>
    .ite (neutral_blockAlloc.bind fun _ => neutral_setDinode.bind fun _ =>
    neutral_pure _) (neutral_pure _)

theorem neutral_indirectEntry {ind bn : Nat} : Neutral (indirectEntry ind bn) :=
  neutral_bufcacheRead fun _ =>
    .ite (.bind neutral_blockAlloc fun _ => brackets_logged (neutral_pure _))
      (.release (neutral_pure _))

theorem neutral_bmap {bn : Nat} : Neutral (bmap ip bn) :=
  .ite (neutral_readInode.bind fun _ => .ite (neutral_blockAlloc.bind fun _ =>
      neutral_setDinode.bind fun _ => neutral_pure _) (neutral_pure _))
    (.ite (neutral_indirectBlock.bind fun _ => neutral_indirectEntry) neutral_kernPanic)

theorem neutral_truncDirect {is : List Nat} : Neutral (truncDirect ip is) := by
  induction is with
  | nil => exact neutral_pure _
  | cons i is ih =>
    exact neutral_readInode.bind fun _ => .ite (neutral_blockFree.bind fun _ =>
      neutral_setDinode.bind fun _ => ih) ih

theorem neutral_truncIndirect {data : Block} {js : List Nat} :
    Neutral (truncIndirect data js) := by
  induction js with
  | nil => exact neutral_pure _
  | cons j js ih => exact .ite (neutral_blockFree.bind fun _ => ih) ih

theorem neutral_inodeTrunc : Neutral (inodeTrunc ip) := by
  have hend : Neutral (do
      let inode ← readInode ip
      setDinode ip { inode.din with size := 0 }
      inodeUpdate ip) :=
    neutral_readInode.bind fun _ => neutral_setDinode.bind fun _ => neutral_inodeUpdate
  refine neutral_truncDirect.bind fun _ => neutral_readInode.bind fun _ => .ite ?_ hend
  exact neutral_bufcacheRead fun _ => .bind neutral_truncIndirect fun _ => .release
    (neutral_blockFree.bind fun _ => neutral_setDinode.bind fun _ => hend)

/-- An inode that is freed is locked until its reference is dropped. -/
theorem neutral_inodePut : Neutral (inodePut ip) := fun h Q hQ => by
  refine .bind ⟨hQ (), neutral_inodeTrunc.locks_bind fun _ => locks_update fun _ =>
    ⟨Multiset.mem_cons_self _ _, ?_⟩⟩
  rw [Held.unlock_lock]
  exact hQ ()

theorem locks_inodeUnlockput (hQ : Q () h) : Locks (inodeUnlockput ip) Q (h.lock ip) :=
  .bind (locks_inodeUnlock (neutral_inodePut h Q fun _ => hQ))

/-- The inode that was locked before the last one is unlocked. -/
theorem locks_unlockput_under (hQ : Q () (h.lock ip)) :
    Locks (inodeUnlockput dp) Q ((h.lock dp).lock ip) := by
  refine .bind ⟨Multiset.mem_cons_of_mem (Multiset.mem_cons_self _ _), ?_⟩
  rw [Held.unlock_lock_lock]
  exact neutral_inodePut _ _ fun _ => hQ

theorem neutral_inodeReadFrom {n : Nat} : Neutral (inodeReadFrom ip turns off n) := by
  induction turns generalizing off n with
  | zero => exact neutral_pure _
  | succ turns ih =>
    exact .ite (neutral_pure _) (neutral_bmap.bind fun _ => neutral_bufcacheRead fun _ =>
      .release (ih.bind fun _ => neutral_pure _))

theorem neutral_inodeRead {off : BitVec 32} : Neutral (inodeRead ip off n) :=
  neutral_readInode.bind fun _ => .ite (neutral_pure _) (.ite (neutral_pure _)
    (neutral_inodeReadFrom.bind fun _ => neutral_pure _))

theorem neutral_inodeWriteFrom {src : List Byte} : Neutral (inodeWriteFrom ip turns off src) := by
  induction turns generalizing off src with
  | zero => exact neutral_pure _
  | succ turns ih =>
    exact .ite (neutral_pure _) (neutral_bmap.bind fun _ => neutral_bufcacheRead fun _ =>
      brackets_logged ih)

theorem neutral_inodeWrite {src : List Byte} {off : BitVec 32} : Neutral (inodeWrite ip src off) :=
  neutral_readInode.bind fun _ =>
    .ite (neutral_pure _) (.ite (neutral_pure _)
      (.ite (neutral_pure _) (neutral_inodeWriteFrom.bind fun _ => neutral_readInode.bind fun _ =>
      .ite (neutral_setDinode.bind fun _ => neutral_inodeUpdate.bind fun _ => neutral_pure _)
        (neutral_pure _))))

theorem neutral_inodeAllocFrom {inums : List Nat} : Neutral (inodeAllocFrom dev type inums) := by
  induction inums with
  | nil => exact neutral_kernPanic
  | cons inum inums ih =>
    exact neutral_bufcacheRead fun _ => .ite (brackets_logged neutral_inodeGet) (.release ih)

theorem neutral_inodeAlloc : Neutral (inodeAlloc dev type) :=
  neutral_readSuperblock.bind fun _ => neutral_inodeAllocFrom

/-! ## Directories and paths -/

theorem neutral_readDirent : Neutral (readDirent dp off) := by
  refine neutral_inodeRead.bind fun r => ?_
  cases r with
  | none => exact neutral_kernPanic
  | some bs => exact .ite (neutral_pure _) neutral_kernPanic

theorem neutral_dirLookupFrom : Neutral (dirLookupFrom dp name offs) := by
  induction offs with
  | nil => exact neutral_pure _
  | cons off offs ih =>
    exact neutral_readDirent.bind fun _ => .ite (neutral_readInode.bind fun _ =>
      neutral_inodeGet.bind fun _ => neutral_pure _) ih

theorem neutral_dirLookup : Neutral (dirLookup dp name) :=
  neutral_readInode.bind fun _ => .ite (neutral_kernPanic.bind fun _ => neutral_dirLookupFrom)
    neutral_dirLookupFrom

theorem neutral_freeEntryFrom {last : Nat} : Neutral (freeEntryFrom dp last offs) := by
  induction offs with
  | nil => exact neutral_pure _
  | cons off offs ih => exact neutral_readDirent.bind fun _ => .ite (neutral_pure _) ih

theorem neutral_dirLink {inum : Nat} : Neutral (dirLink dp name inum) := by
  refine neutral_dirLookup.bind fun r => ?_
  cases r with
  | some r => exact neutral_inodePut.bind fun _ => neutral_pure _
  | none =>
    exact neutral_readInode.bind fun _ => neutral_freeEntryFrom.bind fun _ =>
      neutral_inodeWrite.bind fun _ => .ite (neutral_kernPanic.bind fun _ => neutral_pure _)
      (neutral_pure _)

theorem neutral_namexFrom {parent : Bool} {names : List (List Byte)} :
    Neutral (namexFrom parent ip name names) := by
  induction names generalizing ip name with
  | nil => exact .ite (neutral_inodePut.bind fun _ => neutral_pure _) (neutral_pure _)
  | cons name' names ih =>
    refine fun h Q hQ => .bind (locks_inodeLock (neutral_readInode.locks_bind fun inode =>
      .ite (fun _ => ?_) fun _ => .ite (fun _ => ?_) fun _ => ?_))
    · exact .bind (locks_inodeUnlockput (hQ none))
    · exact .bind (locks_inodeUnlock (hQ _))
    · refine neutral_dirLookup.locks_bind fun next => .bind (locks_inodeUnlockput ?_)
      cases next with
      | none => exact hQ none
      | some next => exact ih h Q hQ

theorem neutral_namex {parent : Bool} : Neutral (namex path parent) := by
  have hstart : Neutral (namexStart path) :=
    .ite neutral_inodeGet (neutral_getCwd.bind fun _ => neutral_inodeDup.bind fun _ =>
      neutral_pure _)
  exact hstart.bind fun _ => neutral_namexFrom

theorem neutral_namei : Neutral (namei path) :=
  neutral_namex.bind fun _ => neutral_pure _

theorem neutral_isdiremptyFrom : Neutral (isdiremptyFrom dp offs) := by
  induction offs with
  | nil => exact neutral_pure _
  | cons off offs ih =>
    refine neutral_inodeRead.bind fun r => ?_
    cases r with
    | none => exact neutral_kernPanic
    | some bs =>
      exact .ite (neutral_kernPanic.bind fun _ => .ite (neutral_pure _) ih)
        (.ite (neutral_pure _) ih)

theorem neutral_isFullDir : Neutral (isFullDir ip) :=
  neutral_readInode.bind fun _ => .ite (neutral_pure _)
    ((neutral_readInode.bind fun _ => neutral_isdiremptyFrom).bind fun _ => neutral_pure _)

/-! ## Files -/

/-- A transaction begins while the thread has nothing locked. -/
theorem locks_beginTrans (hr : h.Rest) (hQ : Q () { h with trans := true }) :
    Locks beginTrans Q h :=
  ⟨hr.inodes, hr.bufs, hr.trans, hQ⟩

/-- The inodes that are locked in a transaction may stay locked behind its end. -/
theorem locks_commitTrans (ht : h.trans = true) (hQ : Q () { h with trans := false }) :
    Locks commitTrans Q h := by
  have hrelease : Locks logRelease Q h := ⟨ht, hQ⟩
  exact neutral_logGet.locks_bind fun _ => .ite (fun _ => neutral_writeHead.locks_bind fun _ =>
    neutral_installTrans.locks_bind fun _ => neutral_logSetN.locks_bind fun _ =>
    neutral_writeHead.locks_bind fun _ => hrelease) fun _ => hrelease

/-- What a call ends with. -/
abbrev AtRest (_ : α) (h : Held) : Prop := h.Rest

/-- The end of a call that is in a transaction. -/
theorem locks_commit_return (hr : h.Rest) (a : α) : Locks (do
    commitTrans
    return a) AtRest { h with trans := true } :=
  .bind (locks_commitTrans rfl ⟨hr.inodes, hr.bufs, rfl, hr.fresh⟩)

/-- Closing a file without an inode begins no transaction. -/
theorem locks_fileClose_fresh (hf : f ∈ h.fresh) (hQ : Q () { h with fresh := h.fresh.erase f }) :
    Locks (fileClose f) Q h := by
  refine .bind fun r hr => ?_
  cases r with
  | none => exact hQ
  | some ff => exact .ite (fun h => absurd h (hr hf ff rfl)) fun _ => hQ

theorem locks_fileClose (hr : h.Rest) (hQ : Q () h) : Locks (fileClose f) Q h := by
  have herase : { h with fresh := h.fresh.erase f } = h := by
    rw [hr.fresh, Multiset.erase_zero, ← hr.fresh]
  refine .bind fun r _ => ?_
  rw [herase]
  cases r with
  | none => exact hQ
  | some ff =>
    refine .ite (fun _ => .join (fun hput => neutral_inodeFlockRelease.locks_bind fun _ => hput)
      (.bind (locks_beginTrans hr (neutral_inodePut.locks_bind fun _ =>
        locks_commitTrans rfl ?_)))) fun _ => hQ
    rw [← hr.trans]
    exact hQ

theorem neutral_fdallocFrom {fds : List Nat} : Neutral (fdallocFrom f fds) := by
  induction fds with
  | nil => exact neutral_pure _
  | cons fd fds ih =>
    exact neutral_getOpenfile.bind fun (_ : Option Nat) => .ite (neutral_setOpenfile.bind fun _ =>
      neutral_pure _) ih

/-- A read of a file, and of the inode it is open on. -/
theorem locks_readFile {p : File → Fs α} {Q : α → Held → Prop}
    (hp : ∀ file : File, file.ip = h.ipOf f → Locks (p file) Q h) :
    Locks (readFile f >>= p) Q h := hp

theorem neutral_readFile : Neutral (readFile f) := fun _ _ hQ => fun r _ => hQ r

theorem neutral_inodeFile {fd : Int} : Neutral (inodeFile fd) := by
  refine .ite (neutral_pure _) (neutral_getOpenfile.bind fun (r : Option Nat) => ?_)
  cases r with
  | none => exact neutral_pure _
  | some f => exact neutral_readFile.bind fun _ => .ite (neutral_pure _) (neutral_pure _)

theorem neutral_fileRead : Neutral (fileRead f n) := fun h Q hQ => by
  refine locks_readFile fun file hip => .ite (fun _ => hQ none) fun _ => .ite (fun _ => ?_)
    fun _ => neutral_kernPanic h Q hQ
  rw [hip]
  refine .bind (locks_inodeLock (locks_readFile fun file hip => ?_))
  rw [hip]
  refine neutral_inodeRead.locks_bind fun r => ?_
  cases r with
  | none => exact .bind (locks_inodeUnlock (hQ none))
  | some data =>
    exact .join (fun hend => neutral_fileAdvance.locks_bind fun _ => hend)
      (.bind (locks_inodeUnlock (hQ (some data))))

theorem neutral_fileStat : Neutral (fileStat f) := fun h Q hQ => by
  refine locks_readFile fun file _ => .ite (fun _ => ?_) fun _ => hQ none
  exact .bind (locks_inodeLock (neutral_readInode.locks_bind fun _ =>
    .bind (locks_inodeUnlock (hQ _))))

theorem locks_fileWriteFrom {addr : List Byte} {Q : Bool → Held → Prop} (hr : h.Rest)
    (hQ : ∀ b, Q b h) :
    Locks (fileWriteFrom f turns addr) Q h := by
  induction turns generalizing addr with
  | zero => exact hQ true
  | succ turns ih =>
    refine .ite (fun _ => hQ true) fun _ => .bind (locks_beginTrans hr
      (locks_readFile fun file hip => ?_))
    rw [hip]
    refine .bind (locks_inodeLock (locks_readFile fun file hip => ?_))
    rw [hip]
    refine neutral_inodeWrite.locks_bind fun r => ?_
    have hcommit : ∀ {p : Fs Bool}, Locks p Q h → Locks (do
        inodeUnlock (h.ipOf f)
        commitTrans
        p) Q (Held.lock { h with trans := true } (h.ipOf f)) := fun hp => by
      refine .bind (locks_inodeUnlock (.bind (locks_commitTrans rfl ?_)))
      rw [← hr.trans]
      exact hp
    cases r with
    | none => exact hcommit (hQ false)
    | some r =>
      exact .join (fun hend => neutral_fileAdvance.locks_bind fun _ => hend)
        (hcommit (.ite (fun _ => .bind locks_kernPanic) fun _ => ih))

/-! ## System calls -/

theorem locks_unlockput_return (hr : h.Rest) (v : SysRet) : Locks (do
    inodeUnlockput ip
    return v) AtRest (h.lock ip) :=
  .bind (locks_inodeUnlockput hr)

/-- The end of `sys_open` unlocks the inode. -/
theorem locks_openInode {omode : BitVec 32} (hr : h.Rest) :
    Locks (openInode ip omode) AtRest (h.lock ip) := by
  refine .bind ⟨locks_unlockput_return hr _, fun f => neutral_fdallocFrom.locks_bind fun r => ?_⟩
  have herase : (f ::ₘ h.fresh).erase f = h.fresh := Multiset.erase_cons_head _ _
  cases r with
  | none =>
    refine .bind (locks_fileClose_fresh (Multiset.mem_cons_self _ _) ?_)
    have hput : Locks (do
        inodeUnlockput ip
        return SysRet.val .diskOp (-1)) AtRest (h.lock ip) := locks_unlockput_return hr _
    simp only [Held.lock, Multiset.erase_cons_head] at hput ⊢
    exact hput
  | some fd =>
    refine .bind ?_
    refine ⟨Multiset.mem_cons_self _ _, .bind ⟨?_, hr.bufs, hr.trans, ?_⟩⟩
    · simp [Held.unlock, Held.lock, hr.inodes]
    · simp [Held.unlock, Held.lock, hr.fresh]

theorem locks_createIn {Q : Nat → Held → Prop} {major minor : BitVec 16}
    (hQ : ∀ ip, Q ip (h.lock ip)) :
    Locks (createIn dp name type major minor) Q (h.lock dp) := by
  refine neutral_readInode.locks_bind fun _ => neutral_inodeAlloc.locks_bind fun ip => ?_
  refine .bind (locks_inodeLock (locks_update fun inode =>
    .join (fun hend => locks_update fun _ => ?_) ?_))
  · exact neutral_dirLink.locks_bind fun _ => .ite (fun _ => .bind locks_kernPanic) fun _ =>
      neutral_dirLink.locks_bind fun _ => .ite (fun _ => .bind locks_kernPanic) fun _ => hend
  · exact neutral_dirLink.locks_bind fun _ => .ite (fun _ => .bind locks_kernPanic) fun _ =>
      .bind (locks_unlockput_under (hQ ip))

theorem locks_create {Q : Option Nat → Held → Prop} {major minor : BitVec 16} (hnone : Q none h)
    (hsome : ∀ ip, Q (some ip) (h.lock ip)) : Locks (create path type major minor) Q h := by
  refine neutral_namex.locks_bind fun r => ?_
  cases r with
  | none => exact hnone
  | some r =>
    refine .bind (locks_inodeLock (neutral_dirLookup.locks_bind fun found => ?_))
    cases found with
    | none => exact .bind (locks_createIn hsome)
    | some found =>
      refine .bind (locks_inodeUnlockput (.bind (locks_inodeLock
        (neutral_readInode.locks_bind fun _ => .ite (fun _ => hsome _) fun _ => ?_))))
      exact .bind (locks_inodeUnlockput hnone)

theorem locks_sysOpen (hr : h.Rest) (buf omode buflen : BitVec 32) (path : List Byte) :
    Locks (sysOpen buf omode buflen path) AtRest h := by
  refine .ite (fun _ => hr) fun _ => .ite (fun _ => ?_) fun _ => ?_
  · refine .bind (locks_beginTrans hr (.bind (locks_create ?_ fun ip => ?_)))
    · exact locks_commit_return hr _
    · refine .bind (locks_commitTrans rfl ?_)
      have hopen : Locks (openInode ip omode) AtRest (h.lock ip) := locks_openInode hr
      rwa [Held.lock, hr.trans] at hopen
  · refine neutral_namei.locks_bind fun r => ?_
    cases r with
    | none => exact hr
    | some ip =>
      exact .bind (locks_inodeLock (neutral_readInode.locks_bind fun _ =>
        .ite (fun _ => locks_unlockput_return hr _) fun _ => locks_openInode hr))

theorem locks_sysClose (hr : h.Rest) (fd : Int) : Locks (sysClose fd) AtRest h := by
  refine .ite (fun _ => hr) fun _ => neutral_getOpenfile.locks_bind fun (r : Option Nat) => ?_
  cases r with
  | none => exact hr
  | some f =>
    exact neutral_readFile.locks_bind fun _ => .ite (fun _ => hr) fun _ => .bind
      (locks_fileClose hr (neutral_setOpenfile.locks_bind fun _ => hr))

theorem locks_sysRead (hr : h.Rest) (fd : Int) (buf buflen : BitVec 32) :
    Locks (sysRead fd buf buflen) AtRest h := by
  refine .ite (fun _ => hr) fun _ => neutral_inodeFile.locks_bind fun r => ?_
  cases r with
  | none => exact hr
  | some f => exact neutral_fileRead.locks_bind fun r => by cases r <;> exact hr

theorem locks_sysWrite (hr : h.Rest) (fd : Int) (buf buflen : BitVec 32) (fsbuf : Nat → Byte) :
    Locks (sysWrite fd buf buflen fsbuf) AtRest h := by
  refine .ite (fun _ => hr) fun _ => neutral_inodeFile.locks_bind fun r => ?_
  cases r with
  | none => exact hr
  | some f =>
    refine .bind (neutral_readFile.locks_bind fun file => .ite (fun _ => hr) fun _ =>
      .ite (fun _ => .bind (locks_fileWriteFrom hr fun done => ?_))
      fun _ => locks_kernPanic)
    cases done <;> exact hr

theorem locks_sysFstat (hr : h.Rest) (fd : Int) (stat : BitVec 32) :
    Locks (sysFstat fd stat) AtRest h := by
  refine .ite (fun _ => hr) fun _ => neutral_inodeFile.locks_bind fun r => ?_
  cases r with
  | none => exact hr
  | some f => exact neutral_fileStat.locks_bind fun r => by cases r <;> exact hr

theorem locks_linkBad (hr : h.Rest) : Locks (linkBad ip) AtRest { h with trans := true } := by
  refine .bind (locks_inodeLock (locks_update fun _ => ?_))
  exact .bind (locks_inodeUnlockput (locks_commit_return hr _))

theorem neutral_linkEntry : Neutral (linkEntry dp ip name) :=
  neutral_readInode.bind fun _ => neutral_readInode.bind fun _ =>
    .ite (neutral_pure _) neutral_dirLink

/-- `sys_link` gives back all locks. -/
theorem locks_sysLink (hr : h.Rest) (uold unew oldlen newlen : BitVec 32) (old new : List Byte) :
    Locks (sysLink uold unew oldlen newlen old new) AtRest h := by
  refine .ite (fun _ => hr) fun _ => neutral_namei.locks_bind fun r => ?_
  cases r with
  | none => exact hr
  | some ip =>
    refine .bind (locks_beginTrans hr (.bind (locks_inodeLock
      (neutral_readInode.locks_bind fun _ => .ite (fun _ => ?_) fun _ => ?_))))
    · exact .bind (locks_inodeUnlockput (locks_commit_return hr _))
    refine neutral_setDinode.locks_bind fun _ => neutral_inodeUpdate.locks_bind fun _ =>
      .bind (locks_inodeUnlock (neutral_namex.locks_bind fun r => ?_))
    cases r with
    | none => exact locks_linkBad hr
    | some r =>
      refine .bind (locks_inodeLock (neutral_linkEntry.locks_bind fun linked =>
        .bind (locks_inodeUnlockput (.ite (fun _ => locks_linkBad hr) fun _ => ?_))))
      exact neutral_inodePut.locks_bind fun _ => locks_commit_return hr _

theorem locks_unlinkBad (hr : h.Rest) :
    Locks (unlinkBad ip) AtRest (Held.lock { h with trans := true } ip) :=
  .bind (locks_inodeUnlockput (locks_commit_return hr _))

/-- `sys_unlink` gives back all locks. -/
theorem locks_sysUnlink (hr : h.Rest) (buf buflen : BitVec 32) (path : List Byte) :
    Locks (sysUnlink buf buflen path) AtRest h := by
  refine .ite (fun _ => hr) fun _ => neutral_namex.locks_bind fun r => ?_
  cases r with
  | none => exact hr
  | some r =>
    obtain ⟨dp, name⟩ := r
    refine .bind (locks_beginTrans hr (.bind (locks_inodeLock
      (.ite (fun _ => locks_unlinkBad hr) fun _ => neutral_dirLookup.locks_bind fun found => ?_))))
    cases found with
    | none => exact locks_unlinkBad hr
    | some found =>
      obtain ⟨ip, off⟩ := found
      refine .bind (locks_inodeLock (neutral_readInode.locks_bind fun inode =>
        .ite (fun _ => .bind locks_kernPanic) fun _ =>
        neutral_isFullDir.locks_bind fun full => .ite (fun _ => ?_) fun _ => ?_))
      · exact .bind (locks_inodeUnlockput (locks_unlinkBad hr))
      refine neutral_inodeWrite.locks_bind fun _ => .ite (fun _ => .bind locks_kernPanic) fun _ =>
        .join (fun hend => locks_update fun _ => hend)
          (.bind (locks_unlockput_under (locks_update fun _ => ?_)))
      exact .bind (locks_inodeUnlockput (locks_commit_return hr _))

theorem locks_sysMkdir (hr : h.Rest) (buf buflen : BitVec 32) (path : List Byte) :
    Locks (sysMkdir buf buflen path) AtRest h := by
  refine .ite (fun _ => hr) fun _ => .bind (locks_beginTrans hr (.bind
    (locks_create ?_ fun ip => ?_)))
  · exact locks_commit_return hr _
  · exact .bind (locks_inodeUnlockput (locks_commit_return hr _))

theorem locks_sysChdir (hr : h.Rest) (buf buflen : BitVec 32) (path : List Byte) :
    Locks (sysChdir buf buflen path) AtRest h := by
  refine .ite (fun _ => hr) fun _ => neutral_namei.locks_bind fun r => ?_
  cases r with
  | none => exact hr
  | some ip =>
    refine .bind (locks_inodeLock (neutral_readInode.locks_bind fun _ =>
      .ite (fun _ => locks_unlockput_return hr _) fun _ => ?_))
    exact .bind (locks_inodeUnlock (neutral_getCwd.locks_bind fun _ =>
      neutral_inodePut.locks_bind fun _ => neutral_setCwd.locks_bind fun _ => hr))

/-- Each file system call ends without locks and outside of a transaction. -/
theorem Syscall.locks (hr : h.Rest) (c : Syscall) : Locks c.code AtRest h := by
  cases c with
  | «open» buf omode buflen path => exact locks_sysOpen hr buf omode buflen path
  | close fd => exact locks_sysClose hr fd
  | read fd buf buflen => exact locks_sysRead hr fd buf buflen
  | write fd buf buflen fsbuf => exact locks_sysWrite hr fd buf buflen fsbuf
  | link uold unew oldlen newlen old new => exact locks_sysLink hr uold unew oldlen newlen old new
  | unlink buf buflen path => exact locks_sysUnlink hr buf buflen path
  | mkdir buf buflen path => exact locks_sysMkdir hr buf buflen path
  | chdir buf buflen path => exact locks_sysChdir hr buf buflen path
  | fstat fd stat => exact locks_sysFstat hr fd stat

end

end MCertikos
