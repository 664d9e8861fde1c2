import MCertikos.Fs.Sysfile
import MCertikos.Lib.Threads

/-!
# Code that works on locked data

The functions up to `inode_read` and `inode_write` only do operations on buffers and inodes that
the thread has locked, and on the log: they neither take nor give up references to inodes and
files, and they neither begin nor end a transaction. Only `log_write` itself panics when there is
none.
-/

namespace MCertikos

open Program

/-- The operations on buffers and on the log. -/
def FsOp.OnBlocks : FsOp → Prop
  | .bread _ | .bget _ | .bset _ _ | .bwrite _ | .brelse _ | .bdirty _ | .logGet |
    .logSetArea _ _ | .logSetSector _ _ | .logSetN _ | .logCheck | .inodeRead _ => True
  | .halt e => e ≠ .outsideTrans
  | _ => False

/-- The operations on locked data. -/
def FsOp.Low : FsOp → Prop
  | .inodeAcquire _ | .inodeSet _ _ | .inodeSetValid _ | .inodeUnlock _ | .fileAdvance _ _ => True
  | o => o.OnBlocks

/-- A program with operations on buffers and on the log only. -/
def Blocks {α : Type} (p : Fs α) : Prop := p.All FsOp.OnBlocks

/-- A program with operations on locked data only. -/
def Low {α : Type} (p : Fs α) : Prop := p.All FsOp.Low

section
variable {α β : Type}

theorem Blocks.low {p : Fs α} (h : Blocks p) : Low p :=
  Prog.All.mono (fun o ho => by cases o <;> first | exact ho | trivial) h

theorem blocks_pure (a : α) : Blocks (pure a : Fs α) := trivial

theorem Blocks.bind {p : Fs β} {f : β → Fs α} (hp : Blocks p) (hf : ∀ b, Blocks (f b)) :
    Blocks (p >>= f) :=
  Prog.all_bind hp hf

theorem Blocks.ite {c : Prop} [Decidable c] {p q : Fs α} (hp : Blocks p) (hq : Blocks q) :
    Blocks (if c then p else q) := Prog.All.ite hp hq

theorem blocks_call {o : FsOp} (ho : o.OnBlocks) : Blocks (.call (S := fsSig) o) :=
  Prog.all_call.2 ho

theorem blocks_kernPanic {e : Panic} (he : e ≠ .outsideTrans) : Blocks (kernPanic e : Fs α) :=
  ⟨he, nofun⟩

theorem low_pure (a : α) : Low (pure a : Fs α) := trivial

theorem Low.bind {p : Fs β} {f : β → Fs α} (hp : Low p) (hf : ∀ b, Low (f b)) : Low (p >>= f) :=
  Prog.all_bind hp hf

theorem Low.ite {c : Prop} [Decidable c] {p q : Fs α} (hp : Low p) (hq : Low q) :
    Low (if c then p else q) := Prog.All.ite hp hq

theorem low_call {o : FsOp} (ho : o.Low) : Low (.call (S := fsSig) o) := Prog.all_call.2 ho

end

theorem low_kernPanic {α : Type} {e : Panic} (he : e ≠ .outsideTrans) : Low (kernPanic e : Fs α) :=
  ⟨he, nofun⟩

theorem blocks_bufcacheRead (x : Nat) : Blocks (bufcacheRead x) := blocks_call trivial

theorem blocks_bufGet (x : Nat) : Blocks (bufGet x) := blocks_call trivial

theorem blocks_bufSet (x : Nat) (v : Block) : Blocks (bufSet x v) := blocks_call trivial

theorem blocks_bufcacheWrite (x : Nat) : Blocks (bufcacheWrite x) := blocks_call trivial

theorem blocks_bufcacheRelease (x : Nat) : Blocks (bufcacheRelease x) := blocks_call trivial

theorem blocks_bufDirty (x : Nat) : Blocks (bufDirty x) := blocks_call trivial

theorem blocks_logGet : Blocks logGet := blocks_call trivial

theorem blocks_logSetSector (i v : Nat) : Blocks (logSetSector i v) := blocks_call trivial

theorem blocks_logSetN (n : Nat) : Blocks (logSetN n) := blocks_call trivial

theorem blocks_logCheck : Blocks logCheck := blocks_call trivial

theorem low_inodeAcquire (ip : Nat) : Low (inodeAcquire ip) := low_call trivial

theorem blocks_readInode (ip : Nat) : Blocks (readInode ip) := blocks_call trivial

theorem low_setDinode (ip : Nat) (din : Dinode) : Low (setDinode ip din) := low_call trivial

theorem low_inodeSetValid (ip : Nat) : Low (inodeSetValid ip) := low_call trivial

theorem low_inodeUnlock (ip : Nat) : Low (inodeUnlock ip) := low_call trivial

theorem low_fileAdvance (f : Nat) (n : BitVec 32) : Low (fileAdvance f n) := low_call trivial

/-! ## The log and the block allocator -/

theorem blocks_logWrite (x : Nat) : Blocks (logWrite x) :=
  blocks_logCheck.bind fun _ => (blocks_logSetSector _ _).bind fun _ =>
    (blocks_bufcacheRead _).bind fun _ =>
    (blocks_bufGet _).bind fun _ => (blocks_bufSet _ _).bind fun _ =>
      (blocks_bufcacheWrite _).bind fun _ =>
    (blocks_bufcacheRelease _).bind fun _ =>
    .ite ((blocks_logSetN _).bind fun _ => blocks_bufDirty _) (blocks_bufDirty _)

theorem blocks_writeHead : Blocks writeHead :=
  blocks_logGet.bind fun _ => (blocks_bufcacheRead _).bind fun _ =>
    (blocks_bufSet _ _).bind fun _ =>
    (blocks_bufcacheWrite _).bind fun _ => blocks_bufcacheRelease _

theorem blocks_installFrom (l : Log) (tails : List Nat) : Blocks (installFrom l tails) := by
  induction tails with
  | nil => exact blocks_pure _
  | cons tail tails ih =>
    exact (blocks_bufcacheRead _).bind fun _ => (blocks_bufcacheRead _).bind fun _ =>
      (blocks_bufSet _ _).bind fun _ => (blocks_bufcacheWrite _).bind fun _ =>
      (blocks_bufcacheRelease _).bind fun _ => (blocks_bufcacheRelease _).bind fun _ => ih

theorem blocks_installTrans : Blocks installTrans :=
  blocks_logGet.bind fun _ => blocks_installFrom _ _

theorem blocks_readSuperblock : Blocks readSuperblock :=
  (blocks_bufcacheRead _).bind fun _ => (blocks_bufcacheRelease _).bind fun _ => blocks_pure _

/-- The code after a buffer was changed. -/
theorem blocks_logged (x : Nat) (v : Block) {α : Type} {p : Fs α} (hp : Blocks p) : Blocks (do
    bufSet x v
    logWrite x
    bufcacheRelease x
    p) :=
  (blocks_bufSet _ _).bind fun _ => (blocks_logWrite _).bind fun _ =>
    (blocks_bufcacheRelease _).bind fun _ => hp

theorem low_logged (x : Nat) (v : Block) {α : Type} {p : Fs α} (hp : Low p) : Low (do
    bufSet x v
    logWrite x
    bufcacheRelease x
    p) :=
  (blocks_bufSet _ _).low.bind fun _ => (blocks_logWrite _).low.bind fun _ =>
    (blocks_bufcacheRelease _).low.bind fun _ => hp

theorem blocks_blockZero (b : Nat) : Blocks (blockZero b) :=
  (blocks_bufcacheRead _).bind fun _ => blocks_logged _ _ (blocks_pure ())

theorem blocks_blockAllocFrom (sb : Superblock) (bs : List Nat) :
    Blocks (blockAllocFrom sb bs) := by
  induction bs with
  | nil => exact blocks_kernPanic (by decide)
  | cons b bs ih =>
    refine (blocks_bufcacheRead _).bind fun data => ?_
    split
    · exact blocks_logged _ _ ((blocks_blockZero _).bind fun _ => blocks_pure _)
    · exact (blocks_bufcacheRelease _).bind fun _ => ih

theorem blocks_blockAlloc : Blocks blockAlloc :=
  blocks_readSuperblock.bind fun _ => blocks_blockAllocFrom _ _

theorem blocks_blockFree (b : Nat) : Blocks (blockFree b) :=
  blocks_readSuperblock.bind fun _ => (blocks_bufcacheRead _).bind fun _ =>
    .ite ((blocks_kernPanic (by decide)).bind fun _ => blocks_logged _ _ (blocks_pure ()))
      (blocks_logged _ _ (blocks_pure ()))

/-! ## Inodes -/

theorem blocks_inodeUpdate (ip : Nat) : Blocks (inodeUpdate ip) :=
  (blocks_readInode _).bind fun _ => (blocks_bufcacheRead _).bind fun _ =>
    blocks_logged _ _ (blocks_pure ())

theorem low_inodeLock (ip : Nat) : Low (inodeLock ip) :=
  (low_inodeAcquire _).bind fun _ => .ite ((blocks_readInode _).low.bind fun _ =>
    (blocks_bufcacheRead _).low.bind fun _ => (low_setDinode _ _).bind fun _ =>
    (blocks_bufcacheRelease _).low.bind fun _ => (low_inodeSetValid _).bind fun _ =>
    .ite (low_kernPanic (by decide)) (low_pure _)) (low_pure _)

theorem low_indirectBlock (ip : Nat) : Low (indirectBlock ip) :=
  (blocks_readInode _).low.bind fun _ =>
    .ite (blocks_blockAlloc.low.bind fun _ => (low_setDinode _ _).bind fun _ =>
    low_pure _) (low_pure _)

theorem blocks_indirectEntry (ind bn : Nat) : Blocks (indirectEntry ind bn) :=
  (blocks_bufcacheRead _).bind fun _ =>
    .ite (blocks_blockAlloc.bind fun _ => blocks_logged _ _ (blocks_pure _))
      ((blocks_bufcacheRelease _).bind fun _ => blocks_pure _)

theorem low_bmap (ip bn : Nat) : Low (bmap ip bn) :=
  .ite ((blocks_readInode _).low.bind fun _ => .ite (blocks_blockAlloc.low.bind fun _ =>
      (low_setDinode _ _).bind fun _ => low_pure _) (low_pure _))
    (.ite ((low_indirectBlock _).bind fun _ => (blocks_indirectEntry _ _).low)
      (low_kernPanic (by decide)))

theorem low_truncDirect (ip : Nat) (is : List Nat) : Low (truncDirect ip is) := by
  induction is with
  | nil => exact low_pure _
  | cons i is ih =>
    exact (blocks_readInode _).low.bind fun _ => .ite ((blocks_blockFree _).low.bind fun _ =>
      (low_setDinode _ _).bind fun _ => ih) ih

theorem low_truncIndirect (data : Block) (js : List Nat) : Low (truncIndirect data js) := by
  induction js with
  | nil => exact low_pure _
  | cons j js ih => exact .ite ((blocks_blockFree _).low.bind fun _ => ih) ih

theorem low_inodeTrunc (ip : Nat) : Low (inodeTrunc ip) := by
  have hend : Low (do
      let inode ← readInode ip
      setDinode ip { inode.din with size := 0 }
      inodeUpdate ip) :=
    (blocks_readInode _).low.bind fun _ => (low_setDinode _ _).bind fun _ =>
      (blocks_inodeUpdate _).low
  exact (low_truncDirect _ _).bind fun _ => (blocks_readInode _).low.bind fun _ =>
    .ite ((blocks_bufcacheRead _).low.bind fun _ => (low_truncIndirect _ _).bind fun _ =>
      (blocks_bufcacheRelease _).low.bind fun _ => (blocks_blockFree _).low.bind fun _ =>
      (low_setDinode _ _).bind fun _ => hend) hend

theorem low_inodeReadFrom (ip turns off n : Nat) : Low (inodeReadFrom ip turns off n) := by
  induction turns generalizing off n with
  | zero => exact low_pure _
  | succ turns ih =>
    exact .ite (low_pure _) ((low_bmap _ _).bind fun _ => (blocks_bufcacheRead _).low.bind fun _ =>
      (blocks_bufcacheRelease _).low.bind fun _ => (ih _ _).bind fun _ => low_pure _)

theorem low_inodeRead (ip : Nat) (off n : BitVec 32) : Low (inodeRead ip off n) :=
  (blocks_readInode _).low.bind fun _ => .ite (low_pure _) (.ite (low_pure _)
    ((low_inodeReadFrom _ _ _ _).bind fun _ => low_pure _))

theorem low_inodeWriteFrom (ip turns off : Nat) (src : List Byte) :
    Low (inodeWriteFrom ip turns off src) := by
  induction turns generalizing off src with
  | zero => exact low_pure _
  | succ turns ih =>
    exact .ite (low_pure _) ((low_bmap _ _).bind fun _ => (blocks_bufcacheRead _).low.bind fun _ =>
      low_logged _ _ (ih _ _))

theorem low_inodeWrite (ip : Nat) (src : List Byte) (off : BitVec 32) :
    Low (inodeWrite ip src off) :=
  (blocks_readInode _).low.bind fun _ => .ite (low_pure _) (.ite (low_pure _) (.ite (low_pure _)
    ((low_inodeWriteFrom _ _ _ _).bind fun _ => (blocks_readInode _).low.bind fun _ =>
      .ite ((low_setDinode _ _).bind fun _ => (blocks_inodeUpdate _).low.bind fun _ => low_pure _)
        (low_pure _))))

/-! ## Directories -/

theorem low_readDirent (dp off : Nat) : Low (readDirent dp off) := by
  refine (low_inodeRead _ _ _).bind fun r => ?_
  cases r with
  | none => exact low_kernPanic (by decide)
  | some bs => exact .ite (low_pure _) (low_kernPanic (by decide))

theorem low_freeEntryFrom (dp last : Nat) (offs : List Nat) :
    Low (freeEntryFrom dp last offs) := by
  induction offs with
  | nil => exact low_pure _
  | cons off offs ih => exact (low_readDirent _ _).bind fun _ => .ite (low_pure _) ih

theorem low_isdiremptyFrom (dp : Nat) (offs : List Nat) : Low (isdiremptyFrom dp offs) := by
  induction offs with
  | nil => exact low_pure _
  | cons off offs ih =>
    refine (low_inodeRead _ _ _).bind fun r => ?_
    cases r with
    | none => exact low_kernPanic (by decide)
    | some bs =>
      exact .ite ((low_kernPanic (by decide)).bind fun _ => .ite (low_pure _) ih)
        (.ite (low_pure _) ih)

theorem low_isdirempty (dp : Nat) : Low (isdirempty dp) :=
  (blocks_readInode _).low.bind fun _ => low_isdiremptyFrom _ _

theorem low_isFullDir (ip : Nat) : Low (isFullDir ip) :=
  (blocks_readInode _).low.bind fun _ =>
    .ite (low_pure _) ((low_isdirempty _).bind fun _ => low_pure _)

end MCertikos
