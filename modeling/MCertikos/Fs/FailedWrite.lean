import MCertikos.Fs.FileIo
import MCertikos.Fs.Low

/-!
# Writes that fail

`file_write` returns -1 if `inode_write` does, which tests for each part of the data whether it
lies within the maximal size of a file. If this fails for the first part, then nothing was written.
If it fails for a later part, then the parts before it are already committed. This happens if and
only if the maximal size lies behind the first part and before the end of the data (`Splits`).

That no later part fails otherwise has to be shown without any knowledge of the disk: there may be
too few free blocks, and then the run does not stop before it has damaged the log. What
`inode_write` tests is in memory, though, so it is enough to follow the offset of the open file and
the size of the inode in memory through a run over arbitrary buffers (`Cursor`).
-/

namespace MCertikos

open Program BitField

/-! ## The tables in memory -/

/-- The operations that leave the inode cache and the file table alone. -/
def FsOp.Still : FsOp → Prop
  | .logAcquire | .logRelease => True
  | o => o.OnBlocks

/-- A program with such operations only. -/
def Still {α : Type} (p : Fs α) : Prop := p.All FsOp.Still

section
variable {α β B : Type} {L : BufLayer B} {pid : Nat} {s : FsState B}

theorem fsHandler_still {o : FsOp} (ho : o.Still) (s : FsState B) :
    (fsHandler L pid o s).state.inode = s.inode ∧ (fsHandler L pid o s).state.file = s.file := by
  have hpart : o.part ≠ .inode ∧ o.part ≠ .file := by
    cases o <;> simp [FsOp.Still, FsOp.OnBlocks, FsOp.part] at ho ⊢
  exact ⟨(fsHandler_only L pid o s).inode hpart.1, (fsHandler_only L pid o s).file hpart.2⟩

/-- Partial correctness, over arbitrary buffers: if the program returns, it does so with `Q`. -/
def pwp (L : BufLayer B) (pid : Nat) (p : Fs α) (Q : α → FsState B → Prop)
    (s : FsState B) : Prop :=
  (fsHandler L pid).Wp p Q (fun _ _ => True) (fun _ => True) s

theorem pwp_pure {a : α} {Q : α → FsState B → Prop} (h : Q a s) : pwp L pid (pure a) Q s := h

theorem pwp_bind {p : Fs β} {f : β → Fs α} {Q : α → FsState B → Prop}
    (h : pwp L pid p (fun r t => pwp L pid (f r) Q t) s) : pwp L pid (p >>= f) Q s :=
  Handler.wp_bind.2 h

theorem pwp_mono {p : Fs α} {Q Q' : α → FsState B → Prop} (h : pwp L pid p Q s)
    (hQ : ∀ r t, Q r t → Q' r t) : pwp L pid p Q' s :=
  Handler.Wp.mono h hQ (fun _ _ he => he) fun _ hb => hb

theorem pwp_ite {c : Prop} [Decidable c] {p q : Fs α} {Q : α → FsState B → Prop}
    (hp : c → pwp L pid p Q s) (hq : ¬ c → pwp L pid q Q s) :
    pwp L pid (if c then p else q) Q s := by
  split
  · exact hp ‹c›
  · exact hq ‹¬ c›

theorem pwp_call {o : FsOp} {Q : o.Resp → FsState B → Prop}
    (h : (fsHandler L pid o s).Sat Q (fun _ _ => True) fun _ => True) :
    pwp L pid (.call (S := fsSig) o) Q s := Handler.wp_call.2 h

/-- Such a program leaves the tables alone. -/
theorem Still.pwp {p : Fs α} (hp : Still p) {Q : α → FsState B → Prop}
    (hQ : ∀ r t, t.inode = s.inode → t.file = s.file → Q r t) : pwp L pid p Q s := by
  induction p generalizing s with
  | pure a => exact hQ a s rfl rfl
  | op o k ih =>
    obtain ⟨hinode, hfile⟩ := @fsHandler_still B L pid o hp.1 s
    refine (Handler.wp_bind (p := Prog.call (S := fsSig) o) (f := k)).2 (pwp_call ?_)
    cases hr : fsHandler L pid o s with
    | ok r t =>
      rw [hr] at hinode hfile
      exact ih r (hp.2 r) fun a u hi hf => hQ a u (hi.trans hinode) (hf.trans hfile)
    | panic e t => trivial
    | blocked t => trivial

theorem Blocks.still {p : Fs α} (h : Blocks p) : Still p :=
  Prog.All.mono (fun o ho => by cases o <;> first | exact ho | trivial) h

theorem Still.bind {p : Fs β} {f : β → Fs α} (hp : Still p) (hf : ∀ b, Still (f b)) :
    Still (p >>= f) :=
  Prog.all_bind hp hf

end

theorem still_beginTrans : Still beginTrans := Prog.all_call.2 trivial

theorem still_commitTrans : Still commitTrans := by
  have hrelease : Still (.call (S := fsSig) .logRelease) := Prog.all_call.2 trivial
  refine blocks_logGet.still.bind fun l => Prog.All.ite ?_ hrelease
  exact blocks_writeHead.still.bind fun _ => blocks_installTrans.still.bind fun _ =>
    (blocks_logSetN _).still.bind fun _ => blocks_writeHead.still.bind fun _ => hrelease

/-! ## The offset and the size -/

/-- What the tests of `file_write` depend on: the open file `f` has the offset `off`, and its inode
in memory is that of a file of the given size. -/
structure Cursor {B : Type} (f ip : Nat) (off size : BitVec 32) (s : FsState B) : Prop where
  entry : (s.file f).ip = ip
  offset : (s.file f).off = off
  valid : (s.inode ip).valid = true
  type : (s.inode ip).din.type = tFile
  size : (s.inode ip).din.size = size

section
variable {B : Type} {L : BufLayer B} {pid f ip turns : Nat} {off size : BitVec 32}
  {s t : FsState B} {src : List Byte}

theorem Cursor.congr (h : Cursor f ip off size s) (hinode : t.inode = s.inode)
    (hfile : t.file = s.file) :
    Cursor f ip off size t := by
  refine ⟨?_, ?_, ?_, ?_, ?_⟩
  · rw [hfile]
    exact h.entry
  · rw [hfile]
    exact h.offset
  · rw [hinode]
    exact h.valid
  · rw [hinode]
    exact h.type
  · rw [hinode]
    exact h.size

theorem Cursor.setDin (h : Cursor f ip off size s) (din : Dinode) {size' : BitVec 32}
    (htype : din.type = tFile) (hsize : din.size = size') :
    Cursor f ip off size' { s with inode := s.inode.setDin ip din } := by
  have hentry : (s.inode.setDin ip din) ip = { s.inode ip with din } := Function.update_self _ _ _
  exact ⟨h.entry, h.offset, (congrArg Inode.valid hentry).trans h.valid,
    (congrArg (fun x => x.din.type) hentry).trans htype,
    (congrArg (fun x => x.din.size) hentry).trans hsize⟩

theorem Cursor.setBusy (h : Cursor f ip off size s) {b : Bool} :
    Cursor f ip off size { s with inode := s.inode.setBusy ip b } := by
  have hentry : (s.inode.setBusy ip b) ip = { s.inode ip with busy := b } :=
    Function.update_self _ _ _
  exact ⟨h.entry, h.offset, (congrArg Inode.valid hentry).trans h.valid,
    (congrArg (fun x => x.din.type) hentry).trans h.type,
    (congrArg (fun x => x.din.size) hentry).trans h.size⟩

theorem pwp_readInode {Q : Inode → FsState B → Prop} (h : Q (s.inode ip) s) :
    pwp L pid (readInode ip) Q s :=
  pwp_call (o := .inodeRead ip) h

theorem pwp_readFile {Q : File → FsState B → Prop} (h : Q (s.file f) s) :
    pwp L pid (readFile f) Q s :=
  pwp_call (o := .fileGet f) h

theorem pwp_getOpenfile {fd : Nat} {Q : Option Nat → FsState B → Prop}
    (h : Q (s.openfiles pid fd) s) :
    pwp L pid (getOpenfile fd) Q s := pwp_call (o := .getOpenfile fd) h

theorem pwp_setDinode {din : Dinode} {Q : Unit → FsState B → Prop}
    (h : Q () { s with inode := s.inode.setDin ip din }) : pwp L pid (setDinode ip din) Q s :=
  pwp_call (o := .inodeSet ip din) h

/-- A block is allocated and a pointer of the inode is set to it. -/
theorem Cursor.newBlock (h : Cursor f ip off size s) {k : Nat} :
    pwp L pid (do
      let addr ← blockAlloc
      setDinode ip ((s.inode ip).din.setAddr k (BitVec.ofNat 32 addr))
      return addr) (fun _ t => Cursor f ip off size t) s :=
  pwp_bind (blocks_blockAlloc.still.pwp fun _ _ hi hf => pwp_bind (pwp_setDinode (pwp_pure
    ((h.congr hi hf).setDin _ h.type h.size))))

theorem Cursor.bmap (h : Cursor f ip off size s) {bn : Nat} :
    pwp L pid (bmap ip bn) (fun _ t => Cursor f ip off size t) s := by
  refine pwp_ite (fun _ => ?_) fun _ => pwp_ite (fun _ => ?_) fun _ => ?_
  · exact pwp_bind (pwp_readInode (pwp_ite (fun _ => h.newBlock) fun _ => pwp_pure h))
  · have hind : pwp L pid (indirectBlock ip) (fun _ t => Cursor f ip off size t) s :=
      pwp_bind (pwp_readInode (pwp_ite (fun _ => h.newBlock) fun _ => pwp_pure h))
    exact pwp_bind (pwp_mono hind fun ind t ht => (blocks_indirectEntry _ _).still.pwp
      fun _ u hi hf =>
      ht.congr hi hf)
  · exact (blocks_kernPanic (by decide)).still.pwp fun _ t hi hf => h.congr hi hf

theorem Cursor.inodeWriteFrom (h : Cursor f ip off size s) {o : Nat} :
    pwp L pid (inodeWriteFrom ip turns o src) (fun _ t => Cursor f ip off size t) s := by
  induction turns generalizing s o src with
  | zero => exact pwp_pure h
  | succ turns ih =>
    refine pwp_ite (fun _ => pwp_pure h) fun _ => pwp_bind (pwp_mono h.bmap fun bno t ht => ?_)
    refine pwp_bind ((blocks_bufcacheRead _).still.pwp fun _ u hi hf => ?_)
    refine pwp_bind ((blocks_bufSet _ _).still.pwp fun _ v hi' hf' => ?_)
    refine pwp_bind ((blocks_logWrite _).still.pwp fun _ w hi'' hf'' => ?_)
    refine pwp_bind ((blocks_bufcacheRelease _).still.pwp fun _ x hi₃ hf₃ => ?_)
    exact ih ((((ht.congr hi hf).congr hi' hf').congr hi'' hf'').congr hi₃ hf₃)

/-- `inode_write` within the limits returns the number of bytes, and the inode is not shorter than
where it ends. -/
theorem Cursor.inodeWrite (h : Cursor f ip off size s) (hoff : off.toNat ≤ size.toNat)
    (hmax : off.toNat + src.length ≤ maxFile * bSize) :
    pwp L pid (inodeWrite ip src off) (fun r t => r = some src.length ∧
      ∃ size', off.toNat + src.length ≤ size'.toNat ∧ Cursor f ip off size' t) s := by
  have hbig : maxFile * bSize = 71680 := rfl
  have hadd : (off + BitVec.ofNat 32 src.length).toNat = off.toNat + src.length :=
    toNat_add_ofNat (by omega)
  refine pwp_bind (pwp_readInode ?_)
  refine pwp_ite (fun ht => ?_) fun _ => pwp_ite (fun hc => ?_) fun _ =>
    pwp_ite (fun hc => ?_) fun _ => ?_
  · rw [h.type] at ht
    cases ht
  · rw [h.size, BitVec.lt_def, BitVec.lt_def, hadd] at hc
    omega
  · rw [BitVec.lt_def, hadd, hbig] at hc
    exact absurd (show 71680 < _ from hc) (by omega)
  refine pwp_bind (pwp_mono h.inodeWriteFrom fun _ t ht => pwp_bind (pwp_readInode ?_))
  refine pwp_ite (fun _ => ?_) fun hc => pwp_pure ⟨rfl, size, ?_, ht⟩
  · have hset := ht.setDin { (t.inode ip).din with size := off + BitVec.ofNat 32 src.length }
      ht.type rfl
    exact pwp_bind (pwp_setDinode (pwp_bind ((blocks_inodeUpdate _).still.pwp fun _ u hi hf =>
      pwp_pure ⟨rfl, _, hadd.ge, hset.congr hi hf⟩)))
  · rw [ht.size, BitVec.lt_def, BitVec.lt_def, hadd, BitVec.toNat_ofNat,
      Nat.mod_eq_of_lt (by omega)] at hc
    rw [show (0 : BitVec 32).toNat = 0 from rfl] at hc
    omega

/-- Within the limits, a turn writes its part and advances the offset. -/
theorem Cursor.writeLocked {β : Type} {k : Option Nat → Fs β} {Q : β → FsState B → Prop}
    (h : Cursor f ip off size s) (hoff : off.toNat ≤ size.toNat)
    (hmax : off.toNat + src.length ≤ maxFile * bSize)
    (hk : ∀ t off' size', off'.toNat = off.toNat + src.length → off'.toNat ≤ size'.toNat →
      Cursor f ip off' size' t → pwp L pid (k (some src.length)) Q t) :
    pwp L pid (writeLocked f src k (s.file f)) Q s := by
  have hbig : maxFile * bSize = 71680 := rfl
  have hadd : (off + BitVec.ofNat 32 src.length).toNat = off.toNat + src.length :=
    toNat_add_ofNat (by omega)
  rw [MCertikos.writeLocked, h.entry, h.offset]
  refine pwp_bind (pwp_mono (h.inodeWrite hoff hmax) ?_)
  rintro _ t ⟨rfl, size', hle, ht⟩
  -- The offset is advanced, if by anything at all.
  have hrest : ∀ u, Cursor f ip (off + BitVec.ofNat 32 src.length) size' u →
      pwp L pid (do inodeUnlock ip; commitTrans; k (some src.length)) Q u := by
    intro u hu
    refine pwp_bind (pwp_call (o := .inodeUnlock ip) ?_)
    simp only [fsHandler, FsState.inodeUnlock]
    split_ifs
    · trivial
    exact pwp_bind (still_commitTrans.pwp fun _ v hi hf => hk v _ size' hadd (hadd.trans_le hle)
      (hu.setBusy.congr hi hf))
  refine pwp_ite (fun _ => pwp_bind (pwp_call (o := .fileAdvance f _) (hrest _ ?_)))
    fun h0 => hrest t ?_
  · have hentry : ∀ file : File, (Function.update t.file f file) f = file :=
      fun _ => Function.update_self _ _ _
    refine ⟨(congrArg File.ip (hentry _)).trans ht.entry,
      (congrArg File.off (hentry _)).trans ?_, ht.valid, ht.type, ht.size⟩
    rw [ht.offset]
  · rwa [show src.length = 0 by omega, BitVec.add_zero]

/-- `inode_lock` of an inode that is in memory. -/
theorem Cursor.inodeLock (h : Cursor f ip off size s) :
    pwp L pid (inodeLock ip) (fun _ t => Cursor f ip off size t) s := by
  refine pwp_bind (pwp_call (o := .inodeAcquire ip) ?_)
  simp only [fsHandler, FsState.inodeAcquire]
  split_ifs
  · trivial
  · trivial
  · refine pwp_ite (fun hv => ?_) fun _ => pwp_pure h.setBusy
    rw [h.valid] at hv
    cases hv

/-- A turn within the limits, if the turns after it do not fail. -/
theorem Cursor.writeNext (h : Cursor f ip off size s) (hoff : off.toNat ≤ size.toNat)
    (hmax : off.toNat + src.length ≤ maxFile * bSize)
    (ih : ∀ {t : FsState B} {off' size' : BitVec 32} {src' : List Byte}, Cursor f ip off' size' t →
      off'.toNat ≤ size'.toNat → off'.toNat + src'.length ≤ maxFile * bSize →
      pwp L pid (fileWriteFrom f turns src') (fun r _ => r = true) t) :
    pwp L pid (MCertikos.writeLocked f (src.take (min src.length fileWriteMax))
      (writeNext f turns src)
      (s.file f)) (fun r _ => r = true) s := by
  have htake : (src.take (min src.length fileWriteMax)).length = min src.length fileWriteMax := by
    rw [List.length_take]
    omega
  refine h.writeLocked hoff (by omega) fun t off' size' hoff' hle ht => ?_
  refine pwp_ite (fun hlt => absurd htake hlt) fun _ => ih ht hle ?_
  rw [List.length_drop]
  omega

/-- Within the limits the loop of `file_write` does not fail. -/
theorem Cursor.fileWriteFrom (h : Cursor f ip off size s) (hoff : off.toNat ≤ size.toNat)
    (hmax : off.toNat + src.length ≤ maxFile * bSize) :
    pwp L pid (fileWriteFrom f turns src) (fun r _ => r = true) s := by
  induction turns generalizing off size src s with
  | zero => exact pwp_pure rfl
  | succ turns ih =>
    rw [fileWriteFrom_succ]
    refine pwp_ite (fun _ => pwp_pure rfl) fun _ => ?_
    rw [writeTurn_eq]
    refine pwp_bind (pwp_bind (still_beginTrans.pwp fun _ t hi hf => pwp_bind (pwp_readFile ?_)))
    have ht := h.congr hi hf
    rw [ht.entry]
    refine pwp_mono ht.inodeLock fun _ u hu => pwp_bind (pwp_readFile ?_)
    exact hu.writeNext hoff hmax fun ht' => ih ht'

end

/-! ## Failures -/

/-- The maximal size of a file lies behind the first part of what is written and before its end. -/
def Splits (off n size : Nat) : Prop :=
  off ≤ size ∧ fileWriteMax < n ∧ off + fileWriteMax ≤ maxFile * bSize ∧ maxFile * bSize < off + n

section
variable {A : Allow} {pid f ip i : Nat} {a : FsState Vol} {D : Nat → Dinode} {off : BitVec 32}
  {src : List Byte} {Q : Option Nat → FsState Vol → Prop}

/-- `inode_write` behind the end of the file or beyond the limit does nothing. -/
theorem vwp_inodeWrite_fails (hdin : (a.inode ip).din = D i) (hlen : src.length < 2 ^ 32)
    (hmax : (D i).size.toNat ≤ maxFile * bSize)
    (hbad : (D i).size.toNat < off.toNat ∨ maxFile * bSize < off.toNat + src.length)
    (hQ : Q none a) :
    vwp A pid (inodeWrite ip src off) Q a := by
  have hbig : maxFile * bSize = 71680 := rfl
  refine vwp_bind (vwp_readInode ?_)
  rw [hdin]
  refine vwp_ite (fun _ => vwp_pure hQ) fun _ => vwp_ite (fun _ => vwp_pure hQ) fun hc =>
    vwp_ite (fun _ => vwp_pure hQ) fun hc' => ?_
  rw [BitVec.lt_def, BitVec.lt_def, not_or, Nat.not_lt, Nat.not_lt, BitVec.toNat_add,
    BitVec.toNat_ofNat, Nat.mod_eq_of_lt hlen] at hc
  have hadd : (off + BitVec.ofNat 32 src.length).toNat = off.toNat + src.length :=
    toNat_add_ofNat (by omega)
  rw [BitVec.lt_def, Nat.not_lt, hadd, hbig] at hc'
  have : off.toNat + src.length ≤ 71680 := hc'
  omega

/-- Only the inode at `ip` in memory may have changed. -/
structure FsState.Reloaded (ip : Nat) (a a' : FsState Vol) : Prop where
  bufs : a'.bufs = a.bufs
  file : a'.file = a.file
  cache : ∀ e ≠ ip, a'.inode e = a.inode e
  openfiles : a'.openfiles = a.openfiles
  cwd : a'.cwd = a.cwd
  log : a'.log.size = a.log.size

theorem FsState.Reloaded.written {a' : FsState Vol} (h : a.Reloaded ip a')
    (hoff : (a.file f).off.toNat ≤ (D i).size.toNat) : FileWritten f ip i [] a D a' D := by
  have hnil : FileWritten f ip i [] a D a D := .nil hoff
  refine ⟨?_, hnil.size, hnil.fields, hnil.inodes, fun j _ _ => ?_,
    h.file.trans hnil.file, h.cache, h.openfiles, h.cwd, ?_, h.log, fun L hL => ?_⟩ <;> rw [h.bufs]
  · exact hnil.contents
  · exact hnil.blocks L hL

/-- A turn whose part is behind the end of the file or beyond the limit. -/
theorem vwp_writeTurn_fails {β : Type} {k : Option Nat → Fs β} {Q : β → FsState Vol → Prop}
    (h : IdleFile a D f ip i) (hlen : src.length < 2 ^ 32)
    (hbad : (D i).size.toNat < (a.file f).off.toNat ∨
      maxFile * bSize < (a.file f).off.toNat + src.length)
    (hk : ∀ a', IdleFile a' D f ip i → a.Reloaded ip a' → vwp A pid (k none) Q a') :
    vwp A pid (writeTurn f src k) Q a := by
  rw [writeTurn_eq]
  refine vwp_bind (h.vwp_writeLock (vwp_bind (vwp_readFile ?_)))
  rw [writeLocked, show ((a.begun.lockInode ip (D i)).file f).ip = ip from h.entry]
  have hlocked := h.consistent.begun.lockInode h.inum
  have hopens : (a.begun.lockInode ip (D i)).Opens ip i := FsState.opens_lockInode h.ref h.inum
  refine vwp_bind (vwp_inodeWrite_fails (hlocked.cached ip i hopens)
    hlen (h.consistent.full i h.alloc).1 hbad ?_)
  refine vwp_bind (vwp_inodeUnlock ?_ hopens.ref ?_)
  · exact congrArg Inode.busy FsState.setEntry_self
  refine vwp_bind (vwp_commitTrans h.held (.inr ?_) ?_)
  · rw [show ((a.begun.lockInode ip (D i)).setEntry ip _).log.n = 0 from h.empty]
    decide
  have hsame : (a.begun.lockInode ip (D i)).seek f (a.file f).off =
      a.begun.lockInode ip (D i) := by
    have hzero := FsState.seek_zero (a := a.begun.lockInode ip (D i)) (f := f)
    rwa [BitVec.add_zero] at hzero
  have hturn : IdleFile ((a.begun.lockInode ip (D i)).turned f ip (a.file f).off) D f ip i :=
    h.turned hlocked .refl h.alloc h.type
  rw [FsState.turned, hsame] at hturn
  refine hk _ hturn ⟨rfl, rfl, fun e hne => ?_, rfl, rfl, rfl⟩
  exact (FsState.setEntry_of_ne hne).trans (FsState.setEntry_of_ne hne)

theorem FsState.View.file {s : FsState BufCache} (h : s.View a) : s.file = a.file := by
  obtain ⟨u, hrep, hshows⟩ := h
  exact (congrArg FsState.file hrep.1).trans (congrArg FsState.file hshows.1)

/-- What is done without a panic is done over the buffer cache. -/
theorem vwp.pwp {α : Type} {p : Fs α} {Q : α → FsState Vol → Prop}
    (h : vwp ⟨fun _ => False, False⟩ pid p Q a) {s : FsState BufCache} (hs : s.View a) :
    pwp BufCache.layer pid p (fun r t => ∃ b, t.View b ∧ Q r b) s :=
  (h.run hs nofun).mono (fun _ _ hq => hq) (fun _ _ _ => trivial) fun _ _ => trivial

/-- The file and the open file are as before. -/
def Unwritten (f ip i : Nat) (a : FsState Vol) (D : Nat → Dinode) (s : FsState BufCache) : Prop :=
  ∃ a', s.View a' ∧ IdleFile a' D f ip i ∧ a'.bufs = a.bufs ∧ a'.file = a.file

section
variable {s : FsState BufCache}

/-- The first turn of the loop, when it is within the limits. -/
theorem IdleFile.writeTurn_within (h : IdleFile a D f ip i) (hs : s.View a) {turns : Nat}
    (hoff : (a.file f).off.toNat ≤ (D i).size.toNat)
    (hmax : (a.file f).off.toNat + src.length ≤ maxFile * bSize) :
    pwp BufCache.layer pid (fileWriteFrom f turns src) (fun r _ => r = true) s := by
  cases turns with
  | zero => exact pwp_pure rfl
  | succ turns =>
    rw [fileWriteFrom_succ]
    refine pwp_ite (fun _ => pwp_pure rfl) fun _ => ?_
    rw [writeTurn_eq]
    have hlock : vwp ⟨fun _ => False, False⟩ pid (writeLock f)
        (fun _ b => b = a.begun.lockInode ip (D i)) a := h.vwp_writeLock rfl
    refine pwp_bind (pwp_mono (hlock.pwp hs) ?_)
    rintro _ u ⟨_, hu, rfl⟩
    have hentry : u.inode ip = { a.inode ip with busy := true, valid := true, din := D i } := by
      rw [hu.inode]
      exact FsState.setEntry_self
    have hcursor : Cursor f ip (a.file f).off (D i).size u := by
      refine ⟨?_, ?_, ?_, ?_, ?_⟩
      · rw [hu.file]
        exact h.entry
      · rw [hu.file]
        rfl
      · rw [hentry]
      · rw [hentry]
        exact h.type
      · rw [hentry]
    exact pwp_bind (pwp_readFile (hcursor.writeNext hoff hmax fun hc => hc.fileWriteFrom))

/-- `file_write`, if the maximal size does not lie between its parts. -/
theorem IdleFile.fileWrite_fails (h : IdleFile a D f ip i) (hs : s.View a)
    (hlen : src.length < 2 ^ 32) (hsplit :
      ¬ ((a.file f).writable = true ∧ Splits (a.file f).off.toNat src.length (D i).size.toNat)) :
    pwp BufCache.layer pid (fileWrite f src) (fun r t => r = none → Unwritten f ip i a D t) s := by
  refine pwp_bind (pwp_readFile ?_)
  rw [hs.file]
  refine pwp_ite (fun _ => pwp_pure fun _ => ⟨a, hs, h, rfl, rfl⟩) fun hwritable => ?_
  have hwhole : ¬ Splits (a.file f).off.toNat src.length (D i).size.toNat :=
    fun hc => hsplit ⟨by simpa using hwritable, hc⟩
  refine pwp_ite (fun _ => ?_) fun ht => absurd h.isInode ht
  by_cases hbad : (D i).size.toNat < (a.file f).off.toNat ∨
      maxFile * bSize < (a.file f).off.toNat + min src.length fileWriteMax
  · -- The first part fails, and the loop ends.
    have hloop : vwp ⟨fun _ => False, False⟩ pid (fileWriteFrom f src.length src)
      (fun r a' => r = false →
        IdleFile a' D f ip i ∧ a'.bufs = a.bufs ∧ a'.file = a.file) a := by
      cases hn : src.length with
      | zero => exact vwp_pure nofun
      | succ turns =>
        rw [fileWriteFrom_succ]
        refine vwp_ite (fun _ => vwp_pure nofun) fun _ => ?_
        have htake : (src.take (min src.length fileWriteMax)).length =
            min src.length fileWriteMax := by
          rw [List.length_take]
          omega
        exact vwp_writeTurn_fails h (by omega) (by rwa [htake]) fun a' h' hre =>
          vwp_pure fun _ => ⟨h', hre.bufs, hre.file⟩
    refine pwp_bind (pwp_mono (hloop.pwp hs) ?_)
    rintro r t ⟨a', ht, hr⟩
    refine pwp_pure fun hnone => ⟨a', ht, hr ?_⟩
    cases r with
    | true => cases hnone
    | false => rfl
  · -- The first part does not fail, and so none does.
    rw [not_or, Nat.not_lt, Nat.not_lt] at hbad
    have hmax : (a.file f).off.toNat + src.length ≤ maxFile * bSize := by
      simp only [Splits, not_and, Nat.not_lt] at hwhole
      rcases Nat.le_total src.length fileWriteMax with hle | hle
      · rw [Nat.min_eq_left hle] at hbad
        exact hbad.2
      · rw [Nat.min_eq_right hle] at hbad
        rcases hle.lt_or_eq with hlt | heq
        · exact hwhole hbad.1 hlt hbad.2
        · exact heq ▸ hbad.2
    refine pwp_bind (pwp_mono (h.writeTurn_within hs hbad.1 hmax) ?_)
    rintro r t rfl
    exact pwp_pure nofun

end

/-- There are free blocks for the file up to the maximal size, and the log has the standard
size. -/
structure RoomToLimit (a : FsState Vol) (D : Nat → Dinode) (f i : Nat) : Prop where
  standard : Standard a
  blocks : missing a.bufs.data D
    i (slotsIn (a.file f).off.toNat (maxFile * bSize - (a.file f).off.toNat)) ≤ spare a.bufs.data

/-- If the maximal size lies within what is written, and there are blocks enough up to there, the
loop fails after it has written the parts in front. -/
theorem vwp_fileWriteFrom_splits {turns : Nat} {Q : Bool → FsState Vol → Prop}
    (h : IdleFile a D f ip i) (hoff : (a.file f).off.toNat ≤ (D i).size.toNat)
    (hle : (a.file f).off.toNat ≤ maxFile * bSize)
    (hmax : maxFile * bSize < (a.file f).off.toNat + src.length) (hlen : src.length < 2 ^ 32)
    (hroom : RoomToLimit a D f i) (hturns : src.length ≤ turns)
    (hQ : ∀ a' D' n, n < src.length →
      ((a.file f).off.toNat + fileWriteMax ≤ maxFile * bSize → fileWriteMax ≤ n) →
      IdleFile a' D' f ip i → FileWritten f ip i (src.take n) a D a' D' → Q false a') :
    vwp A pid (fileWriteFrom f turns src) Q a := by
  induction turns generalizing src a D with
  | zero => omega
  | succ turns ih =>
    rw [fileWriteFrom_succ]
    refine vwp_ite (fun hnil => by omega) fun hne => ?_
    obtain ⟨n1, hn1⟩ : ∃ n1, min src.length fileWriteMax = n1 := ⟨_, rfl⟩
    have hpart : fileWriteMax = 1536 := rfl
    have htake : (src.take n1).length = n1 := by rw [List.length_take]; omega
    have hdrop : (src.drop n1).length = src.length - n1 := List.length_drop
    rw [hn1]
    rcases Nat.lt_or_ge (maxFile * bSize) ((a.file f).off.toNat + n1) with hlt | hge
    · refine vwp_writeTurn_fails h (by omega) (.inr (by omega)) fun a' h' hre => vwp_pure ?_
      exact hQ a' D 0 (by omega) (by omega) h' (hre.written hoff)
    · have hslots : slotsIn (a.file f).off.toNat (src.take n1).length ⊆
          slotsIn (a.file f).off.toNat (maxFile * bSize - (a.file f).off.toNat) :=
        slotsIn_subset le_rfl (by omega)
      refine vwp_writeTurn h hoff (by omega) ((missing_mono hslots).trans hroom.blocks)
        (.inr ⟨hroom.standard, by omega⟩) fun a' D' h' hw => ?_
      have hoff' := hw.off_toNat (by omega)
      refine vwp_ite (fun hlt => absurd (htake.trans hn1.symm) hlt) fun _ => ?_
      rw [htake] at hoff' ⊢
      refine ih h' ?_ (by omega) (by omega) (by omega) ⟨hw.standard hroom.standard, ?_⟩ (by omega)
        fun a'' D'' n hn _ h'' hw' => ?_
      · rw [hoff', hw.size, htake]
        exact Nat.le_max_right _ _
      · exact (missing_mono (slotsIn_subset (by omega) (by omega))).trans
          (hw.blocks _ hslots hroom.blocks)
      · have hall := hw.append hw' hoff (by omega)
        rw [← List.take_add] at hall
        exact hQ a'' D'' (n1 + n) (by omega) (by omega) h'' hall

/-- If the maximal size lies between the parts of what is written, and there are blocks enough up
to there, `file_write` returns -1 although it has written the first part. -/
theorem vwp_fileWrite_splits (h : IdleFile a D f ip i) (hwritable : (a.file f).writable = true)
    (hsplit : Splits (a.file f).off.toNat src.length (D i).size.toNat) (hlen : src.length < 2 ^ 32)
    (hroom : RoomToLimit a D f i)
    (hQ : ∀ a' D' n, fileWriteMax ≤ n → n < src.length → IdleFile a' D' f ip i →
      FileWritten f ip i (src.take n) a D a' D' → Q none a') :
    vwp A pid (fileWrite f src) Q a := by
  obtain ⟨hoff, -, hfirst, hmax⟩ := hsplit
  refine vwp_bind (vwp_readFile ?_)
  refine vwp_ite (fun hw => ?_) fun _ => vwp_ite (fun _ => ?_) fun ht => absurd h.isInode ht
  · rw [hwritable] at hw
    cases hw
  · exact vwp_bind (vwp_fileWriteFrom_splits h hoff (by omega) hmax hlen hroom le_rfl
      fun a' D' n hn hpart h' hw => vwp_pure (hQ a' D' n (hpart hfirst) hn h' hw))

/-! ## When a failed write writes nothing -/

/-- The open file can be written, and the maximal size lies between the parts of `n` bytes at its
offset. -/
def SplitWrite (a : FsState Vol) (D : Nat → Dinode) (f i n : Nat) : Prop :=
  (a.file f).writable = true ∧ Splits (a.file f).off.toNat n (D i).size.toNat

/-- If the call returns -1, then the file and the open file are as before. -/
def FailsUnwritten {α : Type} (pid : Nat) (p : Fs α) (failed : α → Prop) (f ip i : Nat)
    (a : FsState Vol) (D : Nat → Dinode) (s : FsState BufCache) : Prop :=
  ((fsHandler BufCache.layer pid).run p s).Sat (fun r s' => failed r → Unwritten f ip i a D s')
    (fun _ _ => True) fun _ => True

/-- The arguments of a call pass the tests that `sys_write` makes before it calls `file_write`. -/
def WriteArgs (fd : Int) (buf buflen : BitVec 32) : Prop :=
  checkBuf buf buflen buflenMax = true ∧ 0 ≤ fd ∧ fd < nOFile

section
variable {s : FsState BufCache}

/-- A call that fails after it has moved the offset. -/
theorem IdleFile.not_failsUnwritten {α : Type} {p : Fs α} {failed : α → Prop} (hs : s.View a)
    (h : vwp ⟨fun _ => False, False⟩ pid
      p (fun r a' => failed r ∧ (a'.file f).off ≠ (a.file f).off) a) :
    ¬ FailsUnwritten pid p failed f ip i a D s := by
  intro hp
  obtain ⟨r, s', hrun, a', hs', hfailed, hoff⟩ := (h.run hs nofun).returns
  rw [FailsUnwritten, hrun] at hp
  obtain ⟨a'', hs'', -, -, hfile⟩ := hp hfailed
  rw [← hs'.file, hs''.file, hfile] at hoff
  exact hoff rfl

/-- A write that is split returns -1 after it has moved the offset. -/
theorem IdleFile.vwp_fileWrite_split (h : IdleFile a D f ip i) (hroom : RoomToLimit a D f i)
    (hlen : src.length < 2 ^ 32) (hsplit : SplitWrite a D f i src.length) :
    vwp A pid (fileWrite f src) (fun r a' => r = none ∧ (a'.file f).off ≠ (a.file f).off) a := by
  have hlimit : maxFile * bSize = 71680 := rfl
  have hpart : fileWriteMax = 1536 := rfl
  refine vwp_fileWrite_splits h hsplit.1 hsplit.2 hlen hroom
    fun a' D' n hle hn h' hw => ⟨rfl, fun heq => ?_⟩
  have hsize := hw.size
  have hfull := (h'.consistent.full i h'.alloc).1
  rw [List.length_take, Nat.min_eq_left hn.le] at hsize
  have hmoved := hw.off_toNat (by rw [List.length_take]; omega)
  rw [heq, List.length_take] at hmoved
  omega

/-- `sys_write` whose arguments are accepted does what `file_write` does. -/
theorem IdleFile.vwp_sysWrite (h : IdleFile a D f ip i) {fd : Int} {buf buflen : BitVec 32}
    {fsbuf : Nat → Byte} {Q : SysRet → FsState Vol → Prop} (hargs : WriteArgs fd buf buflen)
    (hfd : a.openfiles pid fd.toNat = some f)
    (hw : vwp A pid (fileWrite f ((List.range buflen.toNat).map fsbuf))
      (fun r a' => r = none ∧ Q (.val .badf (-1)) a') a) :
    vwp A pid (sysWrite fd buf buflen fsbuf) Q a := by
  refine vwp_ite (fun hc => ?_) fun _ =>
    vwp_bind (vwp_ite (fun hc => absurd hargs.2 hc) fun _ => ?_)
  · rw [hargs.1] at hc
    cases hc
  refine vwp_bind (vwp_mem (o := .getOpenfile fd.toNat) trivial ?_)
  simp only [fsHandler, Outcome.Sat, hfd]
  refine vwp_bind (vwp_readFile (vwp_ite (fun ht => absurd h.isInode ht) fun _ => vwp_pure ?_))
  refine vwp_bind (vwp_mono hw ?_)
  rintro _ a' ⟨rfl, hq⟩
  exact vwp_pure hq

/-- `sys_write`, if it refuses its arguments or the maximal size does not lie between the parts. -/
theorem IdleFile.sysWrite_fails (h : IdleFile a D f ip i) (hs : s.View a) {fd : Int}
    {buf buflen : BitVec 32} {fsbuf : Nat → Byte} (hfd : a.openfiles pid fd.toNat = some f)
    (hsplit : ¬ (WriteArgs fd buf buflen ∧ SplitWrite a D f i buflen.toNat)) :
    FailsUnwritten pid (sysWrite fd buf buflen fsbuf) (fun r => r.retval1 = some (-1))
      f ip i a D s := by
  have hsame : Unwritten f ip i a D s := ⟨a, hs, h, rfl, rfl⟩
  have hopen : s.openfiles pid fd.toNat = some f := by
    obtain ⟨u, hrep, hshows⟩ := hs
    rw [congrArg FsState.openfiles hrep.1, ← hfd]
    exact congrFun (congrFun (congrArg FsState.openfiles hshows.1) pid) _
  refine pwp_ite (fun _ => pwp_pure fun _ => hsame) fun hbuf => ?_
  have hfile : pwp BufCache.layer pid (inodeFile fd)
      (fun r t => t = s ∧ (r = none ∨ r = some f ∧ 0 ≤ fd ∧ fd < nOFile)) s := by
    refine pwp_ite (fun _ => pwp_pure ⟨rfl, .inl rfl⟩) fun hrange => ?_
    refine pwp_bind (pwp_getOpenfile ?_)
    rw [hopen]
    exact pwp_bind (pwp_readFile (pwp_ite (fun _ => pwp_pure ⟨rfl, .inl rfl⟩) fun _ =>
      pwp_pure ⟨rfl, .inr ⟨rfl, not_not.1 hrange⟩⟩))
  refine pwp_bind (pwp_mono hfile ?_)
  rintro _ _ ⟨rfl, rfl | ⟨rfl, hrange⟩⟩
  · exact pwp_pure fun _ => hsame
  have hlen : ((List.range buflen.toNat).map fsbuf).length = buflen.toNat := by
    rw [List.length_map, List.length_range]
  have hnot : ¬ SplitWrite a D f i ((List.range buflen.toNat).map fsbuf).length := by
    rw [hlen]
    exact fun hc => hsplit ⟨⟨by simpa using hbuf, hrange⟩, hc⟩
  refine pwp_bind (pwp_mono (h.fileWrite_fails hs (by omega) hnot) ?_)
  intro r t hr
  cases r with
  | none => exact pwp_pure fun _ => hr rfl
  | some n => exact pwp_pure fun hneg => absurd (Option.some.inj hneg) (by omega)

/-- **A failed write writes nothing**, unless the open file can be written and the maximal size of
a file lies behind the first 1536 bytes and before the end of what is written. If there is room up
to the maximal size, this is exact. -/
theorem failed_write_unchanged (hs : s.View a) (h : IdleFile a D f ip i) :
    (∀ src : List Byte, src.length < buflenMax.toNat →
      (¬ SplitWrite a D f i src.length →
        FailsUnwritten pid (fileWrite f src) (· = none) f ip i a D s) ∧
      (RoomToLimit a D f i → FailsUnwritten pid (fileWrite f src) (· = none) f ip i a D s →
        ¬ SplitWrite a D f i src.length)) ∧
    ∀ (fd : Int) (buf buflen : BitVec 32) (fsbuf : Nat → Byte), a.openfiles pid fd.toNat = some f →
      (¬ (WriteArgs fd buf buflen ∧ SplitWrite a D f i buflen.toNat) →
        FailsUnwritten pid (sysWrite fd buf buflen fsbuf) (·.retval1 = some (-1)) f ip i a D s) ∧
      (RoomToLimit a D f i →
        FailsUnwritten pid (sysWrite fd buf buflen fsbuf) (·.retval1 = some (-1)) f ip i a D s →
        ¬ (WriteArgs fd buf buflen ∧ SplitWrite a D f i buflen.toNat)) := by
  constructor
  · intro src hlen
    have hlen' : src.length < 2 ^ 32 := hlen.trans (by decide)
    exact ⟨h.fileWrite_fails hs hlen', fun hroom hp hsplit =>
      IdleFile.not_failsUnwritten hs (h.vwp_fileWrite_split hroom hlen' hsplit) hp⟩
  · intro fd buf buflen fsbuf hfd
    refine ⟨h.sysWrite_fails hs hfd, fun hroom hp ⟨hargs, hsplit⟩ => ?_⟩
    have hlen : ((List.range buflen.toNat).map fsbuf).length = buflen.toNat := by
      rw [List.length_map, List.length_range]
    refine IdleFile.not_failsUnwritten hs (h.vwp_sysWrite hargs hfd ?_) hp
    exact vwp_mono (h.vwp_fileWrite_split hroom (by omega) (by rwa [hlen])) fun r a' hr =>
      ⟨hr.1, rfl, hr.2⟩

end

end

/-! ## An open file -/

/-- Behind the end of an empty file nothing is written. -/
theorem failed_write_unchanged_fileImage :
    ∃ s s', s.View ((opened fileImage).seek 0 1) ∧
      (fsHandler BufCache.layer 0).run (fileWrite 0 [7]) s = .ok none s' ∧
      Unwritten 0 1 2 ((opened fileImage).seek 0 1) (dinodeAt fileImage) s' := by
  obtain ⟨s₀, hs₀⟩ := opened_view rootOnly_fileImage.consistent
  obtain ⟨s, hs⟩ := hs₀.seek 0 1
  have h : IdleFile ((opened fileImage).seek 0 1) (dinodeAt fileImage) 0 1 2 :=
    idleFile_fileImage.seek
  have hbehind : (dinodeAt fileImage 2).size.toNat <
      (((opened fileImage).seek 0 1).file 0).off.toNat := by
    rw [fileImage_file.2]
    exact Nat.zero_lt_one
  have hwp : vwp ⟨fun _ => False, False⟩ 0 (fileWrite 0 [7]) (fun r _ => r = none)
      ((opened fileImage).seek 0 1) :=
    vwp_bind (vwp_readFile (vwp_ite (fun _ => vwp_pure rfl) fun _ => vwp_ite
      (fun _ => vwp_bind (vwp_writeTurn_fails h (by decide) (.inl hbehind) fun _ _ _ =>
        vwp_pure (vwp_pure rfl)))
      fun ht => absurd h.isInode ht))
  obtain ⟨_, s', hrun, -, -, rfl⟩ := (hwp.run hs nofun).returns
  have hsat := ((@failed_write_unchanged 0 _ _ _ _ _ _ hs h).1 [7] (by decide)).1
    fun hc => absurd hc.2.1 (by omega)
  rw [FailsUnwritten, hrun] at hsat
  exact ⟨s, s', hs, hrun, hsat rfl⟩

/-- A file of 70144 bytes is written, and then 2048 bytes behind its end, which would be more than
a file can hold. This returns -1, but the file has become longer. -/
theorem failed_write_writes :
    ∃ s s₁ s₂ a₁ a₂ D₁ D₂, s.View (opened fileImage) ∧
      (fsHandler BufCache.layer 0).run (fileWrite 0 (List.replicate 70144 0)) s =
        .ok (some 70144) s₁ ∧ s₁.View a₁ ∧ IdleFile a₁ D₁ 0 1 2 ∧ (a₁.file 0).off.toNat = 70144 ∧
      (D₁ 2).size.toNat = 70144 ∧
      (fsHandler BufCache.layer 0).run (fileWrite 0 (List.replicate 2048 1)) s₁ = .ok none s₂ ∧
      s₂.View a₂ ∧ IdleFile a₂ D₂ 0 1 2 ∧ (a₂.file 0).off.toNat = 71680 ∧
      (D₂ 2).size.toNat = 71680 ∧ contents a₂.bufs.data (D₂ 2) =
        contents a₁.bufs.data (D₁ 2) ++ List.replicate 1536 1 := by
  obtain ⟨s, hs⟩ := opened_view rootOnly_fileImage.consistent
  have hoff₀ : ((opened fileImage).file 0).off.toNat = 0 := rfl
  have hlimit : maxFile * bSize = 71680 := rfl
  have hspare : missing (opened fileImage).bufs.data (dinodeAt fileImage) 2 (slotsIn 0 71680) ≤
      spare (opened fileImage).bufs.data := by
    refine (missing_le_nSlots (by omega)).trans ?_
    rw [opened_data]
    exact spare_fileImage
  -- The file of 70144 bytes.
  obtain ⟨src, hsrc⟩ : ∃ src : List Byte, List.replicate 70144 0 = src := ⟨_, rfl⟩
  have hlen : src.length = 70144 := by rw [← hsrc, List.length_replicate]
  have hwp : vwp ⟨fun _ => False, False⟩ 0 (fileWrite 0 src) (fun r a₁ => r = some src.length ∧
      ∃ D₁, IdleFile a₁ D₁ 0 1 2 ∧ FileWritten 0 1 2 src (opened fileImage)
      (dinodeAt fileImage) a₁ D₁) (opened fileImage) := by
    refine vwp_fileWrite idleFile_fileImage rfl (Nat.zero_le _) (by omega) ?_
      (.inr standard_fileImage) fun a₁ D₁ h₁ hw₁ => ⟨rfl, D₁, h₁, hw₁⟩
    exact (missing_mono (slotsIn_subset (by omega) (by omega))).trans hspare
  obtain ⟨_, s₁, hrun₁, a₁, hs₁, rfl, D₁, h₁, hw₁⟩ := (hwp.run hs nofun).returns
  have hoff₁ : (a₁.file 0).off.toNat = 70144 := by
    rw [hw₁.off_toNat (by omega), hoff₀, hlen]
  have hsize₁ : (D₁ 2).size.toNat = 70144 := by
    rw [hw₁.size, hoff₀, hlen, fileImage_file.2]
    rfl
  -- 2048 more bytes.
  obtain ⟨src', hsrc'⟩ : ∃ src : List Byte, List.replicate 2048 1 = src := ⟨_, rfl⟩
  have hlen' : src'.length = 2048 := by rw [← hsrc', List.length_replicate]
  have hpart : fileWriteMax = 1536 := rfl
  have hwp' : vwp ⟨fun _ => False, False⟩ 0 (fileWrite 0 src') (fun r a₂ => r = none ∧
      ∃ D₂ n, 1536 ≤ n ∧ n < 2048 ∧ IdleFile a₂ D₂ 0 1 2 ∧ FileWritten 0 1 2 (src'.take n) a₁ D₁
      a₂ D₂) a₁ := by
    refine vwp_fileWrite_splits h₁ ?_ ⟨by omega, by omega, by omega, by omega⟩ (by omega)
      ⟨hw₁.standard standard_fileImage, ?_⟩ fun a₂ D₂ n hle hlt h₂ hw₂ =>
      ⟨rfl, D₂, n, hle, by omega, h₂, hw₂⟩
    · rw [hw₁.file_self]
      rfl
    · exact (missing_mono (slotsIn_subset (by omega) (by omega))).trans
        (hw₁.blocks _ (slotsIn_subset (by omega) (by omega)) hspare)
  obtain ⟨_, s₂, hrun₂, a₂, hs₂, rfl, D₂, n, hle, hlt, h₂, hw₂⟩ := (hwp'.run hs₁ nofun).returns
  have htake : (src'.take n).length = n := by rw [List.length_take]; omega
  have hsize₂ := hw₂.size
  have hfull := (h₂.consistent.full 2 h₂.alloc).1
  rw [htake] at hsize₂
  obtain rfl : n = 1536 := by omega
  refine ⟨s, s₁, s₂, a₁, a₂, D₁, D₂, hs, hsrc ▸ hlen ▸ hrun₁, hs₁, h₁, hoff₁, hsize₁,
    hsrc' ▸ hrun₂, hs₂, h₂, ?_, ?_, ?_⟩
  · rw [hw₂.off_toNat (by omega), hoff₁, htake]
  · omega
  · have hc : (contents a₁.bufs.data (D₁ 2)).length = 70144 := by
      rw [contents, List.length_map, List.length_range, hsize₁]
    rw [hw₂.contents, hoff₁, spliceAt, List.take_of_length_le hc.le,
      List.drop_eq_nil_of_le (by omega), List.append_nil, ← hsrc', List.take_replicate]
    rfl

end MCertikos
