import MCertikos.Fs.Crash

/-!
# Volumes

The file system code seen from the inside of a transaction: the contents of the sectors as the
buffers show them, the sectors that the thread holds, and the sectors that it has logged. A `Vol`
leaves out what no function above `log_write` depends on, the slots of the log and the order in
which sectors go to the disk, and `FsState.Shows` relates it to the store.

`vwp` is the weakest precondition of a program over volumes, with a rule for each operation and for
the two patterns in which all code uses buffers: a sector that is read, and a sector that is read,
changed, logged and released. `Allow` says which panics are accepted, so that the same rules serve
for results about runs that have enough buffers and log space, and for results about all runs.
-/

namespace MCertikos

open Program Function

/-- The contents of the sectors, and the sectors that the thread holds. -/
structure Vol where
  data : Disk
  held : Finset Nat

/-- The sectors in the log. -/
def Log.sectors (l : Log) : Finset Nat := (Finset.range l.n).image l.sector

/-- The log after `log_write` of a sector. -/
def Log.record (l : Log) (x : Nat) : Log :=
  { l with
    sector := update l.sector (l.slotOf x) x
    n := if l.slotOf x = l.n then l.n + 1 else l.n }

/-- The log lists each sector once. -/
def Log.Distinct (l : Log) : Prop := ∀ i < l.n, ∀ j < l.n, l.sector i = l.sector j → i = j

namespace Log

variable {l : Log} {x : Nat}

theorem mem_sectors : x ∈ l.sectors ↔ ∃ i < l.n, l.sector i = x := by
  simp [sectors]

theorem Distinct.card_sectors (h : l.Distinct) : l.sectors.card = l.n := by
  rw [sectors, Finset.card_image_of_injOn, Finset.card_range]
  intro i hi j hj hij
  exact h i (Finset.mem_range.1 hi) j (Finset.mem_range.1 hj) hij

/-- A sector that is in the log is absorbed. -/
theorem slotOf_of_mem (h : x ∈ l.sectors) : l.slotOf x < l.n ∧ l.sector (l.slotOf x) = x := by
  obtain ⟨i, hi, hix⟩ := mem_sectors.1 h
  have hlt : l.slotOf x < l.n := by
    by_contra hge
    exact sector_ne_of_lt_slotOf (Nat.lt_of_lt_of_le hi (Nat.not_lt.1 hge)) hix
  exact ⟨hlt, sector_slotOf hlt⟩

/-- Another one gets the next slot. -/
theorem slotOf_of_notMem (h : x ∉ l.sectors) : l.slotOf x = l.n := by
  refine Nat.le_antisymm (slotOf_le l x) (Nat.not_lt.1 fun hlt => h ?_)
  exact mem_sectors.2 ⟨_, hlt, sector_slotOf hlt⟩

theorem record_of_mem (h : x ∈ l.sectors) : l.record x = l := by
  obtain ⟨hlt, hx⟩ := slotOf_of_mem h
  have hself : update l.sector (l.slotOf x) x = l.sector :=
    update_eq_self_iff.2 hx.symm
  rw [record, hself, if_neg hlt.ne]

theorem record_of_notMem (h : x ∉ l.sectors) :
    l.record x = { l with sector := update l.sector l.n x, n := l.n + 1 } := by
  rw [record, slotOf_of_notMem h, if_pos rfl]

@[simp] theorem record_start : (l.record x).start = l.start := rfl

@[simp] theorem record_size : (l.record x).size = l.size := rfl

@[simp] theorem record_busy : (l.record x).busy = l.busy := rfl

@[simp] theorem sectors_record : (l.record x).sectors = insert x l.sectors := by
  by_cases h : x ∈ l.sectors
  · rw [record_of_mem h, Finset.insert_eq_of_mem h]
  · rw [record_of_notMem h, sectors, Finset.range_add_one, Finset.image_insert]
    dsimp only
    rw [update_self]
    congr 1
    refine Finset.image_congr fun i hi => ?_
    rw [Finset.mem_coe, Finset.mem_range] at hi
    exact update_of_ne hi.ne _ _

theorem Distinct.record (h : l.Distinct) : (l.record x).Distinct := by
  by_cases hx : x ∈ l.sectors
  · rwa [record_of_mem hx]
  · rw [record_of_notMem hx]
    have hnew : ∀ i < l.n, l.sector i ≠ x := fun i hi he => hx (mem_sectors.2 ⟨i, hi, he⟩)
    intro i hi j hj hij
    dsimp only at hi hj hij
    rcases Nat.lt_succ_iff_lt_or_eq.1 hi with hi | rfl <;> rcases Nat.lt_succ_iff_lt_or_eq.1
      hj with hj | rfl
    · rw [update_of_ne hi.ne, update_of_ne hj.ne] at hij
      exact h i hi j hj hij
    · rw [update_of_ne hi.ne, update_self] at hij
      exact absurd hij (hnew i hi)
    · rw [update_of_ne hj.ne, update_self] at hij
      exact absurd hij.symm (hnew j hj)
    · rfl

@[simp] theorem record_slotOf : (l.record x).sector (l.slotOf x) = x := update_self _ _ _

/-- The other slots keep their sectors. -/
theorem Distinct.record_of_ne (h : l.Distinct) {i : Nat} (hi : i < (l.record x).n)
    (hne : i ≠ l.slotOf x) : i < l.n ∧ (l.record x).sector i = l.sector i ∧ l.sector i ≠ x := by
  have hlt : i < l.n := by
    rw [Log.record] at hi
    dsimp only at hi
    split at hi <;> omega
  refine ⟨hlt, update_of_ne hne _ _, fun he => hne ?_⟩
  obtain ⟨hs, hx⟩ := slotOf_of_mem (mem_sectors.2 ⟨i, hlt, he⟩)
  exact h i hlt _ hs (he.trans hx.symm)

end Log

/-! ## Volumes and stores -/

namespace FsState

variable (a : FsState Vol) (x : Nat)

/-- The thread holds one more sector. -/
def hold : FsState Vol := { a with bufs := { a.bufs with held := insert x a.bufs.held } }

/-- The thread gives back a sector. -/
def release : FsState Vol := { a with bufs := { a.bufs with held := a.bufs.held.erase x } }

/-- A sector with new contents is logged. -/
def store (v : Block) : FsState Vol :=
  { a with
    bufs := { a.bufs with data := update a.bufs.data x v }
    log := a.log.record x }

end FsState

/-- The store holds the contents of the volume outside of the log area; the sectors that are held
are locked; those that are logged are pinned, and their contents are in their slots. -/
structure Store.Shows (b : Store) (l : Log) (v : Vol) : Prop where
  data : ∀ x, ¬ InLog l.start l.size x → b.data x = v.data x
  busy : b.busy = v.held
  dirty : b.dirty = l.sectors
  modified : b.modified = ∅
  distinct : l.Distinct
  slot : ∀ i < l.n, b.data (l.start + i + 1) = b.data (l.sector i)
  held : ∀ x ∈ v.held, ¬ InLog l.start l.size x
  home : ∀ x ∈ l.sectors, ¬ InLog l.start l.size x
  room : l.n < l.size ∨ l.n = 0

/-- The two states differ in their buffers only, and the store shows the volume. -/
def FsState.Shows (s : FsState Store) (a : FsState Vol) : Prop :=
  s = a.withBufs s.bufs ∧ s.bufs.Shows a.log a.bufs

/-! ## The program logic -/

/-- The panics, and whether the thread may wait for another one, that are accepted. -/
structure Allow where
  panic : Panic → Prop
  block : Prop

/-- Runs may stop for lack of buffers or log space. -/
def Allow.Lax (A : Allow) : Prop := A.panic .noBuffers ∧ A.panic .tooBig

/-- Runs may stop for lack of buffers or log space, or there is enough of both: no more than seven
sectors are logged, two slots are free, and at most one sector is held. -/
def Allow.Room (A : Allow) (a : FsState Vol) : Prop :=
  A.Lax ∨ (a.log.n ≤ 7 ∧ a.log.n + 2 ≤ a.log.size ∧ a.bufs.held.card ≤ 1)

/-- Runs may stop for lack of buffers, or there is a buffer for one more sector. -/
def Allow.Reads (A : Allow) (a : FsState Vol) : Prop :=
  A.panic .noBuffers ∨ a.log.n + a.bufs.held.card < nBuf

/-- The weakest precondition over volumes: from every store that shows the volume, the program ends
in one that shows a volume with `Q`, or stops in a way that is accepted. -/
def vwp {α : Type} (A : Allow) (pid : Nat) (p : Fs α) (Q : α → FsState Vol → Prop)
    (a : FsState Vol) :
    Prop :=
  ∀ s : FsState Store, s.Shows a →
    wp pid p (fun r t => ∃ a', t.Shows a' ∧ Q r a') (fun e _ => A.panic e) (fun _ => A.block) s

section
variable {α β : Type} {A : Allow} {pid x : Nat} {a : FsState Vol}

theorem vwp_pure {r : α} {Q : α → FsState Vol → Prop} (h : Q r a) : vwp A pid (pure r) Q a :=
  fun _ hs => ⟨a, hs, h⟩

theorem vwp_bind {p : Fs β} {f : β → Fs α} {Q : α → FsState Vol → Prop}
    (h : vwp A pid p (fun r b => vwp A pid (f r) Q b) a) : vwp A pid (p >>= f) Q a := by
  intro s hs
  refine Handler.wp_bind.2 ((h s hs).mono (fun r t ht => ?_) (fun _ _ he => he) fun _ hb => hb)
  obtain ⟨b, hb, hf⟩ := ht
  exact hf t hb

theorem vwp_mono {p : Fs α} {Q Q' : α → FsState Vol → Prop} (h : vwp A pid p Q a)
    (hQ : ∀ r b, Q r b → Q' r b) : vwp A pid p Q' a := fun s hs =>
  (h s hs).mono (fun _ _ ⟨b, hb, hq⟩ => ⟨b, hb, hQ _ _ hq⟩) (fun _ _ he => he) fun _ hb => hb

theorem vwp_ite {c : Prop} [Decidable c] {p q : Fs α} {Q : α → FsState Vol → Prop}
    (hp : c → vwp A pid p Q a) (hq : ¬ c → vwp A pid q Q a) :
    vwp A pid (if c then p else q) Q a := by
  split
  · exact hp ‹c›
  · exact hq ‹¬ c›

theorem vwp_kernPanic {e : Panic} {Q : α → FsState Vol → Prop} (he : A.panic e) :
    vwp A pid (kernPanic e : Fs α) Q a := fun _ _ => he

/-- The stores that show a volume. -/
theorem vwp_of {p : Fs α} {Q : α → FsState Vol → Prop}
    (h : ∀ b : Store, b.Shows a.log a.bufs →
      wp pid p (fun r t => ∃ a', t.Shows a' ∧ Q r a') (fun e _ => A.panic e) (fun _ => A.block)
        (a.withBufs b)) : vwp A pid p Q a := by
  intro s hs
  rw [hs.1]
  exact h s.bufs hs.2

/-! ### Buffers -/

theorem Allow.Room.reads (h : A.Room a) : A.Reads a := by
  refine h.imp (fun hl => hl.1) fun ⟨hn, _, hheld⟩ => ?_
  have : nBuf = 10 := rfl
  omega

/-- The sectors that cannot be evicted are those that are held and those that are logged. -/
theorem Store.Shows.card_le {b : Store} (hb : b.Shows a.log a.bufs) :
    (b.busy ∪ b.dirty).card ≤ a.log.n + a.bufs.held.card := by
  have hle := Finset.card_union_le b.busy b.dirty
  rw [hb.busy, hb.dirty, hb.distinct.card_sectors] at hle
  rw [hb.busy, hb.dirty]
  omega

theorem vwp_bufcacheRead {Q : Block → FsState Vol → Prop} (hroom : A.Reads a)
    (hheld : x ∉ a.bufs.held) (hhome : ¬ InLog a.log.start a.log.size x)
    (hQ : Q (a.bufs.data x) (a.hold x)) : vwp A pid (bufcacheRead x) Q a := by
  refine vwp_of fun b hb => wp_bufcacheRead (fun hx => ?_) (fun _ hcard => ?_) fun _ => ?_
  · exact absurd (hb.busy ▸ hx) hheld
  · refine hroom.resolve_right fun hlt => ?_
    have hle := hb.card_le
    simp only [FsState.withBufs] at hcard
    omega
  · refine ⟨a.hold x, ⟨rfl, { hb with
      busy := congrArg (insert x) hb.busy
      held := fun y hy => ?_ }⟩, (hb.data x hhome).symm ▸ hQ⟩
    rcases Finset.mem_insert.1 hy with rfl | hy
    · exact hhome
    · exact hb.held y hy

theorem vwp_bufcacheRelease {Q : Unit → FsState Vol → Prop} (hx : x ∈ a.bufs.held)
    (hQ : Q () (a.release x)) : vwp A pid (bufcacheRelease x) Q a := by
  refine vwp_of fun b hb => wp_bufcacheRelease (fun hn => ?_) (fun _ => ?_) fun _ => ?_
  · exact absurd (hb.busy ▸ hx : x ∈ b.busy) hn
  · exact hb.modified ▸ Finset.notMem_empty x
  · refine ⟨a.release x, ⟨rfl, { hb with
      busy := congrArg (Finset.erase · x) hb.busy
      held := fun y hy => hb.held y (Finset.mem_of_mem_erase hy) }⟩, hQ⟩

theorem FsState.release_hold (hx : x ∉ a.bufs.held) : (a.hold x).release x = a := by
  simp only [hold, release, Finset.erase_insert hx]

/-- A sector that is only read. -/
theorem vwp_peek {k : Block → Fs α} {Q : α → FsState Vol → Prop} (hroom : A.Reads a)
    (hheld : x ∉ a.bufs.held) (hhome : ¬ InLog a.log.start a.log.size x)
    (hk : vwp A pid (k (a.bufs.data x)) Q a) :
    vwp A pid (do
      let b ← bufcacheRead x
      bufcacheRelease x
      k b) Q a := by
  refine vwp_bind (vwp_bufcacheRead hroom hheld hhome (vwp_bind (vwp_bufcacheRelease
    (Finset.mem_insert_self _ _) ?_)))
  rwa [FsState.release_hold hheld]

/-- The store after a sector that is held has been changed and logged. -/
theorem Store.Shows.store {b : Store} (hb : b.Shows a.log a.bufs) {v : Block}
    (hx : x ∈ a.bufs.held) (hn : a.log.n + 1 < a.log.size) :
    (((b.assign x v).write (a.log.start + a.log.slotOf x + 1) v).pin x).Shows (a.store x v).log
      (a.store x v).bufs := by
  have hle := Log.slotOf_le a.log x
  have hslot : InLog a.log.start a.log.size (a.log.start + a.log.slotOf x + 1) :=
    ⟨by omega, by omega⟩
  have hhome : ¬ InLog a.log.start a.log.size x := hb.held x hx
  have hne : ∀ y, ¬ InLog a.log.start a.log.size y → y ≠ a.log.start + a.log.slotOf x + 1 :=
    fun y hy he => hy (he ▸ hslot)
  refine ⟨fun y hy => ?_, hb.busy, ?_, ?_, hb.distinct.record, fun i hi => ?_, hb.held, ?_, ?_⟩
  · have hy' : update (update b.data x v) (a.log.start + a.log.slotOf x + 1) v y =
        update b.data x v y := update_of_ne (hne y hy) _ _
    refine hy'.trans ?_
    simp only [FsState.store]
    rcases eq_or_ne y x with rfl | hyx
    · rw [update_self, update_self]
    · rw [update_of_ne hyx, update_of_ne hyx]
      exact hb.data y hy
  · have hnot : a.log.start + a.log.slotOf x + 1 ∉ a.log.sectors := fun hd => hb.home _ hd hslot
    simp only [Store.assign, Store.write, Store.pin, FsState.store, Log.sectors_record, hb.dirty,
      Finset.erase_eq_of_notMem hnot]
  · simp [Store.assign, Store.write, Store.pin, hb.modified, Finset.erase_right_comm]
  · show update (update b.data x v) (a.log.start + a.log.slotOf x + 1) v
      (a.log.start + i + 1) = update (update b.data x v)
      (a.log.start + a.log.slotOf x + 1) v ((a.log.record x).sector i)
    rcases eq_or_ne i (a.log.slotOf x) with rfl | hi'
    · rw [update_self, Log.record_slotOf, update_of_ne (hne x hhome),
        update_self]
    · obtain ⟨hlt, hsec, hsx⟩ := hb.distinct.record_of_ne hi hi'
      have hin : InLog a.log.start a.log.size (a.log.start + i + 1) := ⟨by omega, by omega⟩
      have hinx : a.log.start + i + 1 ≠ x := fun he => hhome (he ▸ hin)
      have hout := hb.home _ (Log.mem_sectors.2 ⟨i, hlt, rfl⟩)
      rw [hsec, update_of_ne (by omega), update_of_ne hinx,
        update_of_ne (hne _ hout), update_of_ne hsx]
      exact hb.slot i hlt
  · intro y hy
    simp only [FsState.store, Log.sectors_record, Finset.mem_insert] at hy
    rcases hy with rfl | hy
    · exact hhome
    · exact hb.home y hy
  · refine .inl ?_
    simp only [FsState.store, Log.record]
    split
    · exact hn
    · omega

/-- New contents for a sector that is held. -/
theorem vwp_store {k : Fs α} {v : Block} {Q : α → FsState Vol → Prop} (hbusy : a.log.busy = true)
    (hx : x ∈ a.bufs.held) (hroom : A.Room (a.release x))
    (hk : vwp A pid k Q ((a.store x v).release x)) :
    vwp A pid (do
      bufSet x v
      logWrite x
      bufcacheRelease x
      k) Q a := by
  refine vwp_of fun b hb => ?_
  have hmem : x ∈ b.busy := hb.busy ▸ hx
  have hheld : (a.release x).bufs.held.card + 1 = a.bufs.held.card :=
    Finset.card_erase_add_one hx
  have hcard : A.Lax ∨ (b.busy ∪ b.dirty).card < nBuf := by
    refine hroom.imp id fun hfits => ?_
    obtain ⟨hn, -, hle⟩ := hfits
    have hunion := hb.card_le
    have : nBuf = 10 := rfl
    have : (a.release x).log.n = a.log.n := rfl
    omega
  refine Handler.wp_bind.2 (wp_bufSet (fun hn => absurd hmem hn) fun _ => ?_)
  refine Handler.wp_bind.2 (wp_logWrite hmem (fun hbig => ?_) (fun hout => ?_)
    (fun hsize hslot _ => ?_) (fun _ hfull _ => ?_) fun _ hsize _ _ => ?_)
  · refine (hroom.resolve_right fun hfits => ?_).2
    obtain ⟨hn, hfit, -⟩ := hfits
    have hlog : logSize = 10 := rfl
    have hlog' : (a.release x).log = a.log := rfl
    rw [hlog'] at hn hfit
    simp only [FsState.onBufs, FsState.withBufs] at hbig
    omega
  · simp only [FsState.onBufs, FsState.withBufs] at hout
    exact absurd (hbusy.symm.trans hout) (by simp)
  · have hle := Log.slotOf_le a.log x
    simp only [FsState.onBufs, FsState.withBufs] at hsize hslot
    exact absurd ⟨by omega, by omega⟩ (hb.held _ (hb.busy ▸ hslot))
  · refine (hcard.resolve_right fun hlt => ?_).1
    simp only [FsState.onBufs, FsState.withBufs, Store.assign] at hfull
    omega
  · have hshows := hb.store hx hsize (v := v)
    have hk' : vwp A pid (bufcacheRelease x >>= fun _ => k) Q (a.store x v) :=
      vwp_bind (vwp_bufcacheRelease hx hk)
    have hval : (b.assign x v).data x = v := update_self _ _ _
    have heq : ((a.withBufs b).onBufs (·.assign x v)).logged x = (a.store x v).withBufs
        (((b.assign x v).write (a.log.start + a.log.slotOf x + 1) v).pin x) := by
      simp only [FsState.logged, FsState.onBufs, FsState.withBufs, hval]
      rfl
    rw [heq]
    exact hk' _ ⟨rfl, hshows⟩

/-! ### Memory -/

/-- The operations on the inode cache, the files and the tables of the process. -/
def FsOp.OnMem : FsOp → Prop
  | .bread _ | .bget _ | .bset _ _ | .bwrite _ | .brelse _ | .bdirty _ | .logGet |
    .logSetArea _ _ | .logSetSector _ _ | .logSetN _ | .logAcquire | .logRelease |
    .logCheck => False
  | _ => True

section
variable {B B' : Type} (s : FsState B) (b : B') (i : Nat)

theorem FsState.inodeAcquire_withBufs :
    (s.withBufs b).inodeAcquire i = (s.inodeAcquire i).mapState (·.withBufs b) := by
  rw [inodeAcquire, inodeAcquire, Outcome.mapState_ite, Outcome.mapState_ite]
  rfl

theorem FsState.inodeUnlock_withBufs :
    (s.withBufs b).inodeUnlock i = (s.inodeUnlock i).mapState (·.withBufs b) := by
  rw [inodeUnlock, inodeUnlock, Outcome.mapState_ite]
  rfl

theorem FsState.inodePutTest_withBufs :
    (s.withBufs b).inodePutTest i = (s.inodePutTest i).mapState (·.withBufs b) := by
  rw [inodePutTest, inodePutTest, Outcome.mapState_ite, Outcome.mapState_ite]
  rfl

theorem FsState.fileDrop_withBufs :
    (s.withBufs b).fileDrop i = (s.fileDrop i).mapState (·.withBufs b) := by
  rw [fileDrop, fileDrop, Outcome.mapState_ite, Outcome.mapState_ite]
  rfl

end

/-- They do the same over any buffers. -/
theorem fsHandler_withBufs {B B' : Type} {L : BufLayer B} (L' : BufLayer B') {o : FsOp}
    (ho : o.OnMem) (s : FsState B) (b : B') :
    fsHandler L' pid o (s.withBufs b) = (fsHandler L pid o s).mapState (·.withBufs b) := by
  cases o with
  | bread | bget | bset | bwrite | brelse | bdirty | logGet | logSetArea | logSetSector | logSetN |
    logAcquire | logRelease | logCheck => exact ho.elim
  | inodeGet dev inum =>
    simp only [fsHandler, FsState.withBufs]
    cases s.inode.inodeGet dev inum <;> rfl
  | inodeAcquire ip => exact s.inodeAcquire_withBufs b ip
  | inodeUnlock ip => exact s.inodeUnlock_withBufs b ip
  | inodePutTest ip => exact s.inodePutTest_withBufs b ip
  | fileAlloc => simp only [fsHandler, FsState.fileAlloc_withBufs, Outcome.mapState]
  | fileDrop f => exact s.fileDrop_withBufs b f
  | _ => rfl

/-- Volumes have no buffer operations of their own. -/
def Vol.inert : BufLayer Vol where
  bread _ := .blocked
  bget _ := .blocked
  bset _ _ := .blocked
  bwrite _ := .blocked
  brelse _ := .blocked
  bdirty _ := .blocked

/-- Operations on memory change neither buffers nor log. -/
theorem fsHandler_frame (pid : Nat) {B : Type} {L : BufLayer B} {o : FsOp} (ho : o.OnMem)
    (s : FsState B) :
    (fsHandler L pid o s).state.log = s.log ∧ (fsHandler L pid o s).state.bufs = s.bufs := by
  have hpart : o.part ≠ .log ∧ o.part ≠ .bufs := by
    cases o <;> simp [FsOp.OnMem, FsOp.part] at ho ⊢
  exact ⟨(fsHandler_only L pid o s).log hpart.1, (fsHandler_only L pid o s).bufs hpart.2⟩

/-- The rule for the operations on memory. -/
theorem vwp_mem {o : FsOp} (ho : o.OnMem) {Q : o.Resp → FsState Vol → Prop}
    (h : (fsHandler Vol.inert pid o a).Sat Q (fun e _ => A.panic e) fun _ => A.block) :
    vwp A pid (.call (S := fsSig) o) Q a := by
  refine vwp_of fun b hb => Handler.wp_call.2 ?_
  rw [fsHandler_withBufs (L := Vol.inert) Store.layer ho]
  obtain ⟨hlog, hbufs⟩ := fsHandler_frame pid (L := Vol.inert) ho a
  cases hrun : fsHandler Vol.inert pid o a with
  | ok r t =>
    rw [hrun] at h hlog hbufs
    refine ⟨t, ⟨rfl, ?_⟩, h⟩
    rw [show t.log = a.log from hlog, show t.bufs = a.bufs from hbufs]
    exact hb
  | panic e t =>
    rw [hrun] at h
    exact h
  | blocked t =>
    rw [hrun] at h
    exact h

theorem vwp_readInode {ip : Nat} {Q : Inode → FsState Vol → Prop} (hQ : Q (a.inode ip) a) :
    vwp A pid (readInode ip) Q a := vwp_mem (o := .inodeRead ip) trivial hQ

theorem vwp_setDinode {ip : Nat} {din : Dinode} {Q : Unit → FsState Vol → Prop}
    (hQ : Q () { a with inode := a.inode.setDin ip din }) : vwp A pid (setDinode ip din) Q a :=
  vwp_mem (o := .inodeSet ip din) trivial hQ

end

end MCertikos
