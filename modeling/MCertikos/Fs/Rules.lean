import MCertikos.Fs.Store

/-!
# Rules for programs over the store

What each operation needs, and what it leaves, when a program runs over the store. The rules have
the shape of `Handler.wp_bind`: one premise for each way in which the operation can end.
-/

namespace MCertikos

open Program Function

namespace Store

variable (b : Store) (x : Nat)

/-- The sector is locked. -/
def lock : Store := { b with busy := insert x b.busy }

/-- The sector is unlocked. -/
def unlock : Store := { b with busy := b.busy.erase x }

/-- New contents in memory. -/
def assign (v : Block) : Store :=
  { b with data := update b.data x v, modified := insert x b.modified }

/-- The contents go to the disk. -/
def flush : Store :=
  { b with
    dirty := b.dirty.erase x
    modified := b.modified.erase x
    disk := update b.disk x (b.data x)
    writes := b.writes ++ [(x, b.data x)] }

/-- The contents stay in memory until they are written. -/
def pin : Store := { b with dirty := insert x b.dirty, modified := b.modified.erase x }

/-- New contents, in memory and on the disk. -/
def write (v : Block) : Store :=
  { b with
    data := update b.data x v
    dirty := b.dirty.erase x
    modified := b.modified.erase x
    disk := update b.disk x v
    writes := b.writes ++ [(x, v)] }

/-- No sector is locked or dirty, so that every buffer can be recycled. -/
def Idle : Prop := b.busy = ∅ ∧ b.dirty = ∅

variable {b x}

/-- Unlocking undoes locking. -/
theorem unlock_lock (h : x ∉ b.busy) : (b.lock x).unlock x = b := by
  simp only [lock, unlock, Finset.erase_insert h]

/-- A sector that is locked, changed and written. -/
theorem flush_assign (v : Block) : (b.assign x v).flush x = b.write x v := by
  simp [assign, flush, write]

/-- Unlocking undoes locking, with a write in between. -/
theorem unlock_write_lock {y : Nat} {v : Block} (h : y ∉ b.busy) :
    ((b.lock y).write x v).unlock y = b.write x v := by
  simp only [lock, unlock, write, Finset.erase_insert h]

/-- A store in which a sector is locked, or no buffer is free, is not idle. -/
theorem not_idle_of_mem (h : x ∈ b.busy) : ¬ b.Idle := by
  rintro ⟨hb, -⟩
  rw [hb] at h
  exact Finset.notMem_empty x h

/-- A store in which all but one buffer are taken is not idle. -/
theorem not_idle_of_card (h : nBuf ≤ (b.busy ∪ b.dirty).card + 1) : ¬ b.Idle := by
  rintro ⟨hb, hd⟩
  rw [hb, hd] at h
  exact absurd h (by decide)

end Store

/-- The state with other buffers. -/
def FsState.onBufs (s : FsState Store) (f : Store → Store) : FsState Store :=
  { s with bufs := f s.bufs }

/-- The state with another log. -/
def FsState.onLog {B : Type} (s : FsState B) (f : Log → Log) : FsState B :=
  { s with log := f s.log }

section
variable {pid : Nat} {s : FsState Store} {E : Panic → FsState Store → Prop}
  {B : FsState Store → Prop} {x : Nat} {Q : Unit → FsState Store → Prop}

/-- The weakest precondition over the store, for the process `pid`. -/
abbrev wp {α : Type} (pid : Nat) (p : Fs α) (Q : α → FsState Store → Prop)
    (E : Panic → FsState Store → Prop) (B : FsState Store → Prop) (s : FsState Store) : Prop :=
  (fsHandler Store.layer pid).Wp p Q E B s

theorem wp_bufcacheRead {Q : Block → FsState Store → Prop} (hB : x ∈ s.bufs.busy → B s)
    (hE : x ∉ s.bufs.dirty → nBuf ≤ (s.bufs.busy ∪ s.bufs.dirty).card → E .noBuffers s)
    (hQ : x ∉ s.bufs.busy → Q (s.bufs.data x) (s.onBufs (·.lock x))) :
    wp pid (bufcacheRead x) Q E B s := by
  refine Handler.wp_call.2 ?_
  simp only [fsHandler, Store.layer, Store.bread]
  split_ifs with h₁ h₂
  · exact hB h₁
  · exact hE h₂.1 h₂.2
  · exact hQ h₁

theorem wp_bufGet {Q : Block → FsState Store → Prop} (hx : x ∈ s.bufs.busy)
    (hQ : Q (s.bufs.data x) s) : wp pid (bufGet x) Q E B s := by
  refine Handler.wp_call.2 ?_
  simp only [fsHandler, Store.layer, Store.bget, if_pos hx]
  exact hQ

theorem wp_bufSet {v : Block} (hE : x ∉ s.bufs.busy → E .misuse s)
    (hQ : x ∈ s.bufs.busy → Q () (s.onBufs (·.assign x v))) : wp pid (bufSet x v) Q E B s := by
  refine Handler.wp_call.2 ?_
  simp only [fsHandler, Store.layer, Store.bset]
  split_ifs with h
  · exact hQ h
  · exact hE h

theorem wp_bufcacheWrite (hx : x ∈ s.bufs.busy) (hQ : Q () (s.onBufs (·.flush x))) :
    wp pid (bufcacheWrite x) Q E B s := by
  refine Handler.wp_call.2 ?_
  simp only [fsHandler, Store.layer, Store.bwrite, if_pos hx]
  exact hQ

theorem wp_bufcacheRelease (hE : x ∉ s.bufs.busy → E .brelse s)
    (hm : x ∈ s.bufs.busy → x ∉ s.bufs.modified)
    (hQ : x ∈ s.bufs.busy → Q () (s.onBufs (·.unlock x))) :
    wp pid (bufcacheRelease x) Q E B s := by
  refine Handler.wp_call.2 ?_
  simp only [fsHandler, Store.layer, Store.brelse]
  split_ifs with h₁ h₂
  · exact absurd h₂ (hm h₁)
  · exact hQ h₁
  · exact hE h₁

theorem wp_bufDirty (hx : x ∈ s.bufs.busy) (hQ : Q () (s.onBufs (·.pin x))) :
    wp pid (bufDirty x) Q E B s := by
  refine Handler.wp_call.2 ?_
  simp only [fsHandler, Store.layer, Store.bdirty, if_pos hx]
  exact hQ

/-- A sector that is only read. -/
theorem wp_peek {α : Type} {Q : α → FsState Store → Prop} {k : Block → Fs α}
    (hm : x ∉ s.bufs.modified) (hB : x ∈ s.bufs.busy → B s)
    (hE : x ∉ s.bufs.dirty → nBuf ≤ (s.bufs.busy ∪ s.bufs.dirty).card → E .noBuffers s)
    (hQ : x ∉ s.bufs.busy → wp pid (k (s.bufs.data x)) Q E B s) :
    wp pid (do
      let b ← bufcacheRead x
      bufcacheRelease x
      k b) Q E B s := by
  refine Handler.wp_bind.2 (wp_bufcacheRead hB hE fun hx => ?_)
  refine Handler.wp_bind.2 (wp_bufcacheRelease (fun hb => absurd (Finset.mem_insert_self _ _) hb)
    (fun _ => hm) fun _ => ?_)
  have heq : (s.onBufs (·.lock x)).onBufs (·.unlock x) = s := by
    rw [FsState.onBufs, FsState.onBufs, Store.unlock_lock hx]
  rw [heq]
  exact hQ hx

/-- A sector that is changed and written through. -/
theorem wp_rewrite {α : Type} {Q : α → FsState Store → Prop} {k : Fs α} {f : Block → Block}
    (hB : x ∈ s.bufs.busy → B s)
    (hE : x ∉ s.bufs.dirty → nBuf ≤ (s.bufs.busy ∪ s.bufs.dirty).card → E .noBuffers s)
    (hQ : x ∉ s.bufs.busy → wp pid k Q E B (s.onBufs (·.write x (f (s.bufs.data x))))) :
    wp pid (do
      let b ← bufcacheRead x
      bufSet x (f b)
      bufcacheWrite x
      bufcacheRelease x
      k) Q E B s := by
  refine Handler.wp_bind.2 (wp_bufcacheRead hB hE fun hx => ?_)
  have hmem : x ∈ insert x s.bufs.busy := Finset.mem_insert_self _ _
  refine Handler.wp_bind.2 (wp_bufSet (fun hb => absurd hmem hb) fun _ => ?_)
  refine Handler.wp_bind.2 (wp_bufcacheWrite hmem ?_)
  refine Handler.wp_bind.2 (wp_bufcacheRelease (fun hb => absurd hmem hb)
    (fun _ => Finset.notMem_erase _ _) fun _ => ?_)
  have heq : ((((s.onBufs (·.lock x)).onBufs (·.assign x (f (s.bufs.data x)))).onBufs
      (·.flush x)).onBufs (·.unlock x)) = s.onBufs (·.write x (f (s.bufs.data x))) := by
    simp only [FsState.onBufs, Store.flush_assign, Store.unlock_write_lock hx]
  rw [heq]
  exact hQ hx

@[simp] theorem wp_logGet {Q : Log → FsState Store → Prop} :
    wp pid logGet Q E B s ↔ Q s.log s := Iff.rfl

@[simp] theorem wp_logSetArea {start size : Nat} :
    wp pid (logSetArea start size) Q E B s ↔ Q () (s.onLog fun l => { l with start, size }) :=
  Iff.rfl

@[simp] theorem wp_logSetSector {i v : Nat} : wp pid (logSetSector i v) Q E B s ↔
      Q () (s.onLog fun l => { l with sector := update l.sector i v }) := Iff.rfl

@[simp] theorem wp_logSetN {n : Nat} :
    wp pid (logSetN n) Q E B s ↔ Q () (s.onLog fun l => { l with n }) := Iff.rfl

@[simp] theorem wp_logRelease :
    wp pid logRelease Q E B s ↔ Q () (s.onLog fun l => { l with busy := false }) := Iff.rfl

theorem wp_beginTrans (hB : s.log.busy = true → B s)
    (hQ : s.log.busy = false → Q () (s.onLog fun l => { l with busy := true })) :
    wp pid beginTrans Q E B s := by
  refine Handler.wp_call.2 ?_
  simp only [fsHandler]
  split_ifs with h
  · exact hB h
  · exact hQ (by simpa using h)

theorem wp_logCheck {Q : Log → FsState Store → Prop}
    (hbig : logSize ≤ s.log.n ∨ s.log.size ≤ s.log.n + 1 → E .tooBig s)
    (hout : s.log.busy = false → E .outsideTrans s)
    (hQ : s.log.n < logSize → s.log.n + 1 < s.log.size → s.log.busy = true → Q s.log s) :
    wp pid logCheck Q E B s := by
  refine Handler.wp_call.2 ?_
  simp only [fsHandler, FsState.logCheck]
  split_ifs with h₁ h₂
  · exact hbig h₁
  · exact hout h₂
  · rw [not_or, Nat.not_le, Nat.not_le] at h₁
    exact hQ h₁.1 h₁.2 (by simpa using h₂)

/-- What `log_write` leaves: the slot has the contents of the sector, which is pinned. -/
def FsState.logged (s : FsState Store) (x : Nat) : FsState Store :=
  let i := s.log.slotOf x
  { s with
    bufs := (s.bufs.write (s.log.start + i + 1) (s.bufs.data x)).pin x
    log := { s.log with
      sector := update s.log.sector i x
      n := if i = s.log.n then s.log.n + 1 else s.log.n } }

/-- `log_write` of a sector that the caller holds. -/
theorem wp_logWrite (hx : x ∈ s.bufs.busy)
    (hbig : logSize ≤ s.log.n ∨ s.log.size ≤ s.log.n + 1 → E .tooBig s)
    (hout : s.log.busy = false → E .outsideTrans s)
    (hB : s.log.n + 1 < s.log.size → s.log.start + s.log.slotOf x + 1 ∈ s.bufs.busy → ∀ l,
      B { s with log := l }) (hE : s.log.start + s.log.slotOf x + 1 ∉ s.bufs.dirty →
      nBuf ≤ (s.bufs.busy ∪ s.bufs.dirty).card → ∀ l, E .noBuffers { s with log := l })
    (hQ : s.log.n < logSize → s.log.n + 1 < s.log.size → s.log.busy = true →
      s.log.start + s.log.slotOf x + 1 ∉ s.bufs.busy → Q () (s.logged x)) :
    wp pid (logWrite x) Q E B s := by
  rw [logWrite]
  refine Handler.wp_bind.2 (wp_logCheck hbig hout fun hn hsize hbusy => ?_)
  refine Handler.wp_bind.2 (wp_logSetSector.2 ?_)
  refine Handler.wp_bind.2 (wp_bufcacheRead (fun hb => hB hsize hb _)
    (fun hd hcard => hE hd hcard _) fun hslot => ?_)
  replace hslot : s.log.start + s.log.slotOf x + 1 ∉ s.bufs.busy := hslot
  have hmem : x ∈ insert (s.log.start + s.log.slotOf x + 1) s.bufs.busy :=
    Finset.mem_insert_of_mem hx
  have hself : s.log.start + s.log.slotOf x + 1 ∈
      insert (s.log.start + s.log.slotOf x + 1) s.bufs.busy := Finset.mem_insert_self _ _
  refine Handler.wp_bind.2 (wp_bufGet hmem ?_)
  refine Handler.wp_bind.2 (wp_bufSet (fun hb => absurd hself hb) fun _ => ?_)
  refine Handler.wp_bind.2 (wp_bufcacheWrite hself ?_)
  refine Handler.wp_bind.2 (wp_bufcacheRelease (fun hb => absurd hself hb)
    (fun _ => Finset.notMem_erase _ _) fun _ => ?_)
  have hlogged : ∀ t : FsState Store,
      t = { s with bufs := s.bufs.write (s.log.start + s.log.slotOf x + 1) (s.bufs.data x),
                   log := (s.logged x).log } → wp pid (bufDirty x) Q E B t := by
    rintro _ rfl
    exact wp_bufDirty hx (hQ hn hsize hbusy hslot)
  simp only [FsState.onBufs, FsState.onLog, Store.flush_assign, Store.unlock_write_lock hslot]
  split_ifs with hi
  · refine Handler.wp_bind.2 (wp_logSetN.2 (hlogged _ ?_))
    simp only [FsState.onLog, FsState.logged, if_pos hi]
    rfl
  · refine hlogged _ ?_
    simp only [FsState.logged, if_neg hi]
    rfl

end

end MCertikos
