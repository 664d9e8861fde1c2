import MCertikos.Fs.Contents
import MCertikos.Fs.Mkfs

/-!
# Mounted file systems

From volumes back to the code: `FsState.View` relates a state of the code, over the buffer cache,
to the volume that it shows, and what is proved of a program with `vwp` holds of its runs
(`vwp.run`). After `log_init` on a disk with an empty log the cache shows the disk (`mount_view`).
The rules for `begin_trans`, `commit_trans` and `inode_lock` are here too, and what it takes for a
file system to be consistent (`Consistent`).
-/

namespace MCertikos

open Program BitField Function

variable {d : Disk}

/-! ## From volumes to the cache -/

/-- The state over the buffer cache shows the volume. -/
def FsState.View (s : FsState BufCache) (a : FsState Vol) : Prop :=
  ∃ t : FsState Store, s.Represents t ∧ t.Shows a

section
variable {α : Type} {A : Allow} {pid : Nat} {p : Fs α} {Q : α → FsState Vol → Prop}
  {a : FsState Vol} {s : FsState BufCache}

theorem FsState.View.inode (h : s.View a) : s.inode = a.inode := by
  obtain ⟨u, hrep, hshows⟩ := h
  exact (congrArg FsState.inode hrep.1).trans (congrArg FsState.inode hshows.1)

theorem FsState.View.log (h : s.View a) : s.log = a.log := by
  obtain ⟨u, hrep, hshows⟩ := h
  exact (congrArg FsState.log hrep.1).trans (congrArg FsState.log hshows.1)

theorem FsState.View.current (h : s.View a) {x : Nat} (hx : ¬ InLog a.log.start a.log.size x) :
    s.bufs.current x = a.bufs.data x := by
  obtain ⟨u, hrep, hshows⟩ := h
  exact hrep.2.current_eq.trans (hshows.2.data x hx)

/-- What holds of the volume holds of what the code does. The one way to stop that a volume does
not see is a buffer that is given back with changes. -/
theorem vwp.run (h : vwp A pid p Q a) (hs : s.View a) (hsaved : ¬ A.panic .unsaved) :
    ((fsHandler BufCache.layer pid).run p s).Sat (fun r s' => ∃ a', s'.View a' ∧ Q r a')
      (fun e _ => A.panic e) (fun _ => A.block) := by
  obtain ⟨t, hrep, hshows⟩ := hs
  refine ((hrep.run pid p).sat (h t hshows) ?_).mono ?_ ?_ ?_
  · rintro e _ he rfl
    exact hsaved he
  · rintro r s' ⟨t', hrep', a', hshows', hq⟩
    exact ⟨a', ⟨t', hrep', hshows'⟩, hq⟩
  · rintro e _ ⟨_, -, he⟩
    exact he
  · rintro _ ⟨_, -, hb⟩
    exact hb

end

/-! ## The start -/

/-- The volume after `log_init` on a disk. -/
def mounted (d : Disk) : FsState Vol :=
  { FsState.booted (B := Vol) ⟨d, ∅⟩ with
    log := {
      start := (superOf d).logStart, size := (superOf d).nlog.toNat, busy := false, n := 0
      sector := fun _ => 0 } }

/-- `log_init` on a disk with an empty log rewrites the header. -/
theorem wp_logInit_empty {pid : Nat} {Q : Unit → FsState Store → Prop}
    {E : Panic → FsState Store → Prop} {B : FsState Store → Prop} {s : FsState Store}
    (hidle : s.bufs.Idle) (hm : s.bufs.modified = ∅)
    (hhead : headerN (s.bufs.data (superOf s.bufs.data).logStart) = 0)
    (hQ : ∀ (l : Log) (v : Block), l.start = (superOf s.bufs.data).logStart →
      l.size = (superOf s.bufs.data).nlog.toNat → l.n = 0 → l.busy = s.log.busy → l.sector =
      s.log.sector → Q () { s with bufs := s.bufs.write (superOf s.bufs.data).logStart v, log :=
        l }) :
    wp pid logInit Q E B s := by
  have hempty : ∀ x, x ∉ s.bufs.busy := fun x => by
    rw [hidle.1]
    exact Finset.notMem_empty x
  have hcard : ¬ nBuf ≤ (s.bufs.busy ∪ s.bufs.dirty).card := by
    rw [hidle.1, hidle.2]
    decide
  have hmod : 1 ∉ s.bufs.modified := by
    rw [hm]
    exact Finset.notMem_empty 1
  rw [logInit, readSuperblock]
  refine Handler.wp_bind.2 (wp_peek (k := fun b => pure (Superblock.ofBlock b)) hmod
    (fun hb => absurd hb (hempty 1)) (fun _ hc => absurd hc hcard) fun _ => ?_)
  refine Handler.wp_pure.2 (Handler.wp_bind.2 (wp_logSetArea.2 ?_))
  rw [recoverFromLog]
  refine Handler.wp_bind.2 (wp_readHead hidle hm fun l hstart hsize hn hbusy hsec => ?_)
  replace hstart : l.start = (superOf s.bufs.data).logStart := hstart
  replace hn : l.n = 0 := hn.trans hhead
  have hsector : l.sector = s.log.sector := funext fun i => (hsec i).trans (if_neg (by omega))
  rw [installTrans]
  refine Handler.wp_bind.2 (Handler.wp_bind.2 (wp_logGet.2 ?_))
  -- The header is empty, so that nothing is installed.
  dsimp only
  rw [hn]
  refine Handler.wp_pure.2 (Handler.wp_bind.2
    (wp_logSetN.2 (wp_writeHead (fun hb => absurd hb (hempty _)) (fun hc => absurd hc hcard) ?_)))
  have hpost := hQ { l with n := 0 } (putHeader (s.bufs.data l.start) { l with n := 0 })
    hstart hsize rfl hbusy hsector
  rw [← hstart] at hpost
  exact hpost

/-- After `log_init` on a disk with an empty log, the cache shows the disk. -/
theorem bootFrom_view (hlog : 0 < (superOf d).nlog.toNat)
    (hhead : headerN (d (superOf d).logStart) = 0) :
    (FsState.bootFrom d).View (mounted d) := by
  have hrep := FsState.represents_store (s := .booted (BufCache.init d)) (BufCache.clean_init d)
  have hwp : wp 0 logInit (fun _ t => t.Shows (mounted d)) (fun _ _ => False) (fun _ => False)
      (FsState.withBufs (.booted (BufCache.init d)) (BufCache.init d).store) := by
    refine wp_logInit_empty ⟨rfl, rfl⟩ rfl hhead fun l v hstart hsize hn hbusy hsector => ?_
    have hl : l = (mounted d).log := by
      cases l
      cases hstart
      cases hsize
      cases hn
      cases hbusy
      cases hsector
      rfl
    subst hl
    refine ⟨rfl, ⟨fun x hx => update_of_ne (fun he => hx ?_) _ _, rfl, rfl, rfl, nofun, nofun,
      nofun, nofun, .inr rfl⟩⟩
    exact ⟨he.ge, by rw [he]; exact Nat.lt_add_of_pos_right hlog⟩
  have hsat := (hrep.run 0 logInit).sat hwp fun _ _ hf => hf.elim
  rw [FsState.bootFrom]
  cases hrun : (fsHandler BufCache.layer 0).run logInit (.booted (.init d)) with
  | ok r s =>
    rw [hrun] at hsat
    obtain ⟨t, hR, hshows⟩ := hsat
    exact ⟨t, hR, hshows⟩
  | panic e s =>
    rw [hrun] at hsat
    obtain ⟨-, -, hf⟩ := hsat
    exact hf.elim
  | blocked s =>
    rw [hrun] at hsat
    obtain ⟨-, -, hf⟩ := hsat
    exact hf.elim

/-! ## Transactions -/

section
variable {A : Allow} {pid : Nat} {a : FsState Vol} {Q : Unit → FsState Vol → Prop}

/-- A transaction is started. -/
def FsState.begun (a : FsState Vol) : FsState Vol := { a with log := { a.log with busy := true } }

/-- The transaction is committed: the log is empty. -/
def FsState.committed (a : FsState Vol) : FsState Vol :=
  { a with log := { a.log with n := 0, busy := false } }

theorem vwp_beginTrans (hblock : a.log.busy = true → A.block)
    (hQ : a.log.busy = false → Q () a.begun) : vwp A pid beginTrans Q a :=
  vwp_of fun _ hb => wp_beginTrans hblock fun hbusy =>
    ⟨a.begun, ⟨rfl, { hb with }⟩, hQ hbusy⟩

/-- What holds while `install_trans` has the slots `tails` still to do: each of them has the
contents of its sector, and the sectors of the others are on the disk. -/
structure Store.Installs (l : Log) (v : Vol) (tails : List Nat) (b : Store) : Prop where
  data : ∀ x, ¬ InLog l.start l.size x → b.data x = v.data x
  busy : b.busy = ∅
  dirty : ∀ x ∈ b.dirty, ∃ i ∈ tails, l.sector i = x
  modified : b.modified = ∅
  slot : ∀ i ∈ tails, b.data (l.start + i + 1) = b.data (l.sector i)
  apart : ∀ i ∈ tails, l.sector i ≠ l.start + i + 1

/-- The sector of the next slot is written. -/
theorem Store.Installs.write {l : Log} {v : Vol} {b : Store} {i : Nat} {tails : List Nat}
    (h : b.Installs l v (i :: tails)) :
    (b.write (l.sector i) (b.data (l.start + i + 1))).Installs l v tails := by
  have hsame : update b.data (l.sector i) (b.data (l.start + i + 1)) = b.data := by
    rw [h.slot i List.mem_cons_self, update_eq_self]
  refine ⟨fun x hx => (congrFun hsame x).trans (h.data x hx), h.busy, fun x hx => ?_, ?_,
    fun j hj => ?_, fun j hj => h.apart j (List.mem_cons_of_mem i hj)⟩
  · obtain ⟨hne, hx⟩ := Finset.mem_erase.1 hx
    obtain ⟨j, hj, rfl⟩ := h.dirty x hx
    rcases List.mem_cons.1 hj with rfl | hj
    · exact absurd rfl hne
    · exact ⟨j, hj, rfl⟩
  · exact (congrArg (Finset.erase · (l.sector i)) h.modified).trans (Finset.erase_empty _)
  · exact (congrFun hsame _).trans
      ((h.slot j (List.mem_cons_of_mem i hj)).trans (congrFun hsame _).symm)

/-- The loop of `install_trans`. -/
theorem Store.Installs.wp_installFrom {l : Log} {v : Vol} {s : FsState Store} {tails : List Nat}
    (h : s.bufs.Installs l v tails) (hroom : A.panic .noBuffers ∨ s.bufs.dirty.card + 1 < nBuf) :
    wp pid (installFrom l tails)
      (fun _ t => t = s.withBufs t.bufs ∧ t.bufs.Installs l v [] ∧ t.bufs.dirty ⊆ s.bufs.dirty)
      (fun e _ => A.panic e) (fun _ => A.block) s := by
  induction tails generalizing s with
  | nil => exact ⟨rfl, h, subset_rfl⟩
  | cons i tails ih =>
    have hbusy : ∀ x, x ∉ s.bufs.busy := fun x => by
      rw [h.busy]
      exact Finset.notMem_empty x
    rw [installFrom]
    refine wp_copySector (h.apart i List.mem_cons_self) h.modified (fun b _ _ hcard => ?_)
      (fun b _ _ hb => (hb.elim (hbusy _) (hbusy _)).elim) ?_
    · rw [h.busy, Finset.empty_union] at hcard
      exact hroom.resolve_right fun hlt => by omega
    · have hle : (s.bufs.dirty.erase (l.sector i)).card ≤ s.bufs.dirty.card :=
        Finset.card_le_card (Finset.erase_subset _ _)
      refine (ih (s :=
        { s with bufs := s.bufs.write (l.sector i) (s.bufs.data (l.start + i + 1)) })
          h.write (hroom.imp id fun hlt => ?_)).mono ?_ (fun _ _ he => he) fun _ hb => hb
      · simp only [Store.write]
        omega
      · rintro _ t ⟨ht, hinst, hsub⟩
        exact ⟨ht, hinst, hsub.trans (Finset.erase_subset _ _)⟩

/-- `commit_trans` keeps the contents and empties the log. -/
theorem vwp_commitTrans (hheld : a.bufs.held = ∅) (hroom : A.panic .noBuffers ∨ a.log.n + 1 < nBuf)
    (hQ : Q () a.committed) : vwp A pid commitTrans Q a := by
  refine vwp_of fun b hb => ?_
  have hbusy : b.busy = ∅ := hb.busy.trans hheld
  have hfree : ∀ x, x ∉ b.busy := fun x => by
    rw [hbusy]
    exact Finset.notMem_empty x
  have hdirty : b.dirty.card = a.log.n := by
    rw [hb.dirty, hb.distinct.card_sectors]
  rw [commitTrans]
  refine Handler.wp_bind.2 (wp_logGet.2 ?_)
  have hdone : ∀ b' : Store, (∀ x, ¬ InLog a.log.start a.log.size x → b'.data x = a.bufs.data x) →
      b'.busy = ∅ → b'.dirty = ∅ → b'.modified = ∅ → b'.Shows a.committed.log a.committed.bufs :=
    fun b' hdata hbusy' hdirty' hmod => ⟨hdata, hbusy'.trans hheld.symm, hdirty', hmod,
      fun i hi => absurd hi (Nat.not_lt_zero i), fun i hi =>
      absurd hi (Nat.not_lt_zero i), hb.held, fun x hx =>
      absurd hx (Finset.notMem_empty x), .inr rfl⟩
  rcases Nat.eq_zero_or_pos a.log.n with hn | hn
  · have hempty : b.dirty = ∅ := Finset.card_eq_zero.1 (hdirty.trans hn)
    rw [if_neg (by simp [FsState.withBufs, hn])]
    refine wp_logRelease.2 ⟨a.committed, ⟨?_, hdone b hb.data hbusy hempty hb.modified⟩, hQ⟩
    simp only [FsState.onLog, FsState.withBufs, FsState.committed, hn]
  · have hsize : a.log.n < a.log.size := hb.room.resolve_right hn.ne'
    have hstart : InLog a.log.start a.log.size a.log.start := ⟨le_rfl, by omega⟩
    have hhead : ∀ x, ¬ InLog a.log.start a.log.size x → x ≠ a.log.start := fun x hx he =>
      hx (he ▸ hstart)
    have hcard : nBuf ≤ (b.busy ∪ b.dirty).card → A.panic .noBuffers := fun hc => by
      rw [hbusy, Finset.empty_union, hdirty] at hc
      exact hroom.resolve_right fun hlt => by omega
    rw [if_pos (show 0 < (a.withBufs b).log.n from hn)]
    refine Handler.wp_bind.2 (wp_writeHead (fun hx => absurd hx (hfree _)) hcard ?_)
    -- The header is written, and the slots have their contents still.
    have hinst : (b.write a.log.start (putHeader (b.data a.log.start) a.log)).Installs a.log a.bufs
        (List.range a.log.n) := by
      have hdata : ∀ x ≠ a.log.start, update b.data a.log.start
          (putHeader (b.data a.log.start) a.log) x = b.data x := fun x hx => update_of_ne hx _ _
      have hsec : ∀ i ∈ List.range a.log.n, ¬ InLog a.log.start a.log.size (a.log.sector i) :=
        fun i hi =>
        hb.home _ (Log.mem_sectors.2 ⟨i, List.mem_range.1 hi, rfl⟩)
      refine ⟨fun x hx => (hdata x (hhead x hx)).trans (hb.data x hx), hbusy, fun x hx => ?_, ?_,
        fun i hi => ?_, fun i hi he => hsec i hi (he ▸ ⟨by omega, ?_⟩)⟩
      · obtain ⟨i, hi, rfl⟩ := Log.mem_sectors.1 (hb.dirty ▸ Finset.mem_of_mem_erase hx)
        exact ⟨i, List.mem_range.2 hi, rfl⟩
      · exact (congrArg (Finset.erase · _) hb.modified).trans (Finset.erase_empty _)
      · exact (hdata _ (by omega)).trans ((hb.slot i (List.mem_range.1 hi)).trans
          (hdata _ (hhead _ (hsec i hi))).symm)
      · have := List.mem_range.1 hi
        omega
    have hle : (b.dirty.erase a.log.start).card ≤ b.dirty.card :=
      Finset.card_le_card (Finset.erase_subset _ _)
    rw [installTrans]
    refine Handler.wp_bind.2 (Handler.wp_bind.2 (wp_logGet.2 ((hinst.wp_installFrom (A := A)
      (s := (a.withBufs b).onBufs _) (hroom.imp id fun hlt => ?_)).mono ?_ (fun _ _ he => he)
      fun _ hb => hb)))
    · simp only [FsState.onBufs, FsState.withBufs, Store.write]
      omega
    · rintro _ t ⟨ht, hinst', -⟩
      have hclean : t.bufs.dirty = ∅ := Finset.eq_empty_of_forall_notMem fun x hx => by
        obtain ⟨i, hi, -⟩ := hinst'.dirty x hx
        exact absurd hi List.not_mem_nil
      have hlog : t.log = a.log := congrArg FsState.log ht
      refine Handler.wp_bind.2 (wp_logSetN.2
        (Handler.wp_bind.2 (wp_writeHead (fun hx => ?_) (fun hc => ?_)
          (wp_logRelease.2 ⟨a.committed, ⟨?_, hdone _ (fun x hx => ?_) ?_ ?_ ?_⟩, hQ⟩))))
      · exact absurd (hinst'.busy ▸ hx) (Finset.notMem_empty _)
      · simp only [FsState.onLog, hinst'.busy, hclean] at hc
        exact absurd hc (by decide)
      · rw [ht]
        rfl
      · simp only [FsState.onLog, FsState.onBufs, Store.write, hlog]
        exact (update_of_ne (hhead x hx) _ _).trans (hinst'.data x hx)
      · exact hinst'.busy
      · exact (congrArg (Finset.erase · _) hclean).trans (Finset.erase_empty _)
      · exact (congrArg (Finset.erase · _) hinst'.modified).trans (Finset.erase_empty _)

end

/-! ## Consistent file systems -/

/-- The blocks in use are owned by the inodes; the copies of inodes in memory are those on disk. -/
structure Tracks (a : FsState Vol) (D : Nat → Dinode) : Prop where
  geo : Geometry a.bufs.data a.log
  owned : Owned a.bufs.data D
  disk : ∀ i < (superOf a.bufs.data).ninodes.toNat, dinodeAt a.bufs.data i = D i
  cached : ∀ e i, a.Opens e i → (a.inode e).din = D i
  unique : ∀ e e', 0 < (a.inode e).ref → 0 < (a.inode e').ref → (a.inode e).inum =
    (a.inode e').inum → e = e'

/-- Every inode that is allocated has its blocks, which no other one has; the copies of inodes in
memory are those on disk. -/
structure Consistent (a : FsState Vol) (D : Nat → Dinode) : Prop extends Tracks a D where
  full : ∀ i, Allocated (superOf a.bufs.data) D i → Full a.bufs.data D i

/-- The state with another entry of the inode cache. -/
def FsState.setEntry {B : Type} (a : FsState B) (ip : Nat) (x : Inode) : FsState B :=
  { a with inode := update a.inode ip x }

section
variable {A : Allow} {pid ip i e : Nat} {a : FsState Vol} {g : Ghost}
  {D : Nat → Dinode} {x : Inode} {Q : Unit → FsState Vol → Prop}

/-- A thread may use some sectors and some of the free blocks. -/
theorem Tracks.fit (h : Tracks a D) {U : Finset Nat} {m : Nat} (hm : m ≤ spare a.bufs.data)
    (hbudget : A.Lax ∨ Ghost.Fits ⟨D, U, m⟩ a) : Fit A a ⟨D, U, m⟩ :=
  ⟨h.geo, h.owned, h.cached, h.unique, hm, hbudget⟩

@[simp] theorem FsState.setEntry_self : (a.setEntry ip x).inode ip = x := update_self _ _ _

theorem FsState.setEntry_of_ne (h : e ≠ ip) : (a.setEntry ip x).inode e = a.inode e :=
  update_of_ne h _ _

@[simp] theorem FsState.setEntry_log : (a.setEntry ip x).log = a.log := rfl

/-- An entry of the inode cache is changed. -/
theorem Tracks.setEntry (h : Tracks a D) (hc : 0 < x.ref → x.valid = true → x.din = D x.inum)
    (hu : ∀ e ≠ ip, 0 < x.ref → 0 < (a.inode e).ref → (a.inode e).inum ≠ x.inum) :
    Tracks (a.setEntry ip x) D where
  geo := h.geo
  owned := h.owned
  disk := h.disk
  cached e j he := by
    obtain ⟨href, hvalid, hj⟩ := he
    rcases eq_or_ne e ip with rfl | hne
    · rw [FsState.setEntry_self] at href hvalid hj ⊢
      exact hj ▸ hc href hvalid
    · rw [FsState.setEntry_of_ne hne] at href hvalid hj ⊢
      exact h.cached e j ⟨href, hvalid, hj⟩
  unique e e' hr hr' hi := by
    rcases eq_or_ne e ip with he | hne <;> rcases eq_or_ne e' ip with he' | hne'
    · exact he.trans he'.symm
    · rw [he, FsState.setEntry_self] at hr hi
      rw [FsState.setEntry_of_ne hne'] at hr' hi
      exact absurd hi.symm (hu e' hne' hr hr')
    · rw [he', FsState.setEntry_self] at hr' hi
      rw [FsState.setEntry_of_ne hne] at hr hi
      exact absurd hi (hu e hne hr' hr)
    · rw [FsState.setEntry_of_ne hne] at hr hi
      rw [FsState.setEntry_of_ne hne'] at hr' hi
      exact h.unique e e' hr hr' hi

theorem Consistent.setEntry (h : Consistent a D)
    (hc : 0 < x.ref → x.valid = true → x.din = D x.inum)
    (hu : ∀ e ≠ ip, 0 < x.ref → 0 < (a.inode e).ref → (a.inode e).inum ≠ x.inum) :
    Consistent (a.setEntry ip x) D := ⟨h.toTracks.setEntry hc hu, h.full⟩

/-- An entry of the inode cache is locked and has a copy of the inode. -/
def FsState.lockInode (a : FsState Vol) (ip : Nat) (din : Dinode) : FsState Vol :=
  a.setEntry ip { a.inode ip with busy := true, valid := true, din }

theorem FsState.opens_lockInode {din : Dinode} (href : 0 < (a.inode ip).ref)
    (hinum : (a.inode ip).inum = i) :
    (a.lockInode ip din).Opens ip i := by
  refine ⟨?_, ?_, ?_⟩ <;> rw [FsState.lockInode, FsState.setEntry_self]
  · exact href
  · exact hinum

theorem Tracks.lockInode (h : Tracks a D) (hinum : (a.inode ip).inum = i) :
    Tracks (a.lockInode ip (D i)) D :=
  h.setEntry (fun _ _ => by rw [hinum]) fun e hne hr he hi => hne (h.unique e ip he hr hi)

theorem Consistent.lockInode (h : Consistent a D) (hinum : (a.inode ip).inum = i) :
    Consistent (a.lockInode ip (D i)) D := ⟨h.toTracks.lockInode hinum, h.full⟩

/-- `inode_lock` waits for the lock, and fails if the inode is read from the disk and is not
allocated. -/
theorem vwp_inodeLock {A' : Allow} (h : Fit A' a g) (href : 0 < (a.inode ip).ref)
    (hinum : (a.inode ip).inum = i) (hi : i < (superOf a.bufs.data).ninodes.toNat)
    (hroom : A.Reads a) (hheld : iblock i ∉ a.bufs.held)
    (hblock : (a.inode ip).busy = true → A.block)
    (hdisk : (a.inode ip).valid = false → dinodeAt a.bufs.data i = g.D i)
    (htype : (a.inode ip).valid = false → (g.D i).type = 0 → A.panic .noType)
    (hQ : ((a.inode ip).valid = false → (g.D i).type ≠ 0) → Q () (a.lockInode ip (g.D i))) :
    vwp A pid (inodeLock ip) Q a := by
  have hhome := h.home_of_lt_dataStart ((iblock_lt hi).trans bitmapStart_lt_dataStart)
  refine vwp_bind (vwp_mem (o := .inodeAcquire ip) trivial ?_)
  simp only [fsHandler, FsState.inodeAcquire]
  rw [if_neg (by omega)]
  split
  · next hb => exact hblock hb
  cases hvalid : (a.inode ip).valid with
  | true =>
    have hlock : a.lockInode ip (g.D i) = { a with inode := a.inode.setBusy ip true } := by
      rw [FsState.lockInode, FsState.setEntry, ← h.cached ip i ⟨href, hvalid, hinum⟩]
      simp only [InodeCache.setBusy, ← hvalid]
    exact vwp_pure (hlock ▸ hQ (fun hf => absurd (hvalid.symm.trans hf) (by simp)))
  | false =>
    refine vwp_bind (vwp_readInode ?_)
    simp only [InodeCache.setBusy, update_self, hinum]
    refine vwp_bind (vwp_bufcacheRead hroom hheld hhome (vwp_bind (vwp_setDinode (vwp_bind
      (vwp_bufcacheRelease (Finset.mem_insert_self _ _)
        (vwp_bind (vwp_mem (o := .inodeSetValid ip) trivial
        ?_)))))))
    have hdin : getDinode (a.bufs.data (iblock i)) (i % ipb) = g.D i := hdisk hvalid
    simp only [fsHandler, Outcome.Sat, hdin]
    refine vwp_ite (fun h0 => vwp_kernPanic (htype hvalid h0)) fun hne => vwp_pure ?_
    have hlock : ∀ b, b = a.lockInode ip (g.D i) → Q () b := by
      rintro _ rfl
      exact hQ fun _ => hne
    refine hlock _ ?_
    simp [FsState.lockInode, FsState.setEntry, FsState.release, FsState.hold, InodeCache.setDin,
      InodeCache.setValid, Finset.erase_insert hheld, hinum]

theorem Tracks.begun (h : Tracks a D) : Tracks a.begun D :=
  ⟨⟨h.geo.start, h.geo.size, h.geo.fits⟩, h.owned, h.disk,
    fun e j he => h.cached e j ⟨he.ref, he.valid, he.inum⟩, h.unique⟩

theorem Tracks.committed (h : Tracks a D) : Tracks a.committed D :=
  ⟨⟨h.geo.start, h.geo.size, h.geo.fits⟩, h.owned, h.disk,
    fun e j he => h.cached e j ⟨he.ref, he.valid, he.inum⟩, h.unique⟩

theorem Consistent.begun (h : Consistent a D) : Consistent a.begun D := ⟨h.toTracks.begun, h.full⟩

/-- `inode_lock` of an allocated inode that is not locked, before anything is logged. -/
theorem vwp_inodeLock_free (h : Tracks a D) (href : 0 < (a.inode ip).ref)
    (hinum : (a.inode ip).inum = i) (hi : Allocated (superOf a.bufs.data) D i)
    (hfree : (a.inode ip).busy = false) (hempty : a.log.n = 0) (hheld : a.bufs.held = ∅)
    (hQ : Q () (a.lockInode ip (D i))) : vwp A pid (inodeLock ip) Q a := by
  have hfit : Fit ⟨fun _ => True, True⟩ a ⟨D, ∅, 0⟩ :=
    h.fit (Nat.zero_le _) (.inl ⟨trivial, trivial⟩)
  have hreads : A.Reads a := by
    refine .inr ?_
    rw [hempty, hheld]
    decide
  refine vwp_inodeLock hfit href hinum hi.2.1 hreads ?_ ?_ (fun _ => ?_) (fun _ h0 => ?_) fun _ =>
    hQ
  · rw [hheld]
    exact Finset.notMem_empty _
  · exact fun hb => absurd (hfree.symm.trans hb) nofun
  · exact h.disk i hi.2.1
  · exact absurd h0 hi.2.2

end

/-- A disk is a consistent file system. -/
structure Disk.Consistent (d : Disk) : Prop where
  log : 0 < (superOf d).nlog.toNat
  header : headerN (d (superOf d).logStart) = 0
  size : (superOf d).logStart + (superOf d).nlog.toNat = (superOf d).size.toNat
  fits : (superOf d).dataStart ≤ (superOf d).logStart
  owned : Owned d (dinodeAt d)
  full : ∀ i, Allocated (superOf d) (dinodeAt d) i → Full d (dinodeAt d) i

/-- After `log_init`, the one entry of the inode cache in use is that of the root directory. -/
theorem mounted_ref {e : Nat} (h : 0 < ((mounted d).inode e).ref) : e = 0 := by
  by_contra hne
  simp [mounted, FsState.booted, FsState.zeroed, hne] at h

theorem mounted_valid {e : Nat} : ((mounted d).inode e).valid = false := by
  rcases eq_or_ne e 0 with rfl | hne
  · rfl
  · simp [mounted, FsState.booted, FsState.zeroed, hne]

theorem Disk.Consistent.mounted (h : d.Consistent) :
    MCertikos.Consistent (mounted d) (dinodeAt d) where
  geo := ⟨rfl, h.size, h.fits⟩
  owned := h.owned
  full := h.full
  disk _ _ := rfl
  cached _ _ he := absurd (mounted_valid.symm.trans he.valid) nofun
  unique _ _ he he' _ := (mounted_ref he).trans (mounted_ref he').symm

/-! ## The empty file system -/

/-- The layout of the images that `mkfs` makes, when the root directory takes one block and all
other inodes are empty. -/
structure RootOnly (d : Disk) : Prop where
  super : superOf d = ⟨1024, 985, 200, 10⟩
  header : headerN (d (superOf d).logStart) = 0
  root : (dinodeAt d 1).type = tDir ∧ (dinodeAt d 1).size = 512
  ptr : ∀ k < nSlots, ptr d (dinodeAt d 1) k = if k = 0 then 29 else 0
  empty : ∀ i < 200, i ≠ 1 → (dinodeAt d i).type ≠ 0 →
    (dinodeAt d i).size = 0 ∧ ∀ k < nSlots, MCertikos.ptr d (dinodeAt d i) k = 0
  used : ∀ b < 30, ¬ Free d b

namespace RootOnly

variable {d : Disk}

theorem allocated (h : RootOnly d) : Allocated (superOf d) (dinodeAt d) 1 := by
  rw [Allocated, h.super, h.root.1]
  decide

theorem owner (h : RootOnly d) {s : Nat × Nat} {b : Nat} :
    owner d (dinodeAt d) s = some b ↔ s = (1, 0) ∧ b = 29 := by
  rw [owner_eq_some]
  constructor
  · rintro ⟨⟨-, hlt, htype⟩, hk, hb, hne⟩
    rw [h.super] at hlt
    rcases eq_or_ne s.1 1 with hi | hi
    · rw [hi, h.ptr _ hk] at hb
      split at hb
      · next h0 => exact ⟨Prod.ext hi h0, hb.symm⟩
      · exact absurd hb.symm hne
    · exact absurd (hb.symm.trans ((h.empty s.1 hlt hi htype).2 _ hk)) hne
  · rintro ⟨rfl, rfl⟩
    exact ⟨h.allocated, by decide, h.ptr 0 (by decide), by decide⟩

theorem consistent (h : RootOnly d) : d.Consistent where
  log := by
    rw [h.super]
    decide
  header := h.header
  size := by
    rw [h.super]
    decide
  fits := by
    rw [h.super]
    decide
  owned := by
    refine ⟨⟨fun s b hs => ?_, fun s t b hs ht => ?_⟩, fun b hb => h.used b ?_⟩
    · obtain ⟨-, rfl⟩ := h.owner.1 hs
      refine ⟨?_, h.used 29 (by decide)⟩
      rw [h.super]
      decide
    · rw [(h.owner.1 hs).1, (h.owner.1 ht).1]
    · refine hb.trans ?_
      rw [h.super]
      decide
  full i hi := by
    rcases eq_or_ne i 1 with rfl | hne
    · refine ⟨by rw [h.root.2]; decide, fun o ho => ?_⟩
      rw [h.root.2] at ho
      rw [Nat.div_eq_of_lt (show o < bSize from ho)]
      exact fun hn => absurd (hn.symm.trans (h.owner.2 ⟨rfl, rfl⟩)) nofun
    · have hlt : i < 200 := by
        have := hi.2.1
        rwa [h.super] at this
      have hsize := (h.empty i hlt hne hi.2.2).1
      refine ⟨by rw [hsize]; decide, fun o ho => ?_⟩
      rw [hsize] at ho
      exact absurd ho (Nat.not_lt_zero o)

end RootOnly

/-- What the image of an empty file system holds: the root directory, with one block. -/
theorem superOf_emptyImage : superOf emptyImage = ⟨1024, 985, 200, 10⟩ := by decide +kernel

theorem emptyImage_inode : ∀ i < 200, (dinodeAt emptyImage i).type ≠ 0 → i = 1 := by decide +kernel

theorem emptyImage_used : ∀ b < 30, ¬ Free emptyImage b := by decide +kernel

theorem emptyImage_root : (dinodeAt emptyImage 1).type = tDir ∧
    (dinodeAt emptyImage 1).size = 512 := by
  decide +kernel

theorem rootOnly_emptyImage : RootOnly emptyImage where
  super := superOf_emptyImage
  header := by decide +kernel
  root := emptyImage_root
  ptr := by decide +kernel
  empty i hi hne htype := absurd (emptyImage_inode i hi htype) hne
  used := emptyImage_used

theorem allocated_emptyImage {i : Nat} :
    Allocated (superOf emptyImage) (dinodeAt emptyImage) i ↔ i = 1 := by
  constructor
  · rintro ⟨-, hlt, htype⟩
    rw [superOf_emptyImage] at hlt
    exact emptyImage_inode i hlt htype
  · rintro rfl
    exact rootOnly_emptyImage.allocated

theorem owner_emptyImage {s : Nat × Nat} {b : Nat} :
    owner emptyImage (dinodeAt emptyImage) s = some b ↔ s = (1, 0) ∧ b = 29 :=
  rootOnly_emptyImage.owner

/-- The file system that `mkfs` makes without files is consistent. -/
theorem consistent_emptyImage : emptyImage.Consistent := rootOnly_emptyImage.consistent

/-- The super block and the free blocks of a volume whose super block, and bitmap, are those of the
empty file system. -/
theorem spare_of_view {s : FsState BufCache} {a : FsState Vol} (ha : s.View a)
    (hlog : s.log.start = 1014) (hsuper : s.bufs.current 1 = emptyImage 1) :
    superOf a.bufs.data = superOf emptyImage ∧
      (s.bufs.current 28 = emptyImage 28 → spare a.bufs.data = spare emptyImage) := by
  have hdata : ∀ x < 1014, a.bufs.data x = s.bufs.current x := fun x hx =>
    (ha.current fun hin => absurd (hin.1.trans_lt hx) (by rw [← ha.log, hlog]; decide)).symm
  have hsame : superOf a.bufs.data = superOf emptyImage := by
    rw [superOf, hdata 1 (by decide), hsuper, superOf]
  refine ⟨hsame, fun hbitmap => spare_congr hsame fun x hlo hhi => ?_⟩
  rw [superOf_emptyImage] at hlo hhi
  obtain rfl : x = 28 := Nat.le_antisymm (Nat.le_of_lt_succ hhi) hlo
  rw [hdata 28 (by decide)]
  exact hbitmap

end MCertikos
