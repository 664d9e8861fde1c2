import MCertikos.Fs.BufCache
import MCertikos.Fs.Coherence

/-!
# Calls of the buffer cache without interruption

`BufCache` has each call of the buffer cache as one step, over a list of the buffers in order of
use. `Cache` has the calls cut where a thread waits, over the links between the buffers and the
queue of the disk. For a thread that alone uses the cache the two agree: it goes on in its call,
the disk serves the request it waits for, and when the call has returned the cache is as
`BufCache` says (`Cache.Alone.read`, `Cache.Alone.assign`, `Cache.Alone.write`,
`Cache.Alone.release`).
-/

namespace MCertikos

open LinkedRing Transition Function Program

/-- A buffer as in `BufCache`, which has one device only. -/
def DiskBuf.onRoot (v : DiskBuf) : Buf where
  sector := if v.dev = rootDev then some v.sector else none
  busy := v.busy
  valid := v.valid
  dirty := v.dirty
  data := v.data

namespace Cache

/-- The cache is as in `c`. -/
structure Shows (s : Cache) (c : BufCache) : Prop where
  listed : Listed s.links c.mru
  buf : ∀ b, c.buf b = (s.buf b).onRoot
  disk : ∀ sector, s.disk (rootDev, sector) = c.disk sector
  drive : s.havedisk1 = true

/-- All locked buffers are of the thread, and no request waits for the disk. -/
structure Quiet (s : Cache) (t : Nat) : Prop where
  held : ∀ b < nBuf, (s.buf b).busy = true → b ∈ s.held t
  queue : s.idequeue = []

/-- The thread is in no call, and no other thread uses the cache. -/
structure Alone (s : Cache) (t : Nat) (c : BufCache) : Prop extends s.Shows c, s.Quiet t where
  idle : s.pc t = .idle

/-- The thread goes on in its call, and the disk serves its request. -/
abbrev GoesOn (t : Nat) : Cache → Cache → Prop :=
  cacheMachine.Runs fun _ a => a = .run t ∨ a = .intr

variable {s u : Cache} {c c' : BufCache} {t b sector : Nat} {v : DiskBuf} {data : Block}

theorem onRoot_sector : v.onRoot.sector = some sector ↔ v.key = (rootDev, sector) := by
  simp [DiskBuf.onRoot, DiskBuf.key]

/-- What `ide_rw` has done when it returns. -/
theorem ideRw_ok (h : c.ideRw b = .ok () c') : ∃ sector, (c.buf b).sector = some sector ∧
    (c.buf b).busy = true ∧ ¬ ((c.buf b).valid = true ∧ (c.buf b).dirty = false) ∧
    c' = if (c.buf b).dirty then
        { c.setBuf b { c.buf b with valid := true, dirty := false } with
          disk := update c.disk sector (c.buf b).data
          writes := c.writes ++ [(sector, (c.buf b).data)] }
      else c.setBuf b { c.buf b with data := c.disk sector, valid := true } := by
  unfold BufCache.ideRw at h
  dsimp only at h
  split at h
  · cases h
  · next hbusy =>
    split at h
    · cases h
    · next hsync =>
      split at h
      · cases h
      · next sector hs =>
        refine ⟨sector, hs, by simpa using hbusy, hsync, ?_⟩
        split at h <;> cases h
        · next hd => rw [if_pos hd]
        · next hd => rw [if_neg hd]

/-- `bufcache_read` gets a buffer and returns its contents, read from the disk unless it is
valid. -/
theorem bread_ok (h : c.bread sector = .ok data c') : ∃ b c₁, c.bufcacheGet sector = .ok b c₁ ∧
    data = (c'.buf b).data ∧ ((c₁.buf b).valid = true ∧ c' = c₁ ∨
      (c₁.buf b).valid = false ∧ c₁.ideRw b = .ok () c') := by
  obtain ⟨b, c₁, hget, hfetch⟩ := Outcome.of_bind_eq_ok h
  refine ⟨b, c₁, hget, ?_⟩
  unfold BufCache.fetch at hfetch
  split at hfetch
  · next hv =>
    cases hfetch
    exact ⟨rfl, .inl ⟨hv, rfl⟩⟩
  · next hv =>
    obtain ⟨_, c₂, hrw, hdata⟩ := Outcome.of_bind_eq_ok hfetch
    cases hdata
    exact ⟨rfl, .inr ⟨by simpa using hv, hrw⟩⟩

namespace Shows

/-- The first loop of `bufcache_get` ends as the search in the list. -/
theorem find_eq (h : s.Shows c) : s.find rootDev sector = some (c.find sector) := by
  rw [h.listed.find_eq, BufCache.find]
  simp only [h.buf, onRoot_sector]

/-- The second loop of `bufcache_get` ends as the search in the list. -/
theorem victim_eq (h : s.Shows c) : s.victim = some c.victim := by
  rw [h.listed.victim_eq, BufCache.victim]
  congr 2
  funext i
  rw [h.buf, DiskBuf.onRoot]
  cases (s.buf i).busy <;> cases (s.buf i).dirty <;> rfl

/-- The buffer that is found is for the sector. -/
theorem of_find (h : s.Shows c) (hb : c.find sector = some b) :
    b < nBuf ∧ (s.buf b).key = (rootDev, sector) := by
  have hp := List.find?_some hb
  rw [decide_eq_true_eq, h.buf, onRoot_sector] at hp
  exact ⟨h.listed.mem.1 (List.mem_of_find?_eq_some hb), hp⟩

/-- One buffer is changed, and the list and the disk are not. -/
theorem setBuf (h : s.Shows c) (hbuf : u.buf = update s.buf b v) (hlinks : u.links = s.links)
    (hdisk : u.disk = s.disk) (hdrive : u.havedisk1 = s.havedisk1) :
    u.Shows (c.setBuf b v.onRoot) where
  listed := hlinks ▸ h.listed
  buf i := by
    rw [hbuf]
    rcases eq_or_ne i b with rfl | hne
    · rw [update_self]
      exact update_self ..
    · rw [update_of_ne hne, ← h.buf]
      exact update_of_ne hne ..
  disk x := hdisk ▸ h.disk x
  drive := hdrive ▸ h.drive

/-- `bufcache_get` takes the same buffer. -/
theorem bufcacheGet (h : s.Shows c) (hc : c.bufcacheGet sector = .ok b c') (t : Nat) :
    ∃ v, s.bufcacheGet t rootDev sector = some (b, s.take t b v) ∧ c' = c.setBuf b v.onRoot ∧
      v.busy = true ∧ v.key = (rootDev, sector) := by
  unfold BufCache.bufcacheGet at hc
  unfold Cache.bufcacheGet
  rw [h.find_eq]
  cases hf : c.find sector with
  | some i =>
    simp only [hf, h.buf] at hc
    cases hbusy : (s.buf i).busy with
    | true => simp [DiskBuf.onRoot, hbusy] at hc
    | false =>
      simp only [DiskBuf.onRoot, hbusy, Bool.false_eq_true, if_false, Outcome.ok.injEq] at hc
      obtain ⟨rfl, rfl⟩ := hc
      refine ⟨{ s.buf i with busy := true }, ?_, rfl, rfl, (h.of_find hf).2⟩
      simp [hbusy]
  | none =>
    simp only [hf] at hc
    cases hv : c.victim with
    | none => simp [hv] at hc
    | some i =>
      simp only [hv, h.buf, Outcome.ok.injEq] at hc
      obtain ⟨rfl, rfl⟩ := hc
      refine ⟨{ s.buf i with
        dev := rootDev, sector, busy := true, valid := false, dirty := false }, ?_, rfl, rfl, rfl⟩
      simp [h.victim_eq, hv]

/-- `ide_rw` waits for its request as the only one. -/
theorem ideRw (h : s.Shows c) (hq : s.idequeue = []) (hc : c.ideRw b = .ok () c') :
    s.ideRw b = some { s with idequeue := [b] } := by
  obtain ⟨_, -, hbusy, hsync, -⟩ := ideRw_ok hc
  rw [h.buf] at hbusy hsync
  have hsync : ¬ (s.buf b).Synced := hsync
  have hbusy : (s.buf b).busy = true := hbusy
  simp [Cache.ideRw, hbusy, hsync, h.drive, hq]

/-- The disk serves the only request. -/
theorem ideIntr (h : s.Shows c) (hq : s.idequeue = [b]) (hc : c.ideRw b = .ok () c') :
    ∃ v disk, s.ideIntr = { s with buf := update s.buf b v, disk, idequeue := [] } ∧
      v.Synced ∧ v.key = (s.buf b).key ∧ s.ideIntr.Shows c' := by
  obtain ⟨sector, hs, -, -, rfl⟩ := ideRw_ok hc
  rw [h.buf] at hs ⊢
  have hkey : (s.buf b).key = (rootDev, sector) := onRoot_sector.1 hs
  cases hd : (s.buf b).dirty with
  | true =>
    -- A write: the sector has the contents of the buffer.
    have he : s.ideIntr = { s with
        buf := update s.buf b { s.buf b with valid := true, dirty := false }
        disk := update s.disk (s.buf b).key (s.buf b).data, idequeue := [] } := by
      simp [Cache.ideIntr, hq, hd, Cache.setBuf]
    refine ⟨_, _, he, ⟨rfl, rfl⟩, rfl, ?_⟩
    have hv : (s.setBuf b { s.buf b with valid := true, dirty := false }).Shows _ :=
      h.setBuf rfl rfl rfl rfl
    rw [he, if_pos (by exact hd), hkey]
    refine ⟨hv.listed, hv.buf, fun x => ?_, hv.drive⟩
    simp only [update_apply, Prod.mk.injEq, true_and]
    split_ifs
    · rfl
    · exact h.disk x
  | false =>
    -- A read: the buffer has the contents of the sector.
    have he : s.ideIntr = { s with
        buf := update s.buf b { s.buf b with data := s.disk (s.buf b).key, valid := true }
        disk := s.disk, idequeue := [] } := by
      simp [Cache.ideIntr, hq, hd, Cache.setBuf]
    refine ⟨_, _, he, ⟨rfl, hd⟩, rfl, ?_⟩
    have hd' : (s.buf b).onRoot.dirty = false := hd
    rw [he, if_neg (by simp [hd']), ← h.disk, hkey]
    exact h.setBuf (v := { s.buf b with data := s.disk (rootDev, sector), valid := true })
      rfl rfl rfl rfl

end Shows

/-- The thread changes a buffer that it has. -/
theorem Quiet.update (h : s.Quiet t) (hbuf : u.buf = update s.buf b v) (hb : b ∈ u.held t)
    (hheld : s.held t ⊆ u.held t) (hqueue : u.idequeue = []) : u.Quiet t := by
  refine ⟨fun i hi hbusy => ?_, hqueue⟩
  rw [hbuf] at hbusy
  rcases eq_or_ne i b with rfl | hne
  · exact hb
  · rw [update_of_ne hne] at hbusy
    exact hheld (h.held i hi hbusy)

/-- The thread waits in `ide_rw`, and the disk serves its request. -/
theorem Shows.serve (h : s.Shows c) (hq : s.Quiet t) (hb : b ∈ s.held t)
    (hc : c.ideRw b = .ok () c') (p : Pc) :
    s.ideRw b = some { s with idequeue := [b] } ∧
    ∃ u, GoesOn t ({ s with idequeue := [b] }.setPc t p) u ∧ u.Shows c' ∧ u.Quiet t ∧ u.pc t = p ∧
      u.held = s.held ∧ (u.buf b).Synced ∧ (u.buf b).key = (s.buf b).key := by
  refine ⟨h.ideRw hq.queue hc, _, .tail .refl (.inr rfl) rfl, ?_⟩
  have hs : Cache.Shows ({ s with idequeue := [b] }.setPc t p) c :=
    ⟨h.listed, h.buf, h.disk, h.drive⟩
  obtain ⟨v, disk, he, hsync, hkey, hu⟩ := hs.ideIntr rfl hc
  refine ⟨hu, ?_⟩
  rw [he]
  refine ⟨hq.update rfl hb subset_rfl rfl, update_self .., rfl, ?_, ?_⟩
  · change (update s.buf b v b).Synced
    rwa [update_self]
  · change (update s.buf b v b).key = _
    rwa [update_self]

/-- The call returns. -/
theorem Shows.leave (h : s.Shows c) (hq : s.Quiet t) (hrun : s.run t = some (s.setPc t .idle)) :
    GoesOn t s (s.setPc t .idle) ∧ (s.setPc t .idle).Alone t c :=
  ⟨.tail .refl (.inl rfl) hrun,
    { toShows := ⟨h.listed, h.buf, h.disk, h.drive⟩
      toQuiet := ⟨hq.held, hq.queue⟩
      idle := update_self .. }⟩

namespace Alone

/-- After boot the two caches agree, for any thread. -/
theorem of_init (h : cacheMachine.Init s) (hdrive : s.havedisk1 = true) (t : Nat) :
    ∃ c, s.Alone t c ∧ c.mru = (BufCache.init c.disk).mru := by
  obtain ⟨⟨k, hk⟩, hbuf, hqueue, hpc, -⟩ := h
  refine ⟨⟨fun b => (s.buf b).onRoot, (List.range nBuf).reverse, fun x => s.disk (rootDev, x), []⟩,
    { listed := hk ▸ listed_bufcacheInit k
      buf := fun _ => rfl
      disk := fun _ => rfl
      drive := hdrive
      held := fun b _ hbusy => absurd ((hbuf b).2.1.symm.trans hbusy) Bool.false_ne_true
      queue := hqueue
      idle := (hpc t).1 }, rfl⟩

/-- The buffer that is found is of the thread, when it is locked. -/
theorem free (h : s.Alone t c) (hb : c.find sector = some b) (hbusy : (c.buf b).busy = true) :
    s.Free t b :=
  ⟨h.idle, h.held b (h.of_find hb).1 (by rwa [h.buf] at hbusy)⟩

/-- `bufcache_read` returns a buffer with the contents that `bread` returns. -/
theorem read (h : s.Alone t c) (hc : c.bread sector = .ok data c') :
    ∃ b s₁ s', cacheMachine.step s (.read t rootDev sector) = some s₁ ∧ GoesOn t s₁ s' ∧
      s'.Alone t c' ∧ b ∈ s'.held t ∧ (s'.buf b).key = (rootDev, sector) ∧
      (s'.buf b).data = data := by
  obtain ⟨b, c₁, hget, hdata, hfetch⟩ := bread_ok hc
  let s₁ := s.setPc t (.get .client rootDev sector)
  have hs₁ : s₁.Shows c := ⟨h.listed, h.buf, h.disk, h.drive⟩
  have hpc₁ : s₁.pc t = .get .client rootDev sector := update_self ..
  obtain ⟨v, hv, rfl, -, hkey⟩ := hs₁.bufcacheGet hget t
  -- `bufcache_get` has returned.
  let s₂ := (s₁.take t b v).setPc t (.got .client rootDev sector b)
  have hrun₂ : GoesOn t s₁ s₂ :=
    .tail .refl (.inl rfl) (by simp [cacheMachine, Cache.run, hpc₁, hv, s₂])
  have hs₂ : s₂.Shows (c.setBuf b v.onRoot) := hs₁.setBuf rfl rfl rfl rfl
  have hpc₂ : s₂.pc t = .got .client rootDev sector b := update_self ..
  have hb : b ∈ s₂.held t := by simp [s₂, Cache.setPc, Cache.take]
  have hq₂ : s₂.Quiet t :=
    h.toQuiet.update rfl hb (by simp [s₂, s₁, Cache.setPc, Cache.take]) h.queue
  have hbuf₂ : s₂.buf b = v := update_self ..
  -- The buffer is valid at the `return b` of `bufcache_read`.
  obtain ⟨u, hu, hus, huq, hpc, hheld, hukey⟩ : ∃ u, GoesOn t s₂ u ∧ u.Shows c' ∧ u.Quiet t ∧
      u.pc t = .read .client rootDev sector b ∧ u.held = s₂.held ∧
      (u.buf b).key = (rootDev, sector) := by
    have hvalid : ((c.setBuf b v.onRoot).buf b).valid = (s₂.buf b).valid := by rw [hs₂.buf]; rfl
    rw [hvalid] at hfetch
    rcases hfetch with ⟨hvalid, rfl⟩ | ⟨hvalid, hrw⟩
    · refine ⟨s₂.setPc t (.read .client rootDev sector b), .tail .refl (.inl rfl) ?_,
        ⟨hs₂.listed, hs₂.buf, hs₂.disk, hs₂.drive⟩, ⟨hq₂.held, hq₂.queue⟩, update_self .., rfl,
        hbuf₂ ▸ hkey⟩
      simp [cacheMachine, Cache.run, hpc₂, hvalid]
    · obtain ⟨hide, u, hu, hus, huq, hpc, hheld, hsync, hukey⟩ :=
        hs₂.serve hq₂ hb hrw (.reading .client rootDev sector b)
      refine ⟨u.setPc t (.read .client rootDev sector b),
        .tail (.trans (.tail .refl (.inl rfl) ?_) hu) (.inl rfl) ?_,
        ⟨hus.listed, hus.buf, hus.disk, hus.drive⟩, ⟨huq.held, huq.queue⟩, update_self ..,
        hheld, ?_⟩
      · simp [cacheMachine, Cache.run, hpc₂, hvalid, hide]
      · simp [cacheMachine, Cache.run, hpc, hsync]
      · exact hukey.trans (hbuf₂ ▸ hkey)
  obtain ⟨hr, halone⟩ := hus.leave huq (by simp [Cache.run, hpc])
  refine ⟨b, s₁, _, if_pos h.idle, (hrun₂.trans hu).trans hr, halone, hheld ▸ hb, hukey, ?_⟩
  rw [hdata, hus.buf]
  rfl

/-- The thread assigns to the contents of its buffer. -/
theorem assign (h : s.Alone t c) (hb : c.find sector = some b)
    (hc : c.bset sector data = .ok () c') :
    ∃ s', cacheMachine.step s (.assign t b data) = some s' ∧ s'.Alone t c' := by
  simp only [BufCache.bset, hb] at hc
  split at hc
  · next hbusy =>
    cases hc
    have hfree := h.free hb hbusy
    refine ⟨s.assign b data, if_pos hfree, ?_⟩
    rw [h.buf]
    exact
      { toShows := h.setBuf (v := { s.buf b with data }) rfl rfl rfl rfl
        toQuiet := h.toQuiet.update rfl hfree.2 subset_rfl h.queue
        idle := h.idle }
  · cases hc

/-- `bufcache_write` writes the buffer to its sector. -/
theorem write (h : s.Alone t c) (hb : c.find sector = some b) (hc : c.bwrite sector = .ok () c') :
    ∃ s₁ s', cacheMachine.step s (.write t b) = some s₁ ∧ GoesOn t s₁ s' ∧ s'.Alone t c' := by
  simp only [BufCache.bwrite, hb] at hc
  split at hc
  · next hbusy =>
    have hfree := h.free hb hbusy
    have hlocked : (s.buf b).busy = true := by rwa [h.buf] at hbusy
    have hs : (s.markDirty b).Shows (c.setBuf b { c.buf b with dirty := true }) := by
      rw [h.buf]
      exact h.setBuf (v := { s.buf b with dirty := true }) rfl rfl rfl rfl
    have hq : (s.markDirty b).Quiet t := h.toQuiet.update rfl hfree.2 subset_rfl h.queue
    obtain ⟨hrw, u, hu, hus, huq, hpc, -, hsync, -⟩ := hs.serve hq hfree.2 hc (.writing .client b)
    obtain ⟨hr, halone⟩ := hus.leave huq (by simp [Cache.run, hpc, hsync])
    refine ⟨_, _, ?_, hu.trans hr, halone⟩
    simp only [cacheMachine, hfree, if_true, Cache.bufcacheWrite, hlocked, Bool.true_eq_false,
      if_false, hrw]
    rfl
  · cases hc

/-- `bufcache_release` of a buffer that was not modified since it was written. -/
theorem release (h : s.Alone t c) (hb : c.find sector = some b) (hmod : s.modified b = false)
    (hc : c.brelse sector = .ok () c') :
    ∃ s', cacheMachine.step s (.release t b) = some s' ∧ s'.Alone t c' := by
  simp only [BufCache.brelse, hb] at hc
  split at hc
  · next hbusy =>
    cases hc
    have hfree := h.free hb hbusy
    have hlocked : (s.buf b).busy = true := by rwa [h.buf] at hbusy
    refine ⟨_, by
      simp only [cacheMachine, hfree, hmod, and_self, if_true, Cache.bufcacheRelease, hlocked,
        Bool.true_eq_false, if_false]
      rfl, ?_⟩
    have hs : (s.setBuf b { s.buf b with busy := false }).Shows
        (c.setBuf b { c.buf b with busy := false }) := by
      rw [h.buf]
      exact h.setBuf (v := { s.buf b with busy := false }) rfl rfl rfl rfl
    exact
      { toShows := ⟨h.listed.toFront (List.mem_of_find?_eq_some hb), hs.buf, hs.disk, hs.drive⟩
        idle := h.idle
        queue := h.queue
        held := fun i hi hbusy => by
          simp only [Cache.setBuf] at hbusy
          rcases eq_or_ne i b with rfl | hne
          · simp at hbusy
          · rw [update_of_ne hne] at hbusy
            simpa [hne] using h.held i hi hbusy }
  · cases hc

end Alone

end Cache

end MCertikos
