import MCertikos.Fs.BufCache
import MCertikos.Fs.Rules

/-!
# Crash atomicity of the log

A transaction that is cut off by a crash after any of its sector writes is, after recovery, done
either completely or not at all, also when recovery is cut off and started again.

The disks that occur are described by `Redo c`: for every home sector, the log on the disk has the
contents `c` of the sector in a slot, or the sector has these contents already. Before the first
`write_head` of `commit_trans` the disk satisfies `Redo` for the contents before the transaction
(with an empty log), from then on for the contents after it; and recovery keeps `Redo c` at every
write and ends with the contents `c`.
-/

namespace MCertikos

open Program BitField Function

/-! ## Sequences of sector writes -/

namespace Disk

variable (d : Disk)

theorem apply_append (V W : List (Nat × Block)) : d.apply (V ++ W) = (d.apply V).apply W := by
  simp [Disk.apply]

/-- A sector that is not written keeps its contents. -/
theorem apply_of_forall_ne {x : Nat} (W : List (Nat × Block)) (h : ∀ w ∈ W, w.1 ≠ x) :
    d.apply W x = d x := by
  induction W generalizing d with
  | nil => rfl
  | cons w W ih =>
    rw [List.forall_mem_cons] at h
    calc d.apply (w :: W) x = Disk.apply (update d w.1 w.2) W x := rfl
      _ = update d w.1 w.2 x := ih _ h.2
      _ = d x := update_of_ne h.1.symm _ _

end Disk

/-- Every disk on the way from one store to a later one satisfies `P`, whichever of the writes
between them have reached it. -/
def Store.Since (P : Disk → Prop) (b b' : Store) : Prop :=
  ∃ W, b'.writes = b.writes ++ W ∧ b'.disk = b.disk.apply W ∧ ∀ k, P (b.disk.apply (W.take k))

namespace Store.Since

variable {P : Disk → Prop} {b b' b'' : Store}

theorem of_eq (hw : b'.writes = b.writes) (hd : b'.disk = b.disk) (h : P b.disk) : Since P b b' :=
  ⟨[], by rw [hw, List.append_nil], hd, fun _ => by rw [List.take_nil]; exact h⟩

theorem disk (h : Since P b b') : P b'.disk := by
  obtain ⟨W, -, hd, hP⟩ := h
  rw [hd, ← List.take_length (l := W)]
  exact hP W.length

theorem trans (h : Since P b b') (h' : Since P b' b'') : Since P b b'' := by
  obtain ⟨V, hw, hd, hV⟩ := h
  obtain ⟨W, hw', hd', hW⟩ := h'
  refine ⟨V ++ W, by rw [hw', hw, List.append_assoc], by rw [hd', hd, Disk.apply_append],
    fun k => ?_⟩
  rw [List.take_append]
  rcases Nat.le_total k V.length with hk | hk
  · rw [Nat.sub_eq_zero_of_le hk, List.take_zero, List.append_nil]
    exact hV k
  · rw [List.take_of_length_le hk, Disk.apply_append, ← hd]
    exact hW _

theorem write {x : Nat} {v : Block} (h : P b.disk) (h' : P (update b.disk x v)) :
    Since P b (b.write x v) := by
  refine ⟨[(x, v)], rfl, rfl, fun k => ?_⟩
  cases k with
  | zero => exact h
  | succ k => rw [List.take_succ_cons, List.take_nil]; exact h'

end Store.Since

/-! ## The log on the disk -/

/-- Where a superblock says that the log is: `log.start` and `log.size`. -/
def logArea (b : Block) : Nat × Nat :=
  let sb := Superblock.ofBlock b
  ((sb.size - sb.nlog).toNat, sb.nlog.toNat)

/-- A sector of the log area. -/
def InLog (start size x : Nat) : Prop := start ≤ x ∧ x < start + size

instance (start size x : Nat) : Decidable (InLog start size x) :=
  inferInstanceAs (Decidable (_ ∧ _))

/-- The count that `write_head` wrote. -/
theorem headerN_of_get {b : Block} {n : Nat} (hn : n ≤ logSize)
    (h : get b 0 32 = BitVec.ofNat 32 n) :
    headerN b = n := by
  have hlt : n < 2 ^ 31 := Nat.lt_of_le_of_lt hn (by decide)
  rw [headerN, h, BitVec.toInt_eq_toNat_of_lt (by rw [BitVec.toNat_ofNat]; omega),
    BitVec.toNat_ofNat]
  omega

/-- The sector numbers that `write_head` wrote, one after the other. -/
theorem get_putSectors (sector : Nat → Nat) (n : Nat) (hn : n ≤ logSize) (b : Block) (j : Nat)
    (hj : j ≤ logSize) :
    get ((List.range n).foldl (fun b i => put b (32 * (i + 1)) (BitVec.ofNat 32 (sector i))) b)
      (32 * j) 32 =
      if 0 < j ∧ j ≤ n then BitVec.ofNat 32 (sector (j - 1)) else get b (32 * j) 32 := by
  have hlog : logSize = 10 := rfl
  induction n with
  | zero => rw [if_neg (by omega)]; rfl
  | succ n ih =>
    rw [List.range_succ, List.foldl_append]
    simp only [List.foldl_cons, List.foldl_nil]
    rcases eq_or_ne j (n + 1) with rfl | hne
    · rw [get_put_self _ _ (by omega), if_pos (by omega), Nat.add_sub_cancel]
    · rw [get_put_of_disjoint _ _ (by omega), ih (by omega)]
      by_cases hjn : 0 < j ∧ j ≤ n
      · rw [if_pos hjn, if_pos (by omega)]
      · rw [if_neg hjn, if_neg (by omega)]

/-- The count in the header that `write_head` wrote. -/
theorem get_putHeader (b : Block) {l : Log} (hn : l.n ≤ logSize) :
    get (putHeader b l) 0 32 = BitVec.ofNat 32 l.n := by
  have h := get_putSectors l.sector l.n hn (put b 0 (BitVec.ofNat 32 l.n)) 0 (by omega)
  rw [if_neg (by omega)] at h
  exact h.trans (get_put_self b _ (by decide))

/-- The sector numbers in the header that `write_head` wrote. -/
theorem headerSector_putHeader (b : Block) {l : Log} (hn : l.n ≤ logSize) {i : Nat} (hi : i < l.n)
    (hs : l.sector i < 2 ^ 32) : headerSector (putHeader b l) i = l.sector i := by
  rw [headerSector, putHeader, get_putSectors l.sector l.n hn _ (i + 1) (by omega),
    if_pos (by omega), Nat.add_sub_cancel, BitVec.toNat_ofNat, Nat.mod_eq_of_lt hs]

/-- The log on the disk `d` leads to the contents `c`: a home sector has its contents, unless the
header lists it, and then its contents are in the slot. -/
structure Redo (start size : Nat) (c d : Disk) : Prop where
  far : 2 ≤ start
  keeps : logArea (c 1) = (start, size)
  area : logArea (d 1) = (start, size)
  fits : headerN (d start) ≤ logSize
  room : headerN (d start) < size
  home : ∀ i < headerN (d start), ¬ InLog start size (headerSector (d start) i)
  slot : ∀ i < headerN (d start), d (start + i + 1) = c (headerSector (d start) i)
  rest : ∀ x, ¬ InLog start size x → (∀ i < headerN (d start), headerSector (d start) i ≠ x) →
    d x = c x

namespace Redo

variable {start size : Nat} {c d : Disk}

section
variable (h : Redo start size c d)
include h

/-- The header sector. -/
theorem inLog_start : InLog start size start :=
  ⟨Nat.le_refl _, by have := h.room; omega⟩

/-- A slot. -/
theorem inLog_slot {i : Nat} (hi : i < headerN (d start)) : InLog start size (start + i + 1) :=
  ⟨by omega, by have := h.room; omega⟩

/-- A disk that differs in home sectors only, which have their final contents. -/
theorem update_home {x : Nat} (hx : ¬ InLog start size x) :
    Redo start size c (update d x (c x)) := by
  have hne : ∀ y, InLog start size y → update d x (c x) y = d y := by
    intro y hy
    exact update_of_ne (by rintro rfl; exact hx hy) _ _
  have hstart := hne start h.inLog_start
  refine ⟨h.far, h.keeps, ?_, ?_, ?_, ?_, ?_, ?_⟩
  · rcases eq_or_ne 1 x with rfl | h1
    · rw [update_self]; exact h.keeps
    · rw [update_of_ne h1]; exact h.area
  · rw [hstart]; exact h.fits
  · rw [hstart]; exact h.room
  · rw [hstart]; exact h.home
  · rw [hstart]
    intro i hi
    rw [hne _ (h.inLog_slot hi)]
    exact h.slot i hi
  · rw [hstart]
    intro y hy hall
    rcases eq_or_ne y x with rfl | hyx
    · rw [update_self]
    · rw [update_of_ne hyx]
      exact h.rest y hy hall

/-- The log may be erased when every sector of the header has its contents. -/
theorem erase (hall : ∀ i < headerN (d start),
    d (headerSector (d start) i) = c (headerSector (d start) i)) {v : Block} (hv : headerN v = 0) :
    Redo start size c (update d start v) := by
  have hne : (1 : Nat) ≠ start := by have := h.far; omega
  refine ⟨h.far, h.keeps, ?_, ?_, ?_, ?_, ?_, ?_⟩
  · rw [update_of_ne hne]; exact h.area
  · rw [update_self, hv]; exact Nat.zero_le _
  · rw [update_self, hv]; have := h.room; omega
  · rw [update_self, hv]; exact fun i hi => absurd hi (Nat.not_lt_zero i)
  · rw [update_self, hv]; exact fun i hi => absurd hi (Nat.not_lt_zero i)
  · intro x hx _
    rw [update_of_ne (by rintro rfl; exact hx h.inLog_start)]
    by_cases hlisted : ∃ i < headerN (d start), headerSector (d start) i = x
    · obtain ⟨i, hi, rfl⟩ := hlisted
      exact hall i hi
    · exact h.rest x hx fun i hi he => hlisted ⟨i, hi, he⟩

/-- With an empty log, the home sectors have their contents. -/
theorem eq_of_empty (hn : headerN (d start) = 0) {x : Nat}
    (hx : ¬ InLog start size x) : d x = c x :=
  h.rest x hx fun i hi => absurd hi (by rw [hn]; exact Nat.not_lt_zero i)

end

end Redo

/-! ## Installing -/

/-- No buffer is being changed, and no buffer of the log area is dirty. -/
structure Settled (start size : Nat) (b : Store) : Prop where
  ok : b.Ok
  modified : b.modified = ∅
  clean : ∀ x, InLog start size x → x ∉ b.dirty

section
variable {start size x : Nat} {v : Block} {b : Store}

/-- The contents of the log area are on the disk. -/
theorem Settled.data_eq (h : Settled start size b) (hx : InLog start size x) :
    b.data x = b.disk x :=
  h.ok.clean x (h.clean x hx) (by rw [h.modified]; exact Finset.notMem_empty x)

theorem Settled.of_clean (hok : b.Ok) (hm : b.modified = ∅) (hd : b.dirty = ∅) :
    Settled start size b :=
  ⟨hok, hm, fun x _ => by rw [hd]; exact Finset.notMem_empty x⟩

theorem Settled.write (h : Settled start size b) : Settled start size (b.write x v) := by
  refine ⟨⟨fun y hd hm => ?_, fun y hm => ?_⟩, ?_, ?_⟩
  · rcases eq_or_ne y x with rfl | hne
    · simp [Store.write]
    · simp only [Store.write, Finset.mem_erase, not_and] at hd hm ⊢
      rw [update_of_ne hne, update_of_ne hne]
      exact h.ok.clean y (hd hne) (hm hne)
  · exact h.ok.locked (Finset.mem_of_mem_erase hm)
  · exact Finset.subset_empty.1 fun y hm => h.modified ▸ Finset.mem_of_mem_erase hm
  · exact fun y hy hd => h.clean y hy (Finset.mem_of_mem_erase hd)

/-- A sector outside the log is changed, copied to a slot, and pinned. -/
theorem Settled.logged (h : Settled start size b) {y : Nat} (hx : ¬ InLog start size x) :
    Settled start size (((b.assign x v).write y v).pin x) := by
  have hmod : ((insert x b.modified).erase y).erase x = ∅ := by
    rw [h.modified, Finset.erase_right_comm]
    simp
  refine ⟨⟨fun z hd _ => ?_, fun z hm => ?_⟩, hmod, fun z hz hd => ?_⟩
  · simp only [Store.pin, Store.write, Store.assign, Finset.mem_insert, Finset.mem_erase, not_or,
      not_and] at hd ⊢
    rcases eq_or_ne z y with rfl | hzy
    · rw [update_self, update_self]
    · rw [update_of_ne hzy, update_of_ne hzy, update_of_ne hd.1]
      exact h.ok.clean z (hd.2 hzy) (by rw [h.modified]; exact Finset.notMem_empty z)
  · exact absurd (hmod ▸ hm) (Finset.notMem_empty z)
  · rcases Finset.mem_insert.1 hd with rfl | hd
    · exact hx hz
    · exact h.clean z hz (Finset.mem_of_mem_erase hd)

theorem Settled.lock (h : Settled start size b) : Settled start size (b.lock x) :=
  ⟨⟨h.ok.clean, h.ok.locked.trans (Finset.subset_insert _ _)⟩, h.modified, h.clean⟩

theorem Settled.unlock (h : Settled start size b) : Settled start size (b.unlock x) :=
  ⟨⟨h.ok.clean, fun y hy => absurd (h.modified ▸ hy) (Finset.notMem_empty y)⟩, h.modified, h.clean⟩

end

/-- The code works on the log that is on the disk: `l` is its header. -/
structure Installing (start size : Nat) (c : Disk) (l : Log) (b : Store) : Prop where
  redo : Redo start size c b.disk
  start_eq : l.start = start
  count : l.n = headerN (b.disk start)
  sector : ∀ i < l.n, l.sector i = headerSector (b.disk start) i
  settled : Settled start size b

/-- How `install_trans` gets on: nothing that has its contents loses them. -/
structure Progress (start size : Nat) (c : Disk) (s t : FsState Store) : Prop where
  since : s.bufs.Since (Redo start size c) t.bufs
  keeps : ∀ x, s.bufs.disk x = c x → t.bufs.disk x = c x
  busy : t.bufs.busy = s.bufs.busy
  dirty : t.bufs.dirty ⊆ s.bufs.dirty
  log : t.log = s.log

section
variable {pid start size : Nat} {c : Disk} {l : Log} {b : Store} {s t u : FsState Store}
  {E : Panic → FsState Store → Prop} {B : FsState Store → Prop} {Q : Unit → FsState Store → Prop}

theorem Progress.refl (h : Redo start size c s.bufs.disk) : Progress start size c s s :=
  ⟨.of_eq rfl rfl h, fun _ h => h, rfl, Finset.Subset.refl _, rfl⟩

theorem Progress.trans (h : Progress start size c s t) (h' : Progress start size c t u) :
    Progress start size c s u :=
  ⟨h.since.trans h'.since, fun x hx => h'.keeps x (h.keeps x hx), h'.busy.trans h.busy,
    h'.dirty.trans h.dirty, h'.log.trans h.log⟩

/-- A state reached by installing is idle if the first one is. -/
theorem Progress.idle (h : Progress start size c s t) (hs : s.bufs.Idle) : t.bufs.Idle := by
  refine ⟨h.busy.trans hs.1, Finset.subset_empty.1 ?_⟩
  rw [← hs.2]
  exact h.dirty

/-- A write to the sector of an entry, from the slot. -/
theorem Installing.write (h : Installing start size c l b) {i : Nat} (hi : i < l.n) :
    Installing start size c l (b.write (l.sector i) (c (l.sector i))) := by
  have hhome : ¬ InLog start size (l.sector i) := by
    rw [h.sector i hi]
    exact h.redo.home i (h.count ▸ hi)
  have hstart : update b.disk (l.sector i) (c (l.sector i)) start = b.disk start :=
    update_of_ne (fun he => hhome (by rw [← he]; exact h.redo.inLog_start)) _ _
  refine ⟨h.redo.update_home hhome, h.start_eq, ?_, ?_, h.settled.write⟩
  · exact h.count.trans (congrArg headerN hstart.symm)
  · intro j hj
    exact (h.sector j hj).trans (congrArg (headerSector · j) hstart.symm)

/-- A slot has the contents of its sector, in memory too. -/
theorem Installing.data_slot (h : Installing start size c l b) {i : Nat} (hi : i < l.n) :
    b.data (l.start + i + 1) = c (l.sector i) := by
  have hn : i < headerN (b.disk start) := h.count ▸ hi
  rw [h.start_eq, h.settled.data_eq (h.redo.inLog_slot hn), h.redo.slot i hn, h.sector i hi]

/-- One iteration of `install_trans`: it can fail only if one of the two sectors is locked or there
are not enough buffers for them, and before anything is written. -/
theorem wp_copySector {α : Type} {Q : α → FsState Store → Prop} {x y : Nat}
    {k : Fs α} (hne : x ≠ y) (hm : s.bufs.modified = ∅)
    (hE : ∀ b : Store, b.writes = s.bufs.writes → b.disk = s.bufs.disk →
      nBuf ≤ (s.bufs.busy ∪ s.bufs.dirty).card + 1 → E .noBuffers { s with bufs := b })
    (hB : ∀ b : Store, b.writes = s.bufs.writes → b.disk = s.bufs.disk →
      x ∈ s.bufs.busy ∨ y ∈ s.bufs.busy → B { s with bufs := b })
    (hQ : wp pid k Q E B { s with bufs := s.bufs.write x (s.bufs.data y) }) : wp pid (do
      let lbuf ← bufcacheRead y
      let _ ← bufcacheRead x
      bufSet x lbuf
      bufcacheWrite x
      bufcacheRelease y
      bufcacheRelease x
      k) Q E B s := by
  refine Handler.wp_bind.2 (wp_bufcacheRead (fun hb => hB _ rfl rfl (.inr hb))
    (fun _ hcard => hE _ rfl rfl (by omega)) fun hyb => ?_)
  refine Handler.wp_bind.2 (wp_bufcacheRead (fun hb => hB _ rfl rfl (.inl ?_))
    (fun _ hcard => hE _ rfl rfl (hcard.trans ?_)) fun hxb => ?_)
  · exact Finset.mem_of_mem_insert_of_ne hb hne
  · exact (congrArg Finset.card (Finset.insert_union _ _ _)).trans_le (Finset.card_insert_le _ _)
  replace hxb : x ∉ s.bufs.busy := fun hb => hxb (Finset.mem_insert_of_mem hb)
  refine Handler.wp_bind.2 (wp_bufSet
    (fun hb => absurd (Finset.mem_insert_self _ _) hb) fun _ => ?_)
  refine Handler.wp_bind.2 (wp_bufcacheWrite (Finset.mem_insert_self _ _) ?_)
  have hmod : y ∉ (insert x s.bufs.modified).erase x := by simp [hm]
  refine Handler.wp_bind.2 (wp_bufcacheRelease (fun hb => absurd ?_ hb)
    (fun _ => hmod) fun _ => ?_)
  · exact Finset.mem_insert_of_mem (Finset.mem_insert_self _ _)
  have hmem : x ∈ (insert x (insert y s.bufs.busy)).erase y :=
    Finset.mem_erase.2 ⟨hne, Finset.mem_insert_self _ _⟩
  refine Handler.wp_bind.2 (wp_bufcacheRelease (fun hb => absurd hmem hb)
    (fun _ => Finset.notMem_erase _ _) fun _ => ?_)
  have hnext : ∀ b, b = s.bufs.write x (s.bufs.data y) → wp pid k Q E B { s with bufs := b } := by
    rintro _ rfl
    exact hQ
  refine hnext _ ?_
  simp only [Store.lock, Store.unlock, Store.flush, Store.assign, Store.write,
    update_self, Finset.erase_insert_eq_erase, FsState.onBufs]
  rw [Finset.erase_insert_of_ne hne, Finset.erase_insert hyb, Finset.erase_insert hxb]

/-- The loop of `install_trans`. It can fail only if some buffers were locked or dirty at its
start, and every disk on its way satisfies `Redo`. -/
theorem Installing.wp_installFrom {tails : List Nat} (h : Installing start size c l s.bufs)
    (ht : ∀ i ∈ tails, i < l.n) :
    wp pid (installFrom l tails)
      (fun _ t => Installing start size c l t.bufs ∧ Progress start size c s t ∧
        ∀ i ∈ tails, t.bufs.disk (l.sector i) = c (l.sector i))
      (fun e t => e = .noBuffers ∧ ¬ s.bufs.Idle ∧ s.bufs.Since (Redo start size c) t.bufs)
      (fun t => ¬ s.bufs.Idle ∧ s.bufs.Since (Redo start size c) t.bufs) s := by
  induction tails generalizing s with
  | nil => exact ⟨h, .refl h.redo, fun i hi => absurd hi List.not_mem_nil⟩
  | cons i tails ih =>
    rw [List.forall_mem_cons] at ht
    have hhome : ¬ InLog start size (l.sector i) := by
      rw [h.sector i ht.1]
      exact h.redo.home i (h.count ▸ ht.1)
    have hslot : InLog start size (l.start + i + 1) := by
      rw [h.start_eq]
      exact h.redo.inLog_slot (h.count ▸ ht.1)
    have hp : Progress start size c s
        { s with bufs := s.bufs.write (l.sector i) (c (l.sector i)) } := by
      refine ⟨.write h.redo (h.redo.update_home hhome), fun x hx => ?_, rfl,
        Finset.erase_subset _ _, rfl⟩
      rcases eq_or_ne x (l.sector i) with rfl | hx'
      · exact update_self ..
      · exact (update_of_ne hx' _ _).trans hx
    rw [installFrom]
    refine wp_copySector (fun he => hhome (he ▸ hslot)) h.settled.modified
      (fun b hw hd hcard => ⟨rfl, Store.not_idle_of_card hcard, .of_eq hw hd h.redo⟩)
      (fun b hw hd hbusy =>
        ⟨hbusy.elim Store.not_idle_of_mem Store.not_idle_of_mem, .of_eq hw hd h.redo⟩) ?_
    rw [h.data_slot ht.1]
    refine (ih (h.write ht.1) ht.2).mono ?_ ?_ ?_
    · rintro _ t ⟨hinst, hprog, hdone⟩
      refine ⟨hinst, hp.trans hprog, List.forall_mem_cons.2 ⟨hprog.keeps _ ?_, hdone⟩⟩
      exact update_self ..
    · rintro e t ⟨he, hidle, hsince⟩
      exact ⟨he, fun hs => hidle (hp.idle hs), hp.since.trans hsince⟩
    · rintro t ⟨hidle, hsince⟩
      exact ⟨fun hs => hidle (hp.idle hs), hp.since.trans hsince⟩

/-! ## Recovery -/

/-- The header that `write_head` finds is replaced. -/
theorem wp_writeHead (hB : s.log.start ∈ s.bufs.busy → B s)
    (hE : nBuf ≤ (s.bufs.busy ∪ s.bufs.dirty).card → E .noBuffers s)
    (hQ : Q () (s.onBufs (·.write s.log.start (putHeader (s.bufs.data s.log.start) s.log)))) :
    wp pid writeHead Q E B s := by
  rw [writeHead]
  exact Handler.wp_bind.2 (wp_rewrite (k := pure ()) (f := (putHeader · s.log)) hB (fun _ => hE)
    fun _ => hQ)

/-- The loop of `read_head`. -/
theorem wp_readHeadFrom (v : Block) (is : List Nat)
    (hQ : ∀ l : Log, l.start = s.log.start → l.size = s.log.size → l.n = s.log.n →
      l.busy = s.log.busy → (∀ i, l.sector i = if i ∈ is then
        headerSector v i else s.log.sector i) →
      Q () { s with log := l }) :
    wp pid (readHeadFrom v is) Q E B s := by
  induction is generalizing s with
  | nil => exact hQ s.log rfl rfl rfl rfl fun i => (if_neg List.not_mem_nil).symm
  | cons j is ih =>
    rw [readHeadFrom]
    refine Handler.wp_bind.2 (wp_logSetSector.2 (ih fun l hs hz hn hb hsec => ?_))
    refine hQ l hs hz hn hb fun i => ?_
    rw [hsec i]
    simp only [FsState.onLog, List.mem_cons]
    rcases eq_or_ne i j with rfl | hij
    · simp
    · simp [hij]

/-- `read_head` takes over the header. -/
theorem wp_readHead (hidle : s.bufs.Idle) (hm : s.bufs.modified = ∅)
    (hQ : ∀ l : Log, l.start = s.log.start → l.size = s.log.size →
      l.n = headerN (s.bufs.data s.log.start) → l.busy = s.log.busy →
      (∀ i, l.sector i =
        if i < l.n then headerSector (s.bufs.data s.log.start) i else s.log.sector i) →
      Q () { s with log := l }) :
    wp pid readHead Q E B s := by
  rw [readHead]
  refine Handler.wp_bind.2 (wp_logGet.2 (Handler.wp_bind.2 (wp_bufcacheRead
    (fun hb => absurd hidle (Store.not_idle_of_mem hb))
    (fun _ hcard => absurd hidle (Store.not_idle_of_card (by omega))) fun hx => ?_)))
  refine Handler.wp_bind.2 (wp_logSetN.2 (Handler.wp_bind.2 (wp_readHeadFrom _ _ ?_)))
  intro l hstart hsize hn hbusy hsec
  refine wp_bufcacheRelease (fun hb => absurd (Finset.mem_insert_self _ _) hb)
    (fun _ hmem => ?_) fun _ => ?_
  · exact absurd (hm ▸ hmem) (Finset.notMem_empty _)
  have heq : s.bufs = (s.bufs.lock s.log.start).unlock s.log.start := (Store.unlock_lock hx).symm
  have hn' : l.n = headerN (s.bufs.data s.log.start) := hn
  have hpost := hQ l hstart hsize hn' hbusy fun i => by
    rw [hsec i, hn']
    exact if_congr List.mem_range rfl rfl
  rw [heq] at hpost
  exact hpost

/-- The header is erased when all its sectors are installed. -/
theorem Installing.wp_clear (h : Installing start size c l s.bufs) (hlog : s.log = l)
    (hdone : ∀ i < l.n, s.bufs.disk (l.sector i) = c (l.sector i))
    (hB : ¬ s.bufs.Idle → B (s.onLog fun l => { l with n := 0 }))
    (hE : ¬ s.bufs.Idle → E .noBuffers (s.onLog fun l => { l with n := 0 }))
    (hQ : ∀ t : FsState Store, t.log = { l with n := 0 } →
      s.bufs.Since (Redo start size c) t.bufs → get (t.bufs.disk start) 0 32 = 0 → Q () t) :
    wp pid writeHead Q E B (s.onLog fun l => { l with n := 0 }) := by
  subst hlog
  have hget : ∀ v, get (putHeader v { s.log with n := 0 }) 0 32 = 0 := fun v =>
    get_putHeader v (Nat.zero_le _)
  refine wp_writeHead (fun hb => hB (Store.not_idle_of_mem hb))
    (fun hcard => hE (Store.not_idle_of_card (hcard.trans (Nat.le_succ _)))) (hQ _ rfl ?_ ?_)
  · refine .write h.redo ?_
    show Redo start size c (update s.bufs.disk s.log.start _)
    rw [h.start_eq]
    refine h.redo.erase (fun i hi => ?_) (headerN_of_get (Nat.zero_le _) (hget _))
    rw [← h.count] at hi
    rw [← h.sector i hi]
    exact hdone i hi
  · show get (update s.bufs.disk s.log.start _ start) 0 32 = 0
    rw [h.start_eq, update_self]
    exact hget _

/-- `recover_from_log` on a disk that leads to the contents `c`: it returns, every disk on its way
leads to `c`, and in the end the log is empty. -/
theorem Redo.wp_recoverFromLog (h : Redo start size c s.bufs.disk) (hok : s.bufs.Ok)
    (hm : s.bufs.modified = ∅) (hidle : s.bufs.Idle) (hstart : s.log.start = start) :
    wp pid recoverFromLog
      (fun _ t => s.bufs.Since (Redo start size c) t.bufs ∧ get (t.bufs.disk start) 0 32 = 0)
      (fun _ _ => False) (fun _ => False) s := by
  have hdata : ∀ x, s.bufs.data x = s.bufs.disk x := fun x =>
    hok.clean x (by rw [hidle.2]; exact Finset.notMem_empty x)
      (by rw [hm]; exact Finset.notMem_empty x)
  rw [recoverFromLog]
  refine Handler.wp_bind.2 (wp_readHead hidle hm fun l hls _ hn _ hsec => ?_)
  rw [hdata, hstart] at hn hsec
  have hinst : Installing start size c l s.bufs :=
    ⟨h, hls.trans hstart, hn, fun i hi => (hsec i).trans (if_pos hi), .of_clean hok hm hidle.2⟩
  refine Handler.wp_bind.2 ?_
  rw [installTrans]
  refine Handler.wp_bind.2 (wp_logGet.2 ?_)
  refine (Installing.wp_installFrom (s := { s with log := l }) hinst
    fun i hi => List.mem_range.1 hi).mono ?_ ?_ ?_
  · rintro _ t ⟨hinst', hprog, hdone⟩
    have htidle : t.bufs.Idle := hprog.idle hidle
    refine Handler.wp_bind.2 (wp_logSetN.2
      (hinst'.wp_clear hprog.log ?_ ?_ ?_ fun u _ hsince hn => ?_))
    · exact fun i hi => hdone i (List.mem_range.2 hi)
    · exact fun hno => hno htidle
    · exact fun hno => hno htidle
    · exact ⟨hprog.since.trans hsince, hn⟩
  · rintro e t ⟨-, hno, -⟩
    exact hno hidle
  · rintro t ⟨hno, -⟩
    exact hno hidle

/-- `log_init` on such a disk. -/
theorem Redo.wp_logInit (pid : Nat) (h : Redo start size c s.bufs.disk) (hok : s.bufs.Ok)
    (hm : s.bufs.modified = ∅) (hidle : s.bufs.Idle) :
    wp pid logInit
      (fun _ t => s.bufs.Since (Redo start size c) t.bufs ∧ get (t.bufs.disk start) 0 32 = 0)
      (fun _ _ => False) (fun _ => False) s := by
  rw [logInit, readSuperblock]
  refine Handler.wp_bind.2 (wp_peek (k := fun b => pure (Superblock.ofBlock b)) ?_ ?_
    ?_ fun _ => ?_)
  · rw [hm]; exact Finset.notMem_empty 1
  · exact fun hb => absurd hidle (Store.not_idle_of_mem hb)
  · exact fun _ hcard => absurd hidle (Store.not_idle_of_card (hcard.trans (Nat.le_succ _)))
  rw [hok.clean 1 (by rw [hidle.2]; exact Finset.notMem_empty 1)
    (by rw [hm]; exact Finset.notMem_empty 1)]
  refine Handler.wp_pure.2 (Handler.wp_bind.2 (wp_logSetArea.2 ?_))
  exact Redo.wp_recoverFromLog (s := s.onLog _) h hok hm hidle (congrArg Prod.fst h.area)

end

/-! ## Transactions -/

/-- What a thread does between `begin_trans` and `commit_trans`. -/
inductive TransAct where
  /-- `bufcache_read`. -/
  | read (sector : BitVec 32)
  /-- New contents for a buffer that the thread holds, and `log_write`. -/
  | log (sector : BitVec 32) (data : Block)
  /-- `bufcache_release`. -/
  | release (sector : BitVec 32)

namespace TransAct

/-- The code of an action. -/
def code : TransAct → Fs Unit
  | .read x => do let _ ← bufcacheRead x.toNat
  | .log x v => do
    bufSet x.toNat v
    logWrite x.toNat
  | .release x => bufcacheRelease x.toNat

/-- What an action does to the contents of the home sectors. -/
def apply (d : Disk) : TransAct → Disk
  | .log x v => update d x.toNat v
  | _ => d

/-- Only home sectors are logged, and the superblock keeps the place of the log. -/
def Home (start size : Nat) : TransAct → Prop
  | .log x v => ¬ InLog start size x.toNat ∧ (x = 1 → logArea v = (start, size))
  | _ => True

/-- A sequence of actions. -/
def codes : List TransAct → Fs Unit
  | [] => pure ()
  | a :: acts => do
    a.code
    codes acts

end TransAct

/-- A transaction. -/
def transaction (acts : List TransAct) : Fs Unit := do
  beginTrans
  TransAct.codes acts
  commitTrans

/-- The contents of the home sectors after a transaction: each has those of its last
`log_write`. -/
def committed (acts : List TransAct) (d : Disk) : Disk := acts.foldl TransAct.apply d

section
variable {pid start size : Nat} {d₀ c : Disk} {w₀ : List (Nat × Block)} {b : Store}
  {s t : FsState Store}

/-- Since the start of the transaction, only slots of the log were written. -/
def Early (start size : Nat) (d₀ : Disk) (w₀ : List (Nat × Block)) (b : Store) : Prop :=
  ∃ A, b.writes = w₀ ++ A ∧ b.disk = d₀.apply A ∧ ∀ w ∈ A, start < w.1 ∧ InLog start size w.1

/-- Since the start of the transaction, slots were written, then the header, and every disk since
then leads to the contents `c`. -/
def Late (start size : Nat) (d₀ c : Disk) (w₀ : List (Nat × Block)) (b : Store) : Prop :=
  ∃ A v R, b.writes = w₀ ++ (A ++ (start, v) :: R) ∧
    (∀ w ∈ A, start < w.1 ∧ InLog start size w.1) ∧ ∀ k,
    Redo start size c (d₀.apply (A ++ (start, v) :: R.take k))

/-- A transaction between `begin_trans` and `commit_trans`: `c` are the contents so far. -/
structure Logging (start size : Nat) (d₀ c : Disk) (w₀ : List (Nat × Block)) (s : FsState Store) :
    Prop where
  start_eq : s.log.start = start
  size_eq : s.log.size = size
  fits : s.log.n ≤ logSize
  room : s.log.n < size
  home : ∀ i < s.log.n, ¬ InLog start size (s.log.sector i)
  word : ∀ i < s.log.n, s.log.sector i < 2 ^ 32
  inj : ∀ i < s.log.n, ∀ j < s.log.n, s.log.sector i = s.log.sector j → i = j
  slot : ∀ i < s.log.n, s.bufs.disk (start + i + 1) = c (s.log.sector i)
  rest : ∀ x, (∀ i < s.log.n, s.log.sector i ≠ x) → c x = d₀ x
  keeps : logArea (c 1) = (start, size)
  settled : Settled start size s.bufs
  early : Early start size d₀ w₀ s.bufs

/-- The entries of the log after `log_write`. -/
theorem Logging.logged_sector (h : Logging start size d₀ c w₀ s) (x : Nat) {i : Nat}
    (hi : i < (s.logged x).log.n) :
    i = s.log.slotOf x ∧ (s.logged x).log.sector i = x ∨
      i ≠ s.log.slotOf x ∧ i < s.log.n ∧ (s.logged x).log.sector i = s.log.sector i ∧
        s.log.sector i ≠ x := by
  have hle := s.log.slotOf_le x
  simp only [FsState.logged] at hi ⊢
  rcases eq_or_ne i (s.log.slotOf x) with rfl | hne
  · exact .inl ⟨rfl, update_self ..⟩
  · have hlt : i < s.log.n := by
      split_ifs at hi
      · omega
      · exact hi
    refine .inr ⟨hne, hlt, update_of_ne hne _ _, fun he => ?_⟩
    rcases Nat.lt_or_gt_of_ne hne with hlt' | hgt
    · exact Log.sector_ne_of_lt_slotOf hlt' he
    · exact hne (h.inj i hlt _ (by omega) (he.trans (Log.sector_slotOf (by omega)).symm))

/-- `log_write` writes a slot. -/
theorem Early.write (h : Early start size d₀ w₀ b) {x : Nat} {v : Block} (hx : start < x)
    (hlog : InLog start size x) : Early start size d₀ w₀ (b.write x v) := by
  obtain ⟨A, hw, hd, hA⟩ := h
  refine ⟨A ++ [(x, v)], ?_, ?_, ?_⟩
  · rw [← List.append_assoc, ← hw]; rfl
  · rw [Disk.apply_append, ← hd]; rfl
  · intro w hmem
    rcases List.mem_append.1 hmem with hmem | hmem
    · exact hA w hmem
    · rw [List.mem_singleton.1 hmem]
      exact ⟨hx, hlog⟩

/-- `log_write` extends the log or replaces an entry of it. -/
theorem Logging.log (h : Logging start size d₀ c w₀ s) {x : Nat} {v : Block}
    (hx : ¬ InLog start size x) (hw : x < 2 ^ 32) (hv : x = 1 → logArea v = (start, size))
    (hn : s.log.n < logSize) (hsize : s.log.n + 1 < s.log.size) (hlog : t.log = (s.logged x).log)
    (hbufs : t.bufs = ((s.bufs.assign x v).write (s.log.start + s.log.slotOf x + 1) v).pin x) :
    Logging start size d₀ (update c x v) w₀ t := by
  have hle := s.log.slotOf_le x
  have hslot : InLog start size (s.log.start + s.log.slotOf x + 1) := by
    have := h.start_eq
    have := h.size_eq
    exact ⟨by omega, by omega⟩
  have hn' : (s.logged x).log.n ≤ s.log.n + 1 := by
    simp only [FsState.logged]
    split_ifs <;> omega
  have hin : s.log.slotOf x < (s.logged x).log.n := by
    simp only [FsState.logged]
    split_ifs <;> omega
  refine ⟨by rw [hlog]; exact h.start_eq, by
    rw [hlog]; exact h.size_eq, ?_, ?_, ?_, ?_, ?_, ?_, ?_, ?_, ?_, ?_⟩
  · rw [hlog]
    exact hn'.trans hn
  · rw [hlog]
    have := h.size_eq
    omega
  · rw [hlog]
    intro i hi
    rcases h.logged_sector x hi with ⟨-, he⟩ | ⟨-, hlt, he, -⟩
    · rwa [he]
    · rw [he]; exact h.home i hlt
  · rw [hlog]
    intro i hi
    rcases h.logged_sector x hi with ⟨-, he⟩ | ⟨-, hlt, he, -⟩
    · rwa [he]
    · rw [he]; exact h.word i hlt
  · rw [hlog]
    intro i hi j hj hij
    rcases h.logged_sector x hi with ⟨hi', he⟩ | ⟨-, hlt, he, hne⟩ <;>
      rcases h.logged_sector x hj with ⟨hj', he'⟩ | ⟨-, hlt', he', hne'⟩ <;> rw [he, he'] at hij
    · rw [hi', hj']
    · exact absurd hij.symm hne'
    · exact absurd hij hne
    · exact h.inj i hlt j hlt' hij
  · rw [hlog, hbufs]
    intro i hi
    show update s.bufs.disk (s.log.start + s.log.slotOf x + 1) v (start + i + 1) = _
    rw [h.start_eq]
    rcases h.logged_sector x hi with ⟨rfl, he⟩ | ⟨hne, hlt, he, hne'⟩
    · rw [he, update_self, update_self]
    · rw [he, update_of_ne (by omega), update_of_ne hne']
      exact h.slot i hlt
  · rw [hlog]
    intro y hy
    have hyx : y ≠ x := fun he => by
      rcases h.logged_sector x hin with ⟨-, he'⟩ | ⟨hne, -⟩
      · exact hy _ hin (he'.trans he.symm)
      · exact hne rfl
    rw [update_of_ne hyx]
    refine h.rest y fun i hi he => ?_
    have hi' : i < (s.logged x).log.n := by
      simp only [FsState.logged]
      split_ifs <;> omega
    rcases h.logged_sector x hi' with ⟨hi'', he'⟩ | ⟨-, -, he', -⟩
    · exact hyx (he.symm.trans (by rw [hi'']; exact Log.sector_slotOf (hi'' ▸ hi)))
    · exact hy i hi' (he'.trans he)
  · rcases eq_or_ne 1 x with rfl | h1
    · rw [update_self]; exact hv rfl
    · rw [update_of_ne h1]; exact h.keeps
  · rw [hbufs]
    exact h.settled.logged hx
  · rw [hbufs]
    exact Early.write (b := s.bufs.assign x v) h.early (by have := h.start_eq; omega) hslot

/-- An action keeps the invariant, or stops before the header is written. -/
theorem Logging.wp_code (h : Logging start size d₀ c w₀ s) {a : TransAct}
    (ha : a.Home start size) :
    wp pid a.code (fun _ t => Logging start size d₀ (a.apply c) w₀ t)
      (fun e t => e ≠ .unsaved ∧ Early start size d₀ w₀ t.bufs)
      (fun t => Early start size d₀ w₀ t.bufs) s := by
  cases a with
  | read x =>
    refine Handler.wp_bind.2 (wp_bufcacheRead (fun _ => h.early)
      (fun _ _ => ⟨by decide, h.early⟩) fun _ => ?_)
    exact ⟨h.start_eq, h.size_eq, h.fits, h.room, h.home, h.word, h.inj, h.slot, h.rest, h.keeps,
      h.settled.lock, h.early⟩
  | release x =>
    refine wp_bufcacheRelease (fun _ => ⟨by decide, h.early⟩) (fun _ hm => ?_) fun _ => ?_
    · exact Finset.notMem_empty _ (h.settled.modified ▸ hm)
    · exact ⟨h.start_eq, h.size_eq, h.fits, h.room, h.home, h.word, h.inj, h.slot, h.rest, h.keeps,
        h.settled.unlock, h.early⟩
  | log x v =>
    have hdata : (s.bufs.assign x.toNat v).data x.toNat = v := update_self ..
    refine Handler.wp_bind.2 (wp_bufSet (fun _ => ⟨by decide, h.early⟩) fun hx => ?_)
    refine wp_logWrite hx (fun _ => ⟨by decide, h.early⟩) (fun _ => ⟨by decide, h.early⟩)
      (fun _ _ _ => h.early) (fun _ _ _ => ⟨by decide, h.early⟩) fun hn hsize _ _ => ?_
    refine h.log ha.1 x.isLt (fun h1 => ha.2 (BitVec.eq_of_toNat_eq h1)) hn hsize rfl ?_
    simp only [FsState.logged, FsState.onBufs, hdata]

/-- A sequence of actions. -/
theorem Logging.wp_codes (h : Logging start size d₀ c w₀ s) {acts : List TransAct}
    (ha : ∀ a ∈ acts, a.Home start size) :
    wp pid (TransAct.codes acts) (fun _ t => Logging start size d₀ (committed acts c) w₀ t)
      (fun e t => e ≠ .unsaved ∧ Early start size d₀ w₀ t.bufs)
      (fun t => Early start size d₀ w₀ t.bufs) s := by
  induction acts generalizing s c with
  | nil => exact h
  | cons a acts ih =>
    rw [List.forall_mem_cons] at ha
    rw [TransAct.codes]
    exact Handler.wp_bind.2 ((h.wp_code ha.1).mono (fun _ t ht => ih ht ha.2) (fun _ _ hE => hE)
      fun _ hB => hB)

/-- A disk on which only slots were written since the start. -/
theorem Redo.of_slots {A : List (Nat × Block)} (h : Redo start size d₀ d₀)
    (hn : headerN (d₀ start) = 0) (hA : ∀ w ∈ A, start < w.1 ∧ InLog start size w.1) :
    Redo start size d₀ (d₀.apply A) ∧ ∀ x, ¬ InLog start size x → d₀.apply A x = d₀ x := by
  have hhome : ∀ x, ¬ InLog start size x → d₀.apply A x = d₀ x := fun x hx =>
    d₀.apply_of_forall_ne A fun w hw he => hx (he ▸ (hA w hw).2)
  have hstart : d₀.apply A start = d₀ start :=
    d₀.apply_of_forall_ne A fun w hw => (hA w hw).1.ne'
  have hone : ¬ InLog start size 1 := fun h1 => by
    have := h.far
    exact absurd h1.1 (by omega)
  refine ⟨⟨h.far, h.keeps, by rw [hhome 1 hone]; exact h.area, by rw [hstart]; exact h.fits,
    by rw [hstart]; exact h.room, ?_, ?_, fun x hx _ => hhome x hx⟩, hhome⟩
  · rw [hstart, hn]
    exact fun i hi => absurd hi (Nat.not_lt_zero i)
  · rw [hstart, hn]
    exact fun i hi => absurd hi (Nat.not_lt_zero i)

/-- The first `write_head` of `commit_trans` is the commit: it makes the disk lead to the new
contents. -/
theorem Logging.redo_header (h : Logging start size d₀ c w₀ s) (h₀ : Redo start size d₀ d₀)
    (hn : headerN (d₀ start) = 0) (v : Block) :
    Redo start size c (update s.bufs.disk start (putHeader v s.log)) := by
  obtain ⟨A, -, hd, hA⟩ := h.early
  obtain ⟨hredo, hhome⟩ := h₀.of_slots hn hA
  rw [← hd] at hredo hhome
  have hcount : headerN (putHeader v s.log) = s.log.n :=
    headerN_of_get h.fits (get_putHeader v h.fits)
  have hsec : ∀ i < s.log.n, headerSector (putHeader v s.log) i = s.log.sector i := fun i hi =>
    headerSector_putHeader v h.fits hi (h.word i hi)
  have hne : (1 : Nat) ≠ start := by have := h₀.far; omega
  refine ⟨h₀.far, h.keeps, by rw [update_of_ne hne]; exact hredo.area, ?_, ?_, ?_, ?_, ?_⟩
  · rw [update_self, hcount]; exact h.fits
  · rw [update_self, hcount]; exact h.room
  · rw [update_self, hcount]
    intro i hi
    rw [hsec i hi]; exact h.home i hi
  · rw [update_self, hcount]
    intro i hi
    rw [hsec i hi, update_of_ne (by omega)]; exact h.slot i hi
  · rw [update_self, hcount]
    intro x hx hall
    rw [update_of_ne (by rintro rfl; exact hx hredo.inLog_start), hhome x hx]
    exact (h.rest x fun i hi => by rw [← hsec i hi]; exact hall i hi).symm

/-- After the commit, as long as every disk leads to the new contents. -/
theorem Early.late {v : Block} {b' : Store} (h : Early start size d₀ w₀ b)
    (hs : (b.write start v).Since (Redo start size c) b') : Late start size d₀ c w₀ b' := by
  obtain ⟨A, hw, hd, hA⟩ := h
  obtain ⟨R, hw', -, hR⟩ := hs
  refine ⟨A, v, R, ?_, hA, fun k => ?_⟩
  · rw [hw', Store.write, hw, List.append_assoc, List.append_assoc]
    rfl
  · have hk := hR k
    rw [Store.write, hd] at hk
    rw [Disk.apply_append]
    exact hk

/-- `commit_trans`: either the header has not been written, or every disk since then leads to the
new contents. -/
theorem Logging.wp_commitTrans (h : Logging start size d₀ c w₀ s) (h₀ : Redo start size d₀ d₀)
    (hn : headerN (d₀ start) = 0) :
    wp pid commitTrans
      (fun _ t => Early start size d₀ w₀ t.bufs ∨ Late start size d₀ c w₀ t.bufs)
      (fun e t => e ≠ .unsaved ∧ (Early start size d₀ w₀ t.bufs ∨ Late start size d₀ c w₀ t.bufs))
      (fun t => Early start size d₀ w₀ t.bufs ∨ Late start size d₀ c w₀ t.bufs) s := by
  rw [commitTrans]
  refine Handler.wp_bind.2 (wp_logGet.2 ?_)
  split_ifs with hpos
  · refine Handler.wp_bind.2 (wp_writeHead (fun _ => .inl h.early)
      (fun _ => ⟨by decide, .inl h.early⟩) ?_)
    rw [h.start_eq]
    generalize hH : putHeader (s.bufs.data start) s.log = H
    have hredo : Redo start size c (s.bufs.write start H).disk := by
      rw [← hH]
      exact h.redo_header h₀ hn _
    have hhead : (s.bufs.write start H).disk start = H := update_self ..
    have hinst : Installing start size c s.log (s.bufs.write start H) := by
      refine ⟨hredo, h.start_eq, ?_, fun i hi => ?_, h.settled.write⟩
      · rw [hhead, ← hH, headerN_of_get h.fits (get_putHeader _ h.fits)]
      · rw [hhead, ← hH, headerSector_putHeader _ h.fits hi (h.word i hi)]
    refine Handler.wp_bind.2 ?_
    rw [installTrans]
    refine Handler.wp_bind.2 (wp_logGet.2 ?_)
    refine (Installing.wp_installFrom (s := s.onBufs (·.write start H)) hinst
      fun i hi => List.mem_range.1 hi).mono ?_ ?_ ?_
    · rintro _ t ⟨hinst', hprog, hdone⟩
      refine Handler.wp_bind.2 (wp_logSetN.2 (Handler.wp_bind.2 (hinst'.wp_clear hprog.log
        (fun i hi => hdone i (List.mem_range.2 hi)) (fun _ => .inr ?_)
        (fun _ => ⟨by decide, .inr ?_⟩) fun u _ hsince _ => .inr ?_)))
      · exact h.early.late hprog.since
      · exact h.early.late hprog.since
      · exact h.early.late (hprog.since.trans hsince)
    · rintro e t ⟨rfl, -, hsince⟩
      exact ⟨by decide, .inr (h.early.late hsince)⟩
    · rintro t ⟨-, hsince⟩
      exact .inr (h.early.late hsince)
  · exact .inl h.early

/-- A whole transaction. -/
theorem wp_transaction (pid : Nat) (acts : List TransAct) (hs : Settled start size s.bufs)
    (h₀ : Redo start size s.bufs.disk s.bufs.disk) (hn : headerN (s.bufs.disk start) = 0)
    (hstart : s.log.start = start) (hsize : s.log.size = size) (hlog : s.log.n = 0)
    (ha : ∀ a ∈ acts, a.Home start size) :
    let Cut : Store → Prop := fun b => Early start size s.bufs.disk s.bufs.writes b ∨
      Late start size s.bufs.disk (committed acts s.bufs.disk) s.bufs.writes b
    wp pid (transaction acts) (fun _ t => Cut t.bufs) (fun e t => e ≠ .unsaved ∧ Cut t.bufs)
      (fun t => Cut t.bufs) s := by
  have hearly : Early start size s.bufs.disk s.bufs.writes s.bufs :=
    ⟨[], (List.append_nil _).symm, rfl, fun w hw => absurd hw List.not_mem_nil⟩
  have hnone : ∀ {P : Nat → Prop}, ∀ i < s.log.n, P i := fun i hi =>
    absurd hi (by rw [hlog]; exact Nat.not_lt_zero i)
  rw [transaction]
  refine Handler.wp_bind.2 (wp_beginTrans (fun _ => .inl hearly) fun _ => Handler.wp_bind.2 ?_)
  have hinit : Logging start size s.bufs.disk s.bufs.disk s.bufs.writes
      (s.onLog fun l => { l with busy := true }) := by
    refine ⟨hstart, hsize, ?_, ?_, hnone, hnone, hnone, hnone, fun _ _ => rfl,
      h₀.keeps, hs, hearly⟩
    · exact hlog.trans_le (Nat.zero_le _)
    · exact hlog.trans_lt (by have := h₀.room; omega)
  refine (hinit.wp_codes ha).mono (fun _ t ht => ?_) (fun _ _ hE => ⟨hE.1, .inl hE.2⟩)
    fun _ hB => .inl hB
  exact ht.wp_commitTrans h₀ hn

end

/-! ## Crashes -/

/-- A buffer cache without changes: the valid buffers hold what is on the disk. -/
structure BufCache.Clean (c : BufCache) : Prop where
  nodup : c.mru.Nodup
  mem : ∀ i, i ∈ c.mru ↔ i < nBuf
  unique : ∀ i < nBuf, ∀ j < nBuf, ∀ sector, (c.buf i).sector = some sector →
    (c.buf j).sector = some sector → i = j
  dirty : ∀ i < nBuf, (c.buf i).dirty = false
  held : ∀ i < nBuf, (c.buf i).busy = true → (c.buf i).valid = true ∧ (c.buf i).sector.isSome
  data : ∀ i < nBuf, ∀ sector, (c.buf i).sector = some sector → (c.buf i).valid = true →
    (c.buf i).data = c.disk sector

/-- The store that a clean cache represents. -/
def BufCache.store (c : BufCache) : Store where
  data := c.disk
  busy := ((Finset.range nBuf).filter fun i => (c.buf i).busy).image fun i =>
    (c.buf i).sector.getD 0
  dirty := ∅
  modified := ∅
  disk := c.disk
  writes := c.writes

/-- A clean cache is a store. -/
theorem BufCache.Clean.represents {c : BufCache} (h : c.Clean) : c.Represents c.store where
  nodup := h.nodup
  mem := h.mem
  unique := h.unique
  busy x := by
    simp only [store, Finset.mem_image, Finset.mem_filter, Finset.mem_range]
    constructor
    · rintro ⟨i, ⟨hi, hb⟩, rfl⟩
      obtain ⟨y, hy⟩ := Option.isSome_iff_exists.1 (h.held i hi hb).2
      exact ⟨i, hi, by rw [hy]; rfl, hb⟩
    · rintro ⟨i, hi, hs, hb⟩
      exact ⟨i, ⟨hi, hb⟩, by rw [hs]; rfl⟩
  dirty x := by
    refine ⟨fun hx => absurd hx (Finset.notMem_empty x), ?_⟩
    rintro ⟨i, hi, -, hd⟩
    rw [h.dirty i hi] at hd
    cases hd
  held i hi hbd := by
    rcases hbd with hb | hd
    · exact h.held i hi hb
    · rw [h.dirty i hi] at hd
      cases hd
  data := h.data
  disk := rfl
  writes := rfl
  ok := ⟨fun _ _ _ => rfl, Finset.empty_subset _⟩

/-- The cache after boot is clean. -/
theorem BufCache.clean_init (d : Disk) : (BufCache.init d).Clean where
  nodup := List.nodup_reverse.2 List.nodup_range
  mem i := by simp [init]
  unique _ _ _ _ _ h := nomatch h
  dirty _ _ := rfl
  held _ _ h := nomatch h
  data _ _ _ h := nomatch h

/-- The state over the store that a state over a clean cache represents. -/
theorem FsState.represents_store {s : FsState BufCache} (h : s.bufs.Clean) :
    s.Represents (s.withBufs s.bufs.store) := ⟨rfl, h.represents⟩

/-- The log is ready for a transaction: it is empty, in memory and on the disk, it is where the
superblock says, and it is not the boot sector or the superblock. -/
structure FsState.LogReady (s : FsState BufCache) : Prop where
  area : logArea (s.bufs.disk 1) = (s.log.start, s.log.size)
  far : 2 ≤ s.log.start
  pos : 0 < s.log.size
  header : headerN (s.bufs.disk s.log.start) = 0
  empty : s.log.n = 0

/-- `log_init` after a boot with the disk `d`; `m` is the rest of the memory. -/
def recovery (pid : Nat) (m : FsState BufCache) (d : Disk) :
    Outcome Panic (FsState BufCache) Unit :=
  (fsHandler BufCache.layer pid).run logInit { m with bufs := .init d }

/-- A recovery on the disk `d` that is cut off by a crash leaves the disk `d'`. -/
def CutRecovery (d d' : Disk) : Prop :=
  ∃ pid m k, d' = d.apply ((recovery pid m d).state.bufs.writes.take k)

section
variable {start size : Nat} {c d d' : Disk}

/-- Recovery on a disk that leads to the contents `c`, over the buffer cache. -/
theorem Redo.recovery (h : Redo start size c d) (pid : Nat) (m : FsState BufCache) :
    ∃ t, recovery pid m d = .ok () t ∧ get (t.bufs.disk start) 0 32 = 0 ∧
      Redo start size c t.bufs.disk ∧ ∀ k, Redo start size c (d.apply (t.bufs.writes.take k)) := by
  have hclean := BufCache.clean_init d
  have hrep := FsState.represents_store (s := { m with bufs := BufCache.init d }) hclean
  have hwp := Redo.wp_logInit pid (s := FsState.withBufs m (BufCache.init d).store) h
    hclean.represents.ok rfl ⟨rfl, rfl⟩
  have hsat := (hrep.run pid logInit).sat hwp fun _ _ hf => hf.elim
  unfold MCertikos.recovery
  cases hrun : (fsHandler BufCache.layer pid).run logInit { m with bufs := .init d } with
  | ok a t =>
    rw [hrun] at hsat
    obtain ⟨u, hR, ⟨W, hw, hd, hW⟩, hzero⟩ := hsat
    have hw' : t.bufs.writes = W := hR.2.writes.trans hw
    refine ⟨t, rfl, by rw [hR.2.disk]; exact hzero, ?_, fun k => by rw [hw']; exact hW k⟩
    rw [hR.2.disk]
    exact Store.Since.disk ⟨W, hw, hd, hW⟩
  | panic e t =>
    rw [hrun] at hsat
    obtain ⟨u, -, hf⟩ := hsat
    exact hf.elim
  | blocked t =>
    rw [hrun] at hsat
    obtain ⟨u, -, hf⟩ := hsat
    exact hf.elim

/-- Recoveries that are cut off leave disks that lead to the same contents. -/
theorem Redo.cutRecovery (h : Redo start size c d) (hc : Relation.ReflTransGen CutRecovery d d') :
    Redo start size c d' := by
  induction hc with
  | refl => exact h
  | tail _ hcut ih =>
    obtain ⟨pid, m, k, rfl⟩ := hcut
    obtain ⟨t, ht, -, -, hW⟩ := ih.recovery pid m
    rw [ht]
    exact hW k

/-- The sector writes of a transaction, over the buffer cache. -/
def transactionWrites (pid : Nat) (s : FsState BufCache) (acts : List TransAct) :
    List (Nat × Block) :=
  ((fsHandler BufCache.layer pid).run (transaction acts) s).state.bufs.writes.drop
    s.bufs.writes.length

/-- The first `k` writes of a transaction: either none of them is the header, and the disk leads to
the old contents, or the disk leads to the new contents. -/
theorem redo_of_cut (pid : Nat) {s : FsState BufCache} {acts : List TransAct}
    (hclean : s.bufs.Clean) (hready : s.LogReady)
    (hhome : ∀ a ∈ acts, a.Home s.log.start s.log.size) (k : Nat) :
    (∀ w ∈ (transactionWrites pid s acts).take k, w.1 ≠ s.log.start) ∧
        Redo s.log.start s.log.size s.bufs.disk
          (s.bufs.disk.apply ((transactionWrites pid s acts).take k)) ∨
      Redo s.log.start s.log.size (committed acts s.bufs.disk)
        (s.bufs.disk.apply ((transactionWrites pid s acts).take k)) := by
  have h₀ : Redo s.log.start s.log.size s.bufs.disk s.bufs.disk := by
    refine ⟨hready.far, hready.area, hready.area, ?_, ?_, ?_, ?_, fun _ _ _ => rfl⟩ <;>
      rw [hready.header]
    · exact Nat.zero_le _
    · exact hready.pos
    · exact fun i hi => absurd hi (Nat.not_lt_zero i)
    · exact fun i hi => absurd hi (Nat.not_lt_zero i)
  have hwp := wp_transaction pid acts (s := s.withBufs s.bufs.store)
    (.of_clean hclean.represents.ok rfl rfl) h₀ hready.header rfl rfl hready.empty hhome
  have hsat := ((FsState.represents_store hclean).run pid (transaction acts)).sat hwp
    fun _ _ he => he.1
  obtain ⟨b, hwrites, hcut⟩ : ∃ b : Store,
      ((fsHandler BufCache.layer pid).run (transaction acts) s).state.bufs.writes = b.writes ∧
      (Early s.log.start s.log.size s.bufs.disk s.bufs.writes b ∨
        Late s.log.start s.log.size s.bufs.disk (committed acts s.bufs.disk) s.bufs.writes b) := by
    refine hsat.of_state (P := fun t => ∃ b : Store, t.bufs.writes = b.writes ∧
      (Early s.log.start s.log.size s.bufs.disk s.bufs.writes b ∨
        Late s.log.start s.log.size s.bufs.disk (committed acts s.bufs.disk) s.bufs.writes b)) ?_
        ?_ ?_
    · rintro _ t ⟨u, hR, hcut⟩
      exact ⟨u.bufs, hR.2.writes, hcut⟩
    · rintro _ t ⟨u, hR, -, hcut⟩
      exact ⟨u.bufs, hR.2.writes, hcut⟩
    · rintro t ⟨u, hR, hcut⟩
      exact ⟨u.bufs, hR.2.writes, hcut⟩
  have hslots : ∀ {A : List (Nat × Block)},
      (∀ w ∈ A, s.log.start < w.1 ∧ InLog s.log.start s.log.size w.1) → ∀ j,
      (∀ w ∈ A.take j, w.1 ≠ s.log.start) ∧
        Redo s.log.start s.log.size s.bufs.disk (s.bufs.disk.apply (A.take j)) := fun hA j =>
    ⟨fun w hw => (hA w (List.mem_of_mem_take hw)).1.ne',
      (h₀.of_slots hready.header fun w hw => hA w (List.mem_of_mem_take hw)).1⟩
  rcases hcut with ⟨A, hw, -, hA⟩ | ⟨A, v, R, hw, hA, hR⟩
  · rw [transactionWrites, hwrites, hw, List.drop_left]
    exact .inl (hslots hA k)
  · rw [transactionWrites, hwrites, hw, List.drop_left]
    rcases Nat.lt_or_ge A.length k with hk | hk
    · obtain ⟨j, rfl⟩ : ∃ j, k = A.length + (j + 1) := ⟨k - A.length - 1, by omega⟩
      rw [List.take_length_add_append, List.take_succ_cons]
      exact .inr (hR j)
    · rw [List.take_append_of_le_length hk]
      exact .inl (hslots hA k)

/-- Crash atomicity of the log. A transaction on home sectors, which does not move the log, is cut
off by a crash after any number of its sector writes (also where it panics or waits for a buffer),
and so is recovery, any number of times. Then recovery that is not cut off completes, with an empty
log, and the home sectors have either all the old contents or all those of the last `log_write` of
each; and these if the header was among the writes of the transaction. -/
theorem crash_atomicity (pid : Nat) (s : FsState BufCache) (acts : List TransAct)
    (hclean : s.bufs.Clean) (hready : s.LogReady)
    (hhome : ∀ a ∈ acts, a.Home s.log.start s.log.size) (k : Nat) (d : Disk)
    (hcut : Relation.ReflTransGen CutRecovery
      (s.bufs.disk.apply ((transactionWrites pid s acts).take k)) d)
    (pid' : Nat) (m : FsState BufCache) :
    ∃ t, recovery pid' m d = .ok () t ∧ get (t.bufs.disk s.log.start) 0 32 = 0 ∧
      ((∀ x, ¬ InLog s.log.start s.log.size x → t.bufs.disk x = s.bufs.disk x) ∨
        ∀ x, ¬ InLog s.log.start s.log.size x → t.bufs.disk x = committed acts s.bufs.disk x) ∧
      ((∃ w ∈ (transactionWrites pid s acts).take k, w.1 = s.log.start) →
        ∀ x, ¬ InLog s.log.start s.log.size x → t.bufs.disk x = committed acts s.bufs.disk x) := by
  rcases redo_of_cut pid hclean hready hhome k with ⟨hnone, hredo⟩ | hredo
  · obtain ⟨t, ht, hzero, hend, -⟩ := (hredo.cutRecovery hcut).recovery pid' m
    refine ⟨t, ht, hzero, .inl fun x hx => ?_, fun ⟨w, hw, he⟩ => absurd he (hnone w hw)⟩
    exact hend.eq_of_empty (headerN_of_get (Nat.zero_le _) hzero) hx
  · obtain ⟨t, ht, hzero, hend, -⟩ := (hredo.cutRecovery hcut).recovery pid' m
    have hnew : ∀ x, ¬ InLog s.log.start s.log.size x →
        t.bufs.disk x = committed acts s.bufs.disk x := fun x hx =>
      hend.eq_of_empty (headerN_of_get (Nat.zero_le _) hzero) hx
    exact ⟨t, ht, hzero, .inr hnew, fun _ => hnew⟩

/-- A disk of 20 sectors with a log of 5, and the memory after `log_init`. -/
def smallLog : FsState BufCache :=
  let disk : Disk := fun x => if x = 1 then put (put 0 0 (20 : BitVec 32)) 96
    (5 : BitVec 32) else 0
  (FsState.zeroed (.init disk)).onLog fun l => { l with start := 15, size := 5 }

/-- A transaction that logs sector 5 twice. -/
def smallTransaction : List TransAct := [.read 5, .log 5 1, .log 5 2, .release 5]

/-- After the two writes to the slot and the header, a crash loses nothing. -/
theorem crash_atomicity_after_header :
    (∃ w ∈ (transactionWrites 0 smallLog smallTransaction).take 3, w.1 = 15) ∧
      ∃ t, recovery 0 smallLog
        (smallLog.bufs.disk.apply ((transactionWrites 0 smallLog smallTransaction).take 3)) =
          .ok () t ∧ get (t.bufs.disk 15) 0 32 = 0 ∧ t.bufs.disk 5 = 2 := by
  have hheader : ∃ w ∈ (transactionWrites 0 smallLog smallTransaction).take 3, w.1 = 15 := by
    decide +kernel
  have hready : smallLog.LogReady :=
    ⟨by decide +kernel, by decide, by decide, by decide +kernel, rfl⟩
  have hhome : ∀ a ∈ smallTransaction, a.Home 15 5 := by
    simp [smallTransaction, TransAct.Home, InLog]
  obtain ⟨t, ht, hzero, -, hnew⟩ := crash_atomicity 0 smallLog smallTransaction
    (BufCache.clean_init _) hready hhome 3 _ .refl 0 smallLog
  refine ⟨hheader, t, ht, hzero, ?_⟩
  rw [hnew hheader 5 (by decide)]
  decide +kernel

end

end MCertikos
