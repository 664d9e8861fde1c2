import MCertikos.Fs.Store

/-!
# The buffer cache

The buffer cache of `kern/fs/bufcache.c` over the disk driver `kern/dev/disk/ide.c`, and that it
implements the store (`FsState.Represents.run`): a program that runs over the cache ends as it does
over the store, with the same result and the same sector writes in the same order.

The buffers are in a list in order of use, most recent first, which stands for the links `prev` and
`next`. A buffer whose `dev` is -1 holds no sector. A request to the disk is served before the
caller goes on.
-/

namespace MCertikos

open Program Function

variable {c : FsState BufCache} {s : FsState Store}

/-- Reference: `struct buf` (`kern/lib/buf.h:6`). -/
structure Buf where
  /-- The sector on `ROOTDEV`, or none when `dev` is -1. -/
  sector : Option Nat
  /-- `B_BUSY`. -/
  busy : Bool
  /-- `B_VALID`. -/
  valid : Bool
  /-- `B_DIRTY`. -/
  dirty : Bool
  data : Block

/-- The buffer cache with its disk. Reference: `bcache` (`kern/fs/bufcache.c:31`). -/
structure BufCache where
  buf : Nat → Buf
  /-- The buffers from `head.next` to `head.prev`. -/
  mru : List Nat
  disk : Disk
  /-- History variable: the sectors written to disk. -/
  writes : List (Nat × Block)

namespace BufCache

variable (c : BufCache)

/-- The cache after boot over a disk. Reference: `bufcache_init` (`kern/fs/bufcache.c:40`). -/
def init (disk : Disk) : BufCache where
  buf _ := { sector := none, busy := false, valid := false, dirty := false, data := 0 }
  mru := (List.range nBuf).reverse
  disk := disk
  writes := []

/-- Changes one buffer. -/
def setBuf (i : Nat) (b : Buf) : BufCache := { c with buf := Function.update c.buf i b }

/-- The buffer that holds a sector, searched from the most recently used one. -/
def find (sector : Nat) : Option Nat := c.mru.find? fun i => (c.buf i).sector = some sector

/-- The buffer to recycle, searched from the least recently used one. -/
def victim : Option Nat := c.mru.reverse.find? fun i => (c.buf i).busy = false ∧
    (c.buf i).dirty = false

/-- Reference: `bufcache_get` (`kern/fs/bufcache.c:63`). -/
def bufcacheGet (sector : Nat) : Outcome Panic BufCache Nat :=
  match c.find sector with
  | some i =>
    if (c.buf i).busy then .blocked c else .ok i (c.setBuf i { c.buf i with busy := true })
  | none =>
    match c.victim with
    | some i =>
      .ok i (c.setBuf i
        { c.buf i with sector := some sector, busy := true, valid := false, dirty := false })
    | none => .panic .noBuffers c

/-- Syncs a buffer with the disk. Reference: `ide_rw` (`kern/dev/disk/ide.c:116`), with the
transfer of `ide_start` and `ide_intr`. -/
def ideRw (i : Nat) : Outcome Panic BufCache Unit :=
  let b := c.buf i
  if b.busy = false then .panic .ideNotBusy c
  else if b.valid ∧ b.dirty = false then .panic .ideNothing c
  else
    match b.sector with
    | none => .panic .ideNothing c
    | some sector =>
      if b.dirty then
        .ok () { c.setBuf i { b with valid := true, dirty := false } with
          disk := Function.update c.disk sector b.data
          writes := c.writes ++ [(sector, b.data)] }
      else .ok () (c.setBuf i { b with data := c.disk sector, valid := true })

/-- The part of `bufcache_read` after `bufcache_get`. -/
def fetch (i : Nat) (c : BufCache) : Outcome Panic BufCache Block :=
  if (c.buf i).valid then .ok (c.buf i).data c
  else (c.ideRw i).bind fun _ c => .ok (c.buf i).data c

/-- Reference: `bufcache_read` (`kern/fs/bufcache.c:100`). -/
def bread (sector : Nat) (c : BufCache) : Outcome Panic BufCache Block :=
  (c.bufcacheGet sector).bind fetch

/-- The contents of a buffer the caller holds. -/
def bget (sector : Nat) (c : BufCache) : Outcome Panic BufCache Block :=
  match c.find sector with
  | some i => if (c.buf i).busy then .ok (c.buf i).data c else .panic .misuse c
  | none => .panic .misuse c

/-- Assigns to the contents of a buffer the caller holds. -/
def bset (sector : Nat) (data : Block) (c : BufCache) : Outcome Panic BufCache Unit :=
  match c.find sector with
  | some i =>
    if (c.buf i).busy then .ok () (c.setBuf i { c.buf i with data }) else .panic .misuse c
  | none => .panic .misuse c

/-- Reference: `bufcache_write` (`kern/fs/bufcache.c:114`). -/
def bwrite (sector : Nat) (c : BufCache) : Outcome Panic BufCache Unit :=
  match c.find sector with
  | some i =>
    if (c.buf i).busy then (c.setBuf i { c.buf i with dirty := true }).ideRw i
    else .panic .bwrite c
  | none => .panic .bwrite c

/-- Reference: `bufcache_release` (`kern/fs/bufcache.c:127`). -/
def brelse (sector : Nat) (c : BufCache) : Outcome Panic BufCache Unit :=
  match c.find sector with
  | some i =>
    if (c.buf i).busy then
      .ok () { c.setBuf i { c.buf i with busy := false } with mru := i :: c.mru.erase i }
    else .panic .brelse c
  | none => .panic .brelse c

/-- `b->flags |= B_DIRTY` for a buffer the caller holds. -/
def bdirty (sector : Nat) (c : BufCache) : Outcome Panic BufCache Unit :=
  match c.find sector with
  | some i =>
    if (c.buf i).busy then .ok () (c.setBuf i { c.buf i with dirty := true }) else .panic .misuse c
  | none => .panic .misuse c

/-- The buffer cache as a layer of disk buffers. -/
def layer : BufLayer BufCache where
  bread := bread
  bget := bget
  bset := bset
  bwrite := bwrite
  brelse := brelse
  bdirty := bdirty

/-! ## The store that a cache represents -/

/-- The cache represents the store: the buffers in the list are the `NBUF` buffers and hold
different sectors; locks and dirty flags are those of the store; locked and dirty buffers are
valid; and a valid buffer holds the contents of its sector. -/
structure Represents (c : BufCache) (b : Store) : Prop where
  nodup : c.mru.Nodup
  mem : ∀ i, i ∈ c.mru ↔ i < nBuf
  unique : ∀ i < nBuf, ∀ j < nBuf, ∀ sector, (c.buf i).sector = some sector →
    (c.buf j).sector = some sector → i = j
  busy : ∀ sector, sector ∈ b.busy ↔
    ∃ i < nBuf, (c.buf i).sector = some sector ∧ (c.buf i).busy = true
  dirty : ∀ sector, sector ∈ b.dirty ↔
    ∃ i < nBuf, (c.buf i).sector = some sector ∧ (c.buf i).dirty = true
  held : ∀ i < nBuf, (c.buf i).busy = true ∨ (c.buf i).dirty = true →
    (c.buf i).valid = true ∧ (c.buf i).sector.isSome
  data : ∀ i < nBuf, ∀ sector, (c.buf i).sector = some sector → (c.buf i).valid = true →
    (c.buf i).data = b.data sector
  disk : c.disk = b.disk
  writes : c.writes = b.writes
  ok : b.Ok

section
variable {c : BufCache} {b b' : Store} {i sector : Nat} {v : Buf}

/-- The search finds the buffer that holds the sector. -/
theorem Represents.find_eq_some (h : Represents c b) :
    c.find sector = some i ↔ i < nBuf ∧ (c.buf i).sector = some sector := by
  constructor
  · intro hf
    have hm := List.mem_of_find?_eq_some hf
    have hp := List.find?_some hf
    exact ⟨(h.mem i).1 hm, by simpa using hp⟩
  · rintro ⟨hi, hs⟩
    cases hf : c.find sector with
    | none =>
      have := List.find?_eq_none.1 hf i ((h.mem i).2 hi)
      simp [hs] at this
    | some j =>
      have hm := List.mem_of_find?_eq_some hf
      have hp := List.find?_some hf
      rw [h.unique i hi j ((h.mem j).1 hm) sector hs (by simpa using hp)]

/-- The search fails when no buffer holds the sector. -/
theorem Represents.find_eq_none (h : Represents c b) :
    c.find sector = none ↔ ∀ i < nBuf, (c.buf i).sector ≠ some sector := by
  constructor
  · intro hf i hi
    have := List.find?_eq_none.1 hf i ((h.mem i).2 hi)
    simpa using this
  · intro hn
    refine List.find?_eq_none.2 fun i hi => ?_
    simpa using hn i ((h.mem i).1 hi)

/-- What a reader of the sector would find: the contents of its buffer, or of the disk. -/
def current (c : BufCache) (sector : Nat) : Block :=
  match c.find sector with
  | some i => if (c.buf i).valid then (c.buf i).data else c.disk sector
  | none => c.disk sector

section
variable (h : Represents c b)
include h

/-- The contents of a sector are those in its buffer, or those on the disk. -/
theorem Represents.current_eq : c.current sector = b.data sector := by
  have hdisk : (∀ i < nBuf, (c.buf i).sector = some sector → (c.buf i).valid = false) →
      c.disk sector = b.data sector := fun hinvalid => by
    have hnot : ∀ i < nBuf, (c.buf i).sector = some sector →
        ¬ ((c.buf i).busy = true ∨ (c.buf i).dirty = true) := fun i hi hs hc =>
      absurd ((h.held i hi hc).1.symm.trans (hinvalid i hi hs)) nofun
    rw [h.disk, h.ok.clean sector (fun hd => ?_) fun hm => ?_]
    · obtain ⟨i, hi, hs, hdirty⟩ := (h.dirty sector).1 hd
      exact hnot i hi hs (.inr hdirty)
    · obtain ⟨i, hi, hs, hbusy⟩ := (h.busy sector).1 (h.ok.locked hm)
      exact hnot i hi hs (.inl hbusy)
  unfold current
  cases hf : c.find sector with
  | none => exact hdisk fun i hi hs => absurd hs (h.find_eq_none.1 hf i hi)
  | some i =>
    obtain ⟨hi, hs⟩ := h.find_eq_some.1 hf
    dsimp only
    split
    · next hv => exact h.data i hi sector hs hv
    · next hv =>
      refine hdisk fun j hj hj' => ?_
      rw [h.unique j hj i hi sector hj' hs]
      exact Bool.eq_false_iff.2 hv

/-- Whether a found buffer is locked. -/
theorem Represents.mem_busy (hi : i < nBuf) (hs : (c.buf i).sector = some sector) :
    sector ∈ b.busy ↔ (c.buf i).busy = true := by
  rw [h.busy]
  refine ⟨?_, fun hb => ⟨i, hi, hs, hb⟩⟩
  rintro ⟨j, hj, hsj, hb⟩
  rwa [h.unique i hi j hj sector hs hsj]

/-- Whether a found buffer is dirty. -/
theorem Represents.mem_dirty (hi : i < nBuf) (hs : (c.buf i).sector = some sector) :
    sector ∈ b.dirty ↔ (c.buf i).dirty = true := by
  rw [h.dirty]
  refine ⟨?_, fun hb => ⟨i, hi, hs, hb⟩⟩
  rintro ⟨j, hj, hsj, hb⟩
  rwa [h.unique i hi j hj sector hs hsj]

/-- Each locked or dirty sector has its own buffer. -/
theorem Represents.pinned_card : (b.busy ∪ b.dirty).card =
      ((Finset.range nBuf).filter fun i => (c.buf i).busy = true ∨
        (c.buf i).dirty = true).card := by
  symm
  refine Finset.card_bij (fun i _ => ((c.buf i).sector.getD 0)) (fun i hi => ?_)
    (fun i hi j hj he => ?_) fun sec hsec => ?_
  · obtain ⟨hlt, hp⟩ := Finset.mem_filter.1 hi
    have hlt := Finset.mem_range.1 hlt
    obtain ⟨sec, hsec⟩ := Option.isSome_iff_exists.1 (h.held i hlt hp).2
    rw [hsec, Option.getD_some, Finset.mem_union, h.busy, h.dirty]
    rcases hp with hp | hp
    · exact .inl ⟨i, hlt, hsec, hp⟩
    · exact .inr ⟨i, hlt, hsec, hp⟩
  · obtain ⟨hi, hpi⟩ := Finset.mem_filter.1 hi
    obtain ⟨hj, hpj⟩ := Finset.mem_filter.1 hj
    have hi := Finset.mem_range.1 hi
    have hj := Finset.mem_range.1 hj
    obtain ⟨sec, hsec⟩ := Option.isSome_iff_exists.1 (h.held i hi hpi).2
    obtain ⟨sec', hsec'⟩ := Option.isSome_iff_exists.1 (h.held j hj hpj).2
    simp only [hsec, hsec', Option.getD_some] at he
    subst he
    exact h.unique i hi j hj sec hsec hsec'
  · rw [Finset.mem_union, h.busy, h.dirty] at hsec
    rcases hsec with ⟨i, hi, hs, hp⟩ | ⟨i, hi, hs, hp⟩
    · exact ⟨i, Finset.mem_filter.2 ⟨Finset.mem_range.2 hi, .inl hp⟩, by rw [hs]; rfl⟩
    · exact ⟨i, Finset.mem_filter.2 ⟨Finset.mem_range.2 hi, .inr hp⟩, by rw [hs]; rfl⟩

/-- While some buffer is neither locked nor dirty, there are fewer such sectors than buffers. -/
theorem Represents.pinned_lt (hi : i < nBuf) (hb : ¬ (c.buf i).busy = true)
    (hd : ¬ (c.buf i).dirty = true) :
    (b.busy ∪ b.dirty).card < nBuf := by
  rw [h.pinned_card]
  have hlt : ((Finset.range nBuf).filter fun i => (c.buf i).busy = true ∨ (c.buf i).dirty = true) ⊂
      Finset.range nBuf :=
    Finset.filter_ssubset.2 ⟨i, Finset.mem_range.2 hi, not_or.2 ⟨hb, hd⟩⟩
  simpa using Finset.card_lt_card hlt

/-- Without a buffer to recycle, every buffer is locked or dirty. -/
theorem Represents.pinned_eq (hv : c.victim = none) : nBuf ≤ (b.busy ∪ b.dirty).card := by
  rw [h.pinned_card, Finset.filter_true_of_mem, Finset.card_range]
  intro i hi
  have := List.find?_eq_none.1 hv i (List.mem_reverse.2 ((h.mem i).2 (Finset.mem_range.1 hi)))
  by_contra hn
  obtain ⟨h1, h2⟩ := not_or.1 hn
  simp [h1, h2] at this

end

/-- Which sectors have a flag after a change of one buffer. -/
theorem exists_update_iff (g : Buf → Bool) {f : Nat → Buf} (hi : i < nBuf)
    (hv : v.sector = some sector) (hothers : ∀ j < nBuf, j ≠ i → (f j).sector ≠ some sector)
    (hold : ∀ s, (f i).sector = some s → s ≠ sector → g (f i) = false) (s : Nat) :
    (∃ j < nBuf, (update f i v j).sector = some s ∧ g (update f i v j) = true) ↔
      if s = sector then g v = true else ∃ j < nBuf, (f j).sector = some s ∧ g (f j) = true := by
  split_ifs with hs
  · subst hs
    constructor
    · rintro ⟨j, hj, hjs, hjg⟩
      rcases eq_or_ne j i with rfl | hji
      · simpa using hjg
      · rw [update_of_ne hji] at hjs
        exact absurd hjs (hothers j hj hji)
    · intro hg
      exact ⟨i, hi, by simpa using hv, by simpa using hg⟩
  · constructor
    · rintro ⟨j, hj, hjs, hjg⟩
      rcases eq_or_ne j i with rfl | hji
      · rw [update_self, hv] at hjs
        exact absurd (Option.some.inj hjs).symm hs
      · rw [update_of_ne hji] at hjs hjg
        exact ⟨j, hj, hjs, hjg⟩
    · rintro ⟨j, hj, hjs, hjg⟩
      rcases eq_or_ne j i with rfl | hji
      · rw [hold s hjs hs] at hjg
        cases hjg
      · refine ⟨j, hj, ?_, ?_⟩ <;> rwa [update_of_ne hji]

section
variable (h : Represents c b) (hi : i < nBuf) {c' : BufCache}
  (hbuf : c'.buf = Function.update c.buf i v) (hnd : c'.mru.Nodup)
  (hmem : ∀ j, j ∈ c'.mru ↔ j < nBuf) (hv : v.sector = some sector) (hvalid : v.valid = true)
  (hdata : v.data = b'.data sector)
  (hbusy : ∀ s, s ∈ b'.busy ↔ if s = sector then v.busy = true else s ∈ b.busy)
  (hdirty : ∀ s, s ∈ b'.dirty ↔ if s = sector then v.dirty = true else s ∈ b.dirty)
  (hsame : ∀ s, s ≠ sector → b'.data s = b.data s) (hdisk : c'.disk = b'.disk)
  (hwrites : c'.writes = b'.writes) (hok : b'.Ok)
include h hi hbuf hnd hmem hv hvalid hdata hbusy hdirty hsame hdisk hwrites hok

/-- A change of one buffer, which holds `sector` afterwards and held no other locked or dirty
sector before. -/
theorem Represents.update (hothers : ∀ j < nBuf, j ≠ i → (c.buf j).sector ≠ some sector)
    (hold : ∀ s, (c.buf i).sector = some s → s ≠ sector → (c.buf i).busy = false ∧
      (c.buf i).dirty = false) : Represents c' b' where
  nodup := hnd
  mem := hmem
  unique j hj k hk s hjs hks := by
    rw [hbuf] at hjs hks
    by_cases hji : j = i <;> by_cases hki : k = i
    · rw [hji, hki]
    · subst hji
      rw [update_self, hv] at hjs
      rw [update_of_ne hki] at hks
      cases hjs
      exact absurd hks (hothers k hk hki)
    · subst hki
      rw [update_self, hv] at hks
      rw [update_of_ne hji] at hjs
      cases hks
      exact absurd hjs (hothers j hj hji)
    · rw [update_of_ne hji] at hjs
      rw [update_of_ne hki] at hks
      exact h.unique j hj k hk s hjs hks
  busy s := by
    rw [hbusy, hbuf, h.busy]
    exact (exists_update_iff Buf.busy hi hv hothers (fun s hs hne => (hold s hs hne).1) s).symm
  dirty s := by
    rw [hdirty, hbuf, h.dirty]
    exact (exists_update_iff Buf.dirty hi hv hothers (fun s hs hne => (hold s hs hne).2) s).symm
  held j hj hp := by
    rw [hbuf] at hp ⊢
    rcases eq_or_ne j i with rfl | hji
    · simp [hv, hvalid]
    · rw [update_of_ne hji] at hp ⊢
      exact h.held j hj hp
  data j hj s hjs hjv := by
    rw [hbuf] at hjs hjv ⊢
    rcases eq_or_ne j i with rfl | hji
    · rw [update_self] at hjs ⊢
      rw [hv] at hjs
      cases hjs
      exact hdata
    · rw [update_of_ne hji] at hjs hjv ⊢
      have hs : s ≠ sector := fun he => hothers j hj hji (he ▸ hjs)
      rw [hsame s hs]
      exact h.data j hj s hjs hjv
  disk := hdisk
  writes := hwrites
  ok := hok

/-- A change of a buffer that holds `sector` already. -/
theorem Represents.update_same (hs : (c.buf i).sector = some sector) : Represents c' b' := by
  refine h.update hi hbuf hnd hmem hv hvalid hdata hbusy hdirty hsame hdisk hwrites hok
    (fun j hj hne hjs => ?_) fun s hs' hne => ?_
  · exact hne (h.unique j hj i hi sector hjs hs)
  · exact absurd (Option.some.inj (hs'.symm.trans hs)) hne

end

/-! ## The operations -/

/-- A locked buffer is fetched from the disk unless it is valid. -/
theorem fetch_setBuf (hb : v.busy = true) (hs : v.sector = some sector)
    (hd : v.valid = false → v.dirty = false) :
    fetch i (c.setBuf i v) =
      .ok (if v.valid then v.data else c.disk sector)
        (c.setBuf i { v with valid := true, data :=
          if v.valid then v.data else c.disk sector }) := by
  obtain ⟨vs, vb, vv, vd, vdata⟩ := v
  cases vv with
  | true => simp [fetch, setBuf]
  | false =>
    obtain rfl : vb = true := hb
    obtain rfl : vs = some sector := hs
    obtain rfl : vd = false := hd rfl
    simp [fetch, setBuf, ideRw, Outcome.bind]

section
variable (h : Represents c b)
include h

/-- `bufcache_read`. -/
theorem Represents.bread :
    (BufCache.bread sector c).Refines Represents (· = .unsaved) (b.bread sector) := by
  have hclean : sector ∉ b.busy → sector ∉ b.dirty → c.disk sector = b.data sector :=
    fun hb hd => by rw [h.disk, h.ok.clean sector hd fun hm => hb (h.ok.locked hm)]
  have hok : Store.Ok { b with busy := insert sector b.busy } :=
    ⟨h.ok.clean, h.ok.locked.trans (Finset.subset_insert _ _)⟩
  have hbusy : ∀ s, s ∈ insert sector b.busy ↔ if s = sector then true = true else s ∈ b.busy := by
    intro s
    by_cases hse : s = sector <;> simp [hse]
  unfold Store.bread BufCache.bread bufcacheGet
  cases hf : c.find sector with
  | some i =>
    obtain ⟨hi, hs⟩ := h.find_eq_some.1 hf
    by_cases hb : (c.buf i).busy = true
    · rw [if_pos ((h.mem_busy hi hs).2 hb)]
      simp only [hb, if_true]
      exact ⟨c, rfl, h⟩
    · have hnb : sector ∉ b.busy := fun hm => hb ((h.mem_busy hi hs).1 hm)
      have hroom : ¬ (sector ∉ b.dirty ∧ nBuf ≤ (b.busy ∪ b.dirty).card) := fun ⟨hd, hcard⟩ =>
        absurd (h.pinned_lt hi hb fun he => hd ((h.mem_dirty hi hs).2 he)) (Nat.not_lt.2 hcard)
      have hnd : (c.buf i).valid = false → (c.buf i).dirty = false := fun hv => by
        by_contra hd
        rw [(h.held i hi (.inr (by simpa using hd))).1] at hv
        cases hv
      have hdata : (if (c.buf i).valid = true then (c.buf i).data else c.disk sector) =
          b.data sector := by
        split_ifs with hval
        · exact h.data i hi sector hs hval
        · refine hclean hnb fun hm => ?_
          rw [h.mem_dirty hi hs, hnd (by simpa using hval)] at hm
          cases hm
      rw [if_neg hnb, if_neg hroom]
      simp only [if_neg hb]
      show Outcome.Refines _ _ (fetch i (c.setBuf i { c.buf i with busy := true })) _
      rw [fetch_setBuf (v := { c.buf i with busy := true }) rfl hs hnd]
      refine ⟨_, by rw [hdata], ?_⟩
      refine h.update_same hi rfl h.nodup h.mem hs rfl rfl hbusy (fun s => ?_) (fun _ _ => rfl)
        h.disk h.writes hok hs
      split_ifs with hse
      · rw [hse]; exact h.mem_dirty hi hs
      · rfl
  | none =>
    have hn := h.find_eq_none.1 hf
    have hnb : sector ∉ b.busy := fun hm => by
      obtain ⟨j, hj, hjs, -⟩ := (h.busy sector).1 hm
      exact hn j hj hjs
    have hnd : sector ∉ b.dirty := fun hm => by
      obtain ⟨j, hj, hjs, -⟩ := (h.dirty sector).1 hm
      exact hn j hj hjs
    rw [if_neg hnb]
    cases hv : c.victim with
    | none =>
      rw [if_pos ⟨hnd, h.pinned_eq hv⟩]
      exact .inr ⟨c, rfl, h⟩
    | some i =>
      have hi : i < nBuf := (h.mem i).1 (List.mem_reverse.1 (List.mem_of_find?_eq_some hv))
      have hp := List.find?_some hv
      simp only [decide_eq_true_eq] at hp
      have hroom : ¬ (sector ∉ b.dirty ∧ nBuf ≤ (b.busy ∪ b.dirty).card) := fun ⟨_, hcard⟩ =>
        absurd (h.pinned_lt hi (by simp [hp.1]) (by simp [hp.2])) (Nat.not_lt.2 hcard)
      rw [if_neg hroom]
      show Outcome.Refines _ _ (fetch i (c.setBuf i
        { c.buf i with sector := some sector, busy := true, valid := false, dirty := false })) _
      rw [fetch_setBuf rfl rfl fun _ => rfl]
      refine ⟨_, by rw [← hclean hnb hnd]; rfl, ?_⟩
      refine h.update hi rfl h.nodup h.mem rfl rfl (hclean hnb hnd) hbusy (fun s => ?_)
        (fun _ _ => rfl) h.disk h.writes hok (fun j hj _ => hn j hj) fun _ _ _ => hp
      split_ifs with hse
      · simp [hse, hnd]
      · rfl

/-- The operations on a locked buffer, which panic as on the store for one that is not locked. -/
theorem Represents.access {α : Type} {p : Nat → Outcome Panic BufCache α}
    {o : Outcome Panic Store α} {e : Panic}
    (hp : sector ∈ b.busy → ∀ i < nBuf, (c.buf i).sector = some sector → (c.buf i).busy = true →
      (c.buf i).valid = true → (p i).Refines Represents (· = .unsaved) o) :
    Outcome.Refines Represents (· = .unsaved)
      (match c.find sector with
      | some i => if (c.buf i).busy then p i else .panic e c
      | none => .panic e c) (if sector ∈ b.busy then o else .panic e b) := by
  split_ifs with hb
  · obtain ⟨i, hi, hs, hbi⟩ := (h.busy sector).1 hb
    rw [h.find_eq_some.2 ⟨hi, hs⟩]
    simp only [hbi, if_true]
    exact hp hb i hi hs hbi (h.held i hi (.inl hbi)).1
  · refine .inr ⟨c, ?_, h⟩
    cases hf : c.find sector with
    | none => rfl
    | some i =>
      obtain ⟨hi, hs⟩ := h.find_eq_some.1 hf
      simp [mt (h.mem_busy hi hs).2 hb]

/-- Access to the contents. -/
theorem Represents.bget :
    (BufCache.bget sector c).Refines Represents (· = .unsaved) (b.bget sector) :=
  h.access fun _ i hi hs _ hv => ⟨c, by rw [h.data i hi sector hs hv], h⟩

/-- Assignment to the contents. -/
theorem Represents.bset (data : Block) :
    (BufCache.bset sector data c).Refines Represents (· = .unsaved) (b.bset sector data) := by
  refine h.access fun hb i hi hs hbi hv => ⟨_, rfl, h.update_same hi rfl h.nodup h.mem hs hv
    (by simp) (fun s => ?_) (fun s => ?_) (fun s hne => by simp [hne]) h.disk
    h.writes ⟨fun s hd hm => ?_, fun s hm => ?_⟩ hs⟩
  · split_ifs with hse
    · simp [hse, hb, hbi]
    · rfl
  · split_ifs with hse
    · rw [hse]; exact h.mem_dirty hi hs
    · rfl
  · simp only [Finset.mem_insert, not_or] at hm
    simp only [update_of_ne hm.1]
    exact h.ok.clean s hd hm.2
  · rcases Finset.mem_insert.1 hm with rfl | hm
    · exact hb
    · exact h.ok.locked hm

/-- `bufcache_write`. -/
theorem Represents.bwrite :
    (BufCache.bwrite sector c).Refines Represents (· = .unsaved) (b.bwrite sector) := by
  refine h.access fun hb i hi hs hbi hv => ?_
  have hdata := h.data i hi sector hs hv
  have hrw : (c.setBuf i { c.buf i with dirty := true }).ideRw i =
      .ok () { c.setBuf i { c.buf i with valid := true, dirty := false } with
        disk := Function.update c.disk sector (c.buf i).data
        writes := c.writes ++ [(sector, (c.buf i).data)] } := by
    simp [ideRw, setBuf, hbi, hs]
  rw [hrw]
  refine ⟨_, rfl, h.update_same hi rfl h.nodup h.mem hs rfl hdata (fun s => ?_) (fun s => ?_)
    (fun _ _ => rfl) (by rw [h.disk, hdata]) (by rw [h.writes, hdata])
    ⟨fun s hd hm => ?_, fun s hm => h.ok.locked (Finset.mem_of_mem_erase hm)⟩ hs⟩
  · split_ifs with hse
    · simp [hse, hb, hbi]
    · rfl
  · split_ifs with hse
    · simp [hse]
    · simp [hse]
  · rcases eq_or_ne s sector with rfl | hne
    · simp
    · simp only [Finset.mem_erase, not_and] at hd hm
      simp only [update_of_ne hne]
      exact h.ok.clean s (hd hne) (hm hne)

/-- `bufcache_release`. -/
theorem Represents.brelse :
    (BufCache.brelse sector c).Refines Represents (· = .unsaved) (b.brelse sector) := by
  refine h.access fun hb i hi hs _ hv => ?_
  split_ifs with hm
  · exact .inl rfl
  refine ⟨_, rfl, h.update_same hi rfl ?_ (fun j => ?_) hs hv (h.data i hi sector hs hv)
    (fun s => ?_) (fun s => ?_) (fun _ _ => rfl) h.disk h.writes
    ⟨h.ok.clean, fun s hs' => Finset.mem_erase.2 ⟨fun he => hm (he ▸ hs'), h.ok.locked hs'⟩⟩ hs⟩
  · exact List.nodup_cons.2 ⟨fun hmem => (List.Nodup.mem_erase_iff h.nodup).1 hmem |>.1 rfl,
      h.nodup.erase i⟩
  · rw [List.mem_cons, List.Nodup.mem_erase_iff h.nodup, h.mem]
    constructor
    · rintro (rfl | ⟨-, hj⟩)
      · exact hi
      · exact hj
    · intro hj
      rcases eq_or_ne j i with rfl | hne
      · exact .inl rfl
      · exact .inr ⟨hne, hj⟩
  · split_ifs with hse
    · simp [hse]
    · simp [hse]
  · split_ifs with hse
    · rw [hse]; exact h.mem_dirty hi hs
    · rfl

/-- Setting `B_DIRTY`. -/
theorem Represents.bdirty :
    (BufCache.bdirty sector c).Refines Represents (· = .unsaved) (b.bdirty sector) := by
  refine h.access fun hb i hi hs hbi hv => ⟨_, rfl, h.update_same hi rfl h.nodup h.mem hs hv
    (h.data i hi sector hs hv) (fun s => ?_) (fun s => ?_) (fun _ _ => rfl) h.disk h.writes
    ⟨fun s hd hm => ?_, fun s hm => h.ok.locked (Finset.mem_of_mem_erase hm)⟩ hs⟩
  · split_ifs with hse
    · simp [hse, hb, hbi]
    · rfl
  · split_ifs with hse
    · simp [hse]
    · simp [hse]
  · simp only [Finset.mem_insert, not_or] at hd
    simp only [Finset.mem_erase, not_and] at hm
    exact h.ok.clean s hd.2 (hm hd.1)

end

end

end BufCache

/-! ## Programs over the cache -/

/-- The same state over another layer of buffers. -/
def FsState.withBufs {B B' : Type} (s : FsState B) (bufs : B') : FsState B' :=
  { bufs, log := s.log, inode := s.inode, file := s.file, openfiles := s.openfiles, cwd := s.cwd }

theorem FsState.fileAlloc_withBufs {B B' : Type} (s : FsState B) (bufs : B') :
    (s.withBufs bufs).fileAlloc = (s.fileAlloc.1.withBufs bufs, s.fileAlloc.2) := by
  unfold fileAlloc withBufs
  cases (List.range nFile).find? fun f => (s.file f).ref = 0 <;> rfl

theorem FsState.fileAlloc_bufs {B : Type} (s : FsState B) : s.fileAlloc.1.bufs = s.bufs := by
  unfold fileAlloc
  cases (List.range nFile).find? fun f => (s.file f).ref = 0 <;> rfl

/-- A state over the buffer cache represents one over the store. -/
def FsState.Represents (c : FsState BufCache) (s : FsState Store) : Prop :=
  c = s.withBufs c.bufs ∧ c.bufs.Represents s.bufs

/-- A buffer operation, inside the whole state. -/
theorem FsState.Represents.lift {α : Type} (h : c.Represents s) {o : Outcome Panic BufCache α}
    {o' : Outcome Panic Store α} (ho : o.Refines BufCache.Represents (· = .unsaved) o') :
    (o.mapState fun b => { c with bufs := b }).Refines FsState.Represents (· = .unsaved)
      (o'.mapState fun b => { s with bufs := b }) := by
  have hrep : ∀ {d : BufCache} {b : Store}, d.Represents b →
      FsState.Represents { c with bufs := d } { s with bufs := b } := fun hd => by
    refine ⟨?_, hd⟩
    rw [h.1]
    rfl
  cases o' with
  | ok a b =>
    obtain ⟨d, rfl, hd⟩ := ho
    exact ⟨_, rfl, hrep hd⟩
  | panic e b =>
    rcases ho with he | ⟨d, rfl, hd⟩
    · exact .inl he
    · exact .inr ⟨_, rfl, hrep hd⟩
  | blocked b =>
    obtain ⟨d, rfl, hd⟩ := ho
    exact ⟨_, rfl, hrep hd⟩

/-- Each operation of the file system code does over the cache what it does over the store. -/
theorem FsState.Represents.handler (h : c.Represents s) (pid : Nat) (o : FsOp) :
    (fsHandler BufCache.layer pid o c).Refines FsState.Represents (· = .unsaved)
      (fsHandler Store.layer pid o s) := by
  obtain ⟨d, rfl⟩ : ∃ d, c = s.withBufs d := ⟨_, h.1⟩
  have hb : d.Represents s.bufs := h.2
  cases o with
  | bread sector => exact h.lift hb.bread
  | bget sector => exact h.lift hb.bget
  | bset sector data => exact h.lift (hb.bset data)
  | bwrite sector => exact h.lift hb.bwrite
  | brelse sector => exact h.lift hb.brelse
  | bdirty sector => exact h.lift hb.bdirty
  | halt e => exact .inr ⟨_, rfl, rfl, hb⟩
  | logAcquire => exact .ite (fun _ => ⟨_, rfl, rfl, hb⟩) fun _ => ⟨_, rfl, rfl, hb⟩
  | logCheck =>
    exact .ite (fun _ => .inr ⟨_, rfl, rfl, hb⟩) fun _ =>
      .ite (fun _ => .inr ⟨_, rfl, rfl, hb⟩) fun _ => ⟨_, rfl, rfl, hb⟩
  | inodeGet dev inum =>
    simp only [fsHandler, withBufs]
    cases s.inode.inodeGet dev inum with
    | some r => exact ⟨_, rfl, rfl, hb⟩
    | none => exact .inr ⟨_, rfl, rfl, hb⟩
  | inodeAcquire ip =>
    exact .ite (fun _ => .inr ⟨_, rfl, rfl, hb⟩) fun _ =>
      .ite (fun _ => ⟨_, rfl, rfl, hb⟩) fun _ => ⟨_, rfl, rfl, hb⟩
  | inodeUnlock ip => exact .ite (fun _ => .inr ⟨_, rfl, rfl, hb⟩) fun _ => ⟨_, rfl, rfl, hb⟩
  | inodePutTest ip =>
    exact .ite (fun _ => .ite (fun _ => .inr ⟨_, rfl, rfl, hb⟩) fun _ => ⟨_, rfl, rfl, hb⟩)
      fun _ => ⟨_, rfl, rfl, hb⟩
  | fileAlloc =>
    refine ⟨s.fileAlloc.1.withBufs d, ?_, rfl, ?_⟩
    · simp only [fsHandler, fileAlloc_withBufs]
    · rw [fileAlloc_bufs]
      exact hb
  | fileDrop f =>
    exact .ite (fun _ => .inr ⟨_, rfl, rfl, hb⟩) fun _ =>
      .ite (fun _ => ⟨_, rfl, rfl, hb⟩) fun _ => ⟨_, rfl, rfl, hb⟩
  | _ => exact ⟨_, rfl, rfl, hb⟩

/-- The buffer cache implements the store: a program ends over the cache as it does over the
store. -/
theorem FsState.Represents.run {α : Type} (h : c.Represents s) (pid : Nat) (p : Fs α) :
    ((fsHandler BufCache.layer pid).run p c).Refines FsState.Represents (· = .unsaved)
      ((fsHandler Store.layer pid).run p s) :=
  Handler.run_refines (fun o _ _ hR => FsState.Represents.handler hR pid o) h

/-- The memory when the first process starts, after the boot on a disk: `log_init` has run.
Reference: `proc_start_user` (`kern/proc/PProc/PProc.c:17`). -/
def FsState.bootFrom (d : Disk) : FsState BufCache :=
  ((fsHandler BufCache.layer 0).run logInit (.booted (.init d))).state

end MCertikos
