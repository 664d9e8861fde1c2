import MCertikos.Fs.SharedCache

/-!
# Coherence of the buffer cache

In every state that the threads, the cache and the disk reach, whatever the interleaving, the list
of the buffers is intact, each locked buffer has one holder, no sector is in two buffers, and a
buffer that is read has what was last stored for its sector (`cache_coherent`).

The invariant `Coherent` has five parts, each about few fields of the state: the list (`Listed`),
the sectors of the buffers (`Keyed`), the holders (`Holders`), the contents (`Contents`) and the
points the threads are at (`Working`). A buffer that is not the first one in the list for its
sector has never been used (`Blank`): those are the buffers with `dev` -1 that `bufcache_init`
leaves.
-/

namespace MCertikos

open LinkedRing Transition Function

/-- A buffer that was never used. -/
def DiskBuf.Blank (v : DiskBuf) : Prop :=
  v.key = (noDev, 0) ∧ v.busy = false ∧ v.valid = false ∧ v.dirty = false

namespace Pc

/-- The buffer that the thread has got and not read yet. -/
def fetching : Pc → Option Nat
  | .got _ _ _ b | .reading _ _ _ b => some b
  | _ => none

/-- The buffer whose transfer the thread waits for. -/
def waits : Pc → Option Nat
  | .reading _ _ _ b | .writing _ b => some b
  | _ => none

/-- The sector and the buffer of a call of `bufcache_read`. -/
def reads : Pc → Option ((Nat × Nat) × Nat)
  | .got _ dev sector b | .reading _ dev sector b | .read _ dev sector b => some ((dev, sector), b)
  | _ => none

end Pc

/-- The buffer of a call of `log_write`. -/
def Caller.uses : Caller → List Nat
  | .client => []
  | .logWrite b _ => [b]

/-- The buffers of the calls a thread is in. -/
def Pc.uses : Pc → List Nat
  | .idle => []
  | .get c _ _ => c.uses
  | .got c _ _ b | .reading c _ _ b | .read c _ _ b | .writing c b => b :: c.uses
  | .logged b _ => [b]

/-- The list goes through all buffers. -/
structure Listed (k : Links Nat) (l : List Nat) : Prop where
  ring : Represents k nBuf l
  perm : l.Perm (List.range nBuf)

/-- The buffer is the first one in the list for its sector. -/
abbrev First (buf : Nat → DiskBuf) (l : List Nat) (b : Nat) : Prop :=
  (l.find? fun i => decide ((buf i).key = (buf b).key)) = some b

/-- Every buffer in the list is the first one for its sector or has never been used. -/
def Keyed (buf : Nat → DiskBuf) (l : List Nat) : Prop :=
  ∀ b ∈ l, (l.find? fun i => decide ((buf i).key = (buf b).key)) = some b ∨ (buf b).Blank

/-- Each locked buffer has one holder, and nothing else is held. -/
structure Holders (s : Cache) : Prop where
  busy : ∀ b < nBuf, (s.buf b).busy = true → ∃ t, b ∈ s.held t
  locked : ∀ t, ∀ b ∈ s.held t, b < nBuf ∧ (s.buf b).busy = true
  once : ∀ t u b, b ∈ s.held t → b ∈ s.held u → t = u

/-- A valid buffer has what was last stored for its sector, and so has the disk unless some buffer
for the sector is dirty or was modified. -/
structure Contents (s : Cache) : Prop where
  dirty : ∀ b < nBuf, (s.buf b).dirty = true → (s.buf b).valid = true
  modified : ∀ b < nBuf, s.modified b = true → (s.buf b).busy = true ∧ (s.buf b).valid = true
  data : ∀ b < nBuf, (s.buf b).valid = true → (s.buf b).data = s.stored (s.buf b).key
  disk : ∀ k, (∀ b < nBuf, (s.buf b).key = k → (s.buf b).dirty = false ∧ s.modified b = false) →
    s.disk k = s.stored k

/-- What holds of the threads inside of calls and of the requests to the disk. -/
structure Working (s : Cache) : Prop where
  nodup : ∀ t, (s.pc t).uses.Nodup
  uses : ∀ t, ∀ b ∈ (s.pc t).uses, b ∈ s.held t
  fetched : ∀ t, ∀ b ∈ s.held t, (s.pc t).fetching ≠ some b → (s.buf b).valid = true
  reads : ∀ t k b, (s.pc t).reads = some (k, b) → (s.buf b).key = k
  still : ∀ t b, (s.pc t).waits = some b → s.modified b = false
  queue : s.idequeue.Nodup
  queued : ∀ b ∈ s.idequeue, (∃ t, (s.pc t).waits = some b) ∧ ¬ (s.buf b).Synced

/-- The invariant of the cache, apart from the threads. -/
structure Coherent (s : Cache) (l : List Nat) : Prop where
  listed : Listed s.links l
  keyed : Keyed s.buf l
  holders : Holders s
  contents : Contents s

section
variable {s s' s₁ : Cache} {l : List Nat} {t b i : Nat} {k : Nat × Nat} {v : DiskBuf} {p : Pc}

theorem Pc.waits_mem_uses (h : p.waits = some b) : b ∈ p.uses := by
  cases p <;> cases h <;> exact .head _

theorem Pc.reads_mem_uses (h : p.reads = some (k, b)) : b ∈ p.uses := by
  cases p <;> cases h <;> exact .head _

/-! ## The list and the sectors -/

theorem Listed.mem (h : Listed s.links l) : b ∈ l ↔ b < nBuf := by
  rw [h.perm.mem_iff, List.mem_range]

theorem Listed.length (h : Listed s.links l) : l.length < nBuf + 1 := by
  rw [h.perm.length_eq, List.length_range]
  exact Nat.lt_succ_self _

theorem Listed.find_eq (h : Listed s.links l) (dev sector : Nat) :
    s.find dev sector = some (l.find? fun i => decide ((s.buf i).key = (dev, sector))) :=
  h.ring.scan_next h.length

theorem Listed.victim_eq (h : Listed s.links l) :
    s.victim = some (l.reverse.find? fun i => !(s.buf i).busy && !(s.buf i).dirty) :=
  h.ring.scan_prev h.length

theorem Listed.toFront {links : Links Nat} (h : Listed links l) (hb : b ∈ l) :
    Listed ((links.unlink b).pushFront nBuf b) (b :: l.erase b) :=
  ⟨h.ring.toFront hb, (List.perm_cons_erase hb).symm.trans h.perm⟩

/-- The list that `bufcache_init` builds, after some buffers. -/
theorem represents_bufcacheInit (k : Links Nat) (n : Nat) (hn : n ≤ nBuf) :
    Represents ((List.range n).foldl (fun k b => k.pushFront nBuf b)
      ((k.setPrev nBuf nBuf).setNext nBuf nBuf)) nBuf (List.range n).reverse := by
  induction n with
  | zero =>
    rw [List.range_zero, List.foldl_nil, List.reverse_nil]
    exact .empty (by simp [Links.setNext]) (by simp [Links.setNext, Links.setPrev])
  | succ n ih =>
    rw [List.range_succ, List.foldl_append, List.reverse_append]
    refine (ih (Nat.le_of_succ_le hn)).pushFront fun hm => ?_
    rcases List.mem_cons.1 hm with he | hm
    · omega
    · simp at hm

theorem listed_bufcacheInit (k : Links Nat) : Listed (bufcacheInit k) (List.range nBuf).reverse :=
  ⟨represents_bufcacheInit k nBuf le_rfl, List.reverse_perm _⟩

/-- A search whose test holds for fewer elements, among them the first one found. -/
theorem find?_of_imp {q q' : Nat → Bool} (h : l.find? q = some b)
    (himp : ∀ i, q' i = true → q i = true) (hb : q' b = true) : l.find? q' = some b := by
  obtain ⟨-, l₁, l₂, rfl, hl₁⟩ := List.find?_eq_some_iff_append.1 h
  refine List.find?_eq_some_iff_append.2 ⟨hb, l₁, l₂, rfl, fun i hi => ?_⟩
  have hq := hl₁ i hi
  grind

theorem find?_erase {q : Nat → Bool} (hb : q b = false) : (l.erase b).find? q = l.find? q := by
  induction l with
  | nil => rfl
  | cons i l ih =>
    rcases eq_or_ne i b with rfl | hi
    · rw [List.erase_cons_head, List.find?_cons, hb]
    · rw [List.erase_cons_tail (by simpa using hi), List.find?_cons, List.find?_cons, ih]

/-- A buffer in use is the first one for its sector. -/
theorem Keyed.first (h : Keyed s.buf l) (hb : b ∈ l) (hbusy : (s.buf b).busy = true) :
    First s.buf l b :=
  (h b hb).resolve_right fun hv => Bool.false_ne_true (hv.2.1.symm.trans hbusy)

/-- The other buffers for the sector of a first one were never used. -/
theorem Keyed.sole (h : Keyed s.buf l) (hf : First s.buf l b) (hi : i ∈ l) (hne : i ≠ b)
    (hkey : (s.buf i).key = (s.buf b).key) : (s.buf i).Blank := by
  refine (h i hi).resolve_left fun hf' => hne ?_
  rw [hkey, hf] at hf'
  exact (Option.some.inj hf').symm

/-- The first buffer for its sector changes, and stays with the sector. -/
theorem Keyed.update (h : Keyed s.buf l) (hf : First s.buf l b) (hv : v.key = (s.buf b).key) :
    Keyed (Function.update s.buf b v) l := by
  have hkey : ∀ i, (Function.update s.buf b v i).key = (s.buf i).key := by
    intro i
    rcases eq_or_ne i b with rfl | hib
    · rw [update_self, hv]
    · rw [update_of_ne hib]
  intro i hi
  simp only [hkey]
  rcases eq_or_ne i b with rfl | hib
  · exact .inl hf
  · rw [update_of_ne hib]
    exact h i hi

/-- A buffer is recycled for a sector that is in no buffer. -/
theorem Keyed.recycle (h : Keyed s.buf l) (hk : ∀ i ∈ l, (s.buf i).key ≠ v.key)
    (hb : b ∈ l) : Keyed (Function.update s.buf b v) l := by
  intro i hi
  rcases eq_or_ne i b with rfl | hib
  · left
    rw [update_self]
    cases hf : l.find? fun j => decide ((Function.update s.buf i v j).key = v.key) with
    | none => exact absurd (List.find?_eq_none.1 hf i hb) (by simp)
    | some j =>
      have hj := List.find?_some hf
      rcases eq_or_ne j i with rfl | hji
      · rfl
      · rw [update_of_ne hji, decide_eq_true_eq] at hj
        exact absurd hj (hk j (List.mem_of_find?_eq_some hf))
  · rw [update_of_ne hib]
    refine (h i hi).imp_left fun hf => find?_of_imp hf (fun j hj => ?_) ?_
    · rcases eq_or_ne j b with rfl | hjb
      · rw [update_self, decide_eq_true_eq] at hj
        exact absurd hj.symm (hk i hi)
      · rwa [update_of_ne hjb] at hj
    · rw [update_of_ne hib, decide_eq_true_eq]

/-- The first buffer for its sector is moved to the front. -/
theorem Keyed.toFront (h : Keyed s.buf l) (hb : b ∈ l) (hf : First s.buf l b) :
    Keyed s.buf (b :: l.erase b) := by
  intro i hi
  have hi : i ∈ l := (List.mem_cons.1 hi).elim (fun he => he ▸ hb) List.mem_of_mem_erase
  by_cases hkey : (s.buf b).key = (s.buf i).key
  · rw [List.find?_cons_of_pos (by simpa using hkey)]
    rcases eq_or_ne i b with rfl | hib
    · exact .inl rfl
    · exact .inr (h.sole hf hi hib hkey.symm)
  · rw [List.find?_cons_of_neg (by simpa using hkey), find?_erase (by simpa using hkey)]
    exact h i hi

/-! ## The holders -/

/-- A buffer changes and stays locked or unlocked. -/
theorem Holders.update (h : Holders s) (hbuf : s'.buf = Function.update s.buf b v)
    (hv : v.busy = (s.buf b).busy) (hheld : s'.held = s.held) : Holders s' := by
  have hbusy : ∀ i, (s'.buf i).busy = (s.buf i).busy := by
    intro i
    rcases eq_or_ne i b with rfl | hib
    · rw [hbuf, update_self, hv]
    · rw [hbuf, update_of_ne hib]
  refine ⟨fun i hi => ?_, fun u i hi => ?_, fun u w i => ?_⟩
  · rw [hbusy, hheld]
    exact h.busy i hi
  · rw [hheld] at hi
    rw [hbusy]
    exact h.locked u i hi
  · rw [hheld]
    exact h.once u w i

/-- Nobody holds a buffer that is not locked. -/
theorem Holders.not_held (h : Holders s) (hb : (s.buf b).busy = false) (u : Nat) : b ∉ s.held u :=
  fun hm => Bool.false_ne_true (hb.symm.trans (h.locked u b hm).2)

/-- A thread gets a buffer that is not locked. -/
theorem Holders.take (h : Holders s) (hb : b < nBuf) (hfree : (s.buf b).busy = false)
    (hbuf : s'.buf = Function.update s.buf b v) (hv : v.busy = true)
    (hheld : s'.held = Function.update s.held t (insert b (s.held t))) : Holders s' := by
  have hnot := h.not_held hfree
  have hmem : ∀ u i, i ∈ s'.held u ↔ i ∈ s.held u ∨ u = t ∧ i = b := by
    intro u i
    rw [hheld, update_apply]
    grind
  refine ⟨fun i hi hbusy => ?_, fun u i hi => ?_, fun u w i => ?_⟩
  · rcases eq_or_ne i b with rfl | hib
    · exact ⟨t, (hmem t i).2 (.inr ⟨rfl, rfl⟩)⟩
    · rw [hbuf, update_of_ne hib] at hbusy
      obtain ⟨u, hu⟩ := h.busy i hi hbusy
      exact ⟨u, (hmem u i).2 (.inl hu)⟩
  · rcases (hmem u i).1 hi with hi | ⟨-, rfl⟩
    · rw [hbuf, update_of_ne fun he : i = b => hnot u (he ▸ hi)]
      exact h.locked u i hi
    · rw [hbuf, update_self]
      exact ⟨hb, hv⟩
  · rw [hmem, hmem]
    have := h.once u w i
    grind

/-- A thread gives back a buffer it holds. -/
theorem Holders.release (h : Holders s) (hb : b ∈ s.held t)
    (hbuf : s'.buf = Function.update s.buf b v) (hv : v.busy = false)
    (hheld : s'.held = Function.update s.held t ((s.held t).erase b)) : Holders s' := by
  have hmem : ∀ u i, i ∈ s'.held u ↔ i ∈ s.held u ∧ i ≠ b := by
    intro u i
    rw [hheld, update_apply]
    have := h.once t u b hb
    grind
  refine ⟨fun i hi hbusy => ?_, fun u i hi => ?_, fun u w i hu hw => ?_⟩
  · rcases eq_or_ne i b with rfl | hib
    · rw [hbuf, update_self, hv] at hbusy
      cases hbusy
    · rw [hbuf, update_of_ne hib] at hbusy
      obtain ⟨u, hu⟩ := h.busy i hi hbusy
      exact ⟨u, (hmem u i).2 ⟨hu, hib⟩⟩
  · obtain ⟨hi, hib⟩ := (hmem u i).1 hi
    rw [hbuf, update_of_ne hib]
    exact h.locked u i hi
  · exact h.once u w i ((hmem u i).1 hu).1 ((hmem w i).1 hw).1

/-! ## The contents -/

/-- A buffer changes, together with what was stored and what is on disk for its sector. If it
leaves its sector, it was neither dirty nor modified. -/
theorem Contents.update (h : Contents s) (hb : b < nBuf)
    (hbuf : s'.buf = Function.update s.buf b v)
    (hothers : ∀ i < nBuf, i ≠ b → (s.buf i).key = v.key → (s.buf i).Blank)
    (hmod : ∀ i, i ≠ b → s'.modified i = s.modified i)
    (hstored : ∀ k, k ≠ v.key → s'.stored k = s.stored k)
    (hdisk : ∀ k, k ≠ v.key → s'.disk k = s.disk k)
    (hleave : v.key = (s.buf b).key ∨ (s.buf b).dirty = false ∧ s.modified b = false)
    (hdirty : v.dirty = true → v.valid = true)
    (hmodb : s'.modified b = true → v.busy = true ∧ v.valid = true)
    (hdata : v.valid = true → v.data = s'.stored v.key)
    (hsync : v.dirty = false → s'.modified b = false → s'.disk v.key = s'.stored v.key) :
    Contents s' := by
  have hself : s'.buf b = v := by rw [hbuf, update_self]
  have hother : ∀ i, i ≠ b → s'.buf i = s.buf i := fun i hi => by rw [hbuf, update_of_ne hi]
  refine ⟨fun i hi => ?_, fun i hi => ?_, fun i hi hval => ?_, fun k hk => ?_⟩
  · rcases eq_or_ne i b with rfl | hib
    · rwa [hself]
    · rw [hother i hib]
      exact h.dirty i hi
  · rcases eq_or_ne i b with rfl | hib
    · rwa [hself]
    · rw [hother i hib, hmod i hib]
      exact h.modified i hi
  · rcases eq_or_ne i b with rfl | hib
    · rw [hself] at hval ⊢
      exact hdata hval
    · rw [hother i hib] at hval ⊢
      have hkey : (s.buf i).key ≠ v.key := fun he =>
        Bool.false_ne_true ((hothers i hi hib he).2.2.1.symm.trans hval)
      rw [hstored _ hkey]
      exact h.data i hi hval
  · by_cases hkv : k = v.key
    · subst hkv
      obtain ⟨h1, h2⟩ := hk b hb (by rw [hself])
      rw [hself] at h1
      exact hsync h1 h2
    · rw [hdisk k hkv, hstored k hkv]
      refine h.disk k fun i hi hik => ?_
      rcases eq_or_ne i b with rfl | hib
      · exact hleave.resolve_left fun he => hkv (hik.symm.trans he.symm)
      · have := hk i hi (by rwa [hother i hib])
        rwa [hother i hib, hmod i hib] at this

/-! ## The threads -/

/-- A step of thread `t` leaves what the other threads hold to them. -/
structure Apart (s s' : Cache) (t : Nat) : Prop where
  held : ∀ u, u ≠ t → s'.held u = s.held u
  buf : ∀ u, u ≠ t → ∀ b ∈ s.held u, s'.buf b = s.buf b ∧ s'.modified b = s.modified b
  not_held : ∀ u, u ≠ t → ∀ b ∈ s.held u, b ∉ s'.held t

/-- A step of a thread that changes a buffer which no other thread holds. -/
theorem Holders.apart (h : Holders s) (hb : ∀ u, b ∈ s.held u → u = t)
    (hheld : ∀ u, u ≠ t → s'.held u = s.held u) (hsub : s'.held t ⊆ insert b (s.held t))
    (hbuf : ∀ i, i ≠ b → s'.buf i = s.buf i) (hmod : ∀ i, i ≠ b → s'.modified i = s.modified i) :
    Apart s s' t where
  held := hheld
  buf u hu i hi := by
    have hib : i ≠ b := fun he => hu (hb u (he ▸ hi))
    exact ⟨hbuf i hib, hmod i hib⟩
  not_held u hu i hi hm := by
    rcases Finset.mem_insert.1 (hsub hm) with rfl | hm
    · exact hu (hb u hi)
    · exact hu (h.once u t i hi hm)

/-- A step of a thread that changes no buffer. -/
theorem Holders.apart_refl (h : Holders s) (hheld : s'.held = s.held) (hbuf : s'.buf = s.buf)
    (hmod : s'.modified = s.modified) : Apart s s' t where
  held u _ := by rw [hheld]
  buf u _ i _ := by rw [hbuf, hmod]; exact ⟨rfl, rfl⟩
  not_held u hu i hi hm := hu (h.once u t i hi (by rwa [hheld] at hm))

/-- A thread goes to the point `p`. It was not waiting for the disk any more, and it waits at `p`
for the request that it adds to the queue. -/
theorem Working.move (h : Working s) (ha : Apart s s' t) (hpc : s'.pc = update s.pc t p)
    (hwait : ∀ b ∈ s.idequeue, (s.pc t).waits ≠ some b) (hnd : p.uses.Nodup)
    (huses : ∀ b ∈ p.uses, b ∈ s'.held t)
    (hfetched : ∀ b ∈ s'.held t, p.fetching ≠ some b → (s'.buf b).valid = true)
    (hreads : ∀ k b, p.reads = some (k, b) → (s'.buf b).key = k)
    (hstill : ∀ b, p.waits = some b → s'.modified b = false)
    (hqueue : s'.idequeue = s.idequeue ∨ ∃ b, s'.idequeue = s.idequeue ++ [b] ∧ p.waits = some b ∧
      ¬ (s'.buf b).Synced) : Working s' := by
  have hself : s'.pc t = p := by rw [hpc, update_self]
  have hother : ∀ u, u ≠ t → s'.pc u = s.pc u := fun u hu => by rw [hpc, update_of_ne hu]
  -- the requests in the queue are those of other threads
  have hold : ∀ i ∈ s.idequeue, i ∉ s'.held t ∧ (∃ u, (s'.pc u).waits = some i) ∧
      ¬ (s'.buf i).Synced := by
    intro i hi
    obtain ⟨⟨u, hu⟩, hsync⟩ := h.queued i hi
    have hut : u ≠ t := fun he => hwait i hi (he ▸ hu)
    have hm := h.uses u i (Pc.waits_mem_uses hu)
    rw [(ha.buf u hut i hm).1]
    exact ⟨ha.not_held u hut i hm, ⟨u, by rwa [hother u hut]⟩, hsync⟩
  refine ⟨fun u => ?_, fun u i hi => ?_, fun u i hi hf => ?_, fun u k i hi => ?_,
    fun u i hi => ?_, ?_, fun i hi => ?_⟩
  · rcases eq_or_ne u t with rfl | hut
    · rwa [hself]
    · rw [hother u hut]
      exact h.nodup u
  · rcases eq_or_ne u t with rfl | hut
    · rw [hself] at hi
      exact huses i hi
    · rw [hother u hut] at hi
      rw [ha.held u hut]
      exact h.uses u i hi
  · rcases eq_or_ne u t with rfl | hut
    · rw [hself] at hf
      exact hfetched i hi hf
    · rw [hother u hut] at hf
      rw [ha.held u hut] at hi
      rw [(ha.buf u hut i hi).1]
      exact h.fetched u i hi hf
  · rcases eq_or_ne u t with rfl | hut
    · rw [hself] at hi
      exact hreads k i hi
    · rw [hother u hut] at hi
      rw [(ha.buf u hut i (h.uses u i (Pc.reads_mem_uses hi))).1]
      exact h.reads u k i hi
  · rcases eq_or_ne u t with rfl | hut
    · rw [hself] at hi
      exact hstill i hi
    · rw [hother u hut] at hi
      rw [(ha.buf u hut i (h.uses u i (Pc.waits_mem_uses hi))).2]
      exact h.still u i hi
  · rcases hqueue with he | ⟨b, he, hb, -⟩
    · rw [he]
      exact h.queue
    · rw [he, List.nodup_append]
      refine ⟨h.queue, List.nodup_singleton b, fun i hi j hj hij => ?_⟩
      obtain rfl := List.mem_singleton.1 hj
      exact (hold i hi).1 (hij ▸ huses j (Pc.waits_mem_uses hb))
  · rcases hqueue with he | ⟨b, he, hb, hsync⟩
    · rw [he] at hi
      exact (hold i hi).2
    · rw [he, List.mem_append, List.mem_singleton] at hi
      rcases hi with hi | rfl
      · exact (hold i hi).2
      · exact ⟨⟨t, by rw [hself, hb]⟩, hsync⟩

/-- A thread whose transfer is done is not waited for. -/
theorem Working.synced (h : Working s) (hw : (s.pc t).waits = some b) (hs : (s.buf b).Synced)
    (hi : i ∈ s.idequeue) :
    (s.pc t).waits ≠ some i := by
  rw [hw]
  intro he
  obtain rfl := Option.some.inj he
  exact (h.queued b hi).2 hs

/-! ## What the operations do to the cache -/

section
variable (h : Coherent s l)
include h

theorem Coherent.congr (hbuf : s'.buf = s.buf) (hlinks : s'.links = s.links)
    (hheld : s'.held = s.held) (hmod : s'.modified = s.modified) (hstored : s'.stored = s.stored)
    (hdisk : s'.disk = s.disk) :
    Coherent s' l := by
  obtain ⟨h1, h2, ⟨h3, h4, h5⟩, ⟨h6, h7, h8, h9⟩⟩ := h
  refine ⟨?_, ?_, ⟨?_, ?_, ?_⟩, ⟨?_, ?_, ?_, ?_⟩⟩ <;>
    simpa only [hbuf, hlinks, hheld, hmod, hstored, hdisk]

/-- A buffer changes that is the first one for its sector and stays with it. -/
theorem Coherent.update (hb : b < nBuf) (hf : First s.buf l b)
    (hbuf : s'.buf = Function.update s.buf b v) (hv : v.key = (s.buf b).key)
    (hholders : Holders s') (hlinks : s'.links = s.links)
    (hmod : ∀ i, i ≠ b → s'.modified i = s.modified i)
    (hstored : ∀ k, k ≠ v.key → s'.stored k = s.stored k)
    (hdisk : ∀ k, k ≠ v.key → s'.disk k = s.disk k) (hdirty : v.dirty = true → v.valid = true)
    (hmodb : s'.modified b = true → v.busy = true ∧ v.valid = true)
    (hdata : v.valid = true → v.data = s'.stored v.key)
    (hsync : v.dirty = false → s'.modified b = false → s'.disk v.key = s'.stored v.key) :
    Coherent s' l := by
  refine ⟨by rw [hlinks]; exact h.listed, ?_, hholders, ?_⟩
  · rw [hbuf]
    exact h.keyed.update hf hv
  · refine h.contents.update hb hbuf (fun i hi hib hk => ?_) hmod hstored
      hdisk (.inl hv) hdirty hmodb hdata hsync
    exact h.keyed.sole hf (h.listed.mem.2 hi) hib (hk.trans hv)

/-- The disk has what was stored for a sector whose buffer is neither dirty nor modified. -/
theorem Coherent.disk_eq (hf : First s.buf l b) (hd : (s.buf b).dirty = false)
    (hm : s.modified b = false) :
    s.disk (s.buf b).key = s.stored (s.buf b).key := by
  refine h.contents.disk _ fun i hi hk => ?_
  rcases eq_or_ne i b with rfl | hib
  · exact ⟨hd, hm⟩
  · have hblank := h.keyed.sole hf (h.listed.mem.2 hi) hib hk
    refine ⟨hblank.2.2.2, ?_⟩
    by_contra hmi
    have := (h.contents.modified i hi (by simpa using hmi)).1
    exact Bool.false_ne_true (hblank.2.1.symm.trans this)

theorem Coherent.not_modified (hb : b < nBuf) (hfree : (s.buf b).busy = false) :
    s.modified b = false := by
  by_contra hm
  have := (h.contents.modified b hb (by simpa using hm)).1
  exact Bool.false_ne_true (hfree.symm.trans this)

/-- A held buffer is the first one for its sector. -/
theorem Coherent.first (hb : b ∈ s.held t) : b < nBuf ∧ First s.buf l b := by
  obtain ⟨hlt, hbusy⟩ := h.holders.locked t b hb
  exact ⟨hlt, h.keyed.first (h.listed.mem.2 hlt) hbusy⟩

/-- `bufcache_get` returns a buffer for the sector. A dirty one had the sector before. -/
theorem Coherent.bufcacheGet {dev sector : Nat} (hg : s.bufcacheGet t dev sector = some (b, s')) :
    ∃ v, s' = s.take t b v ∧ b < nBuf ∧ (s.buf b).busy = false ∧ v.key = (dev, sector) ∧
      ((s.buf b).dirty = true → v.key = (s.buf b).key) ∧ Coherent s' l := by
  simp only [Cache.bufcacheGet, h.listed.find_eq, h.listed.victim_eq, Option.bind_eq_bind,
    Option.bind_some] at hg
  cases hf : l.find? fun i => decide ((s.buf i).key = (dev, sector)) with
  | some i =>
    rw [hf] at hg
    simp only [Option.ite_none_left_eq_some, Option.some.injEq, Prod.mk.injEq] at hg
    obtain ⟨hfree, rfl, rfl⟩ := hg
    have hfree : (s.buf i).busy = false := by simpa using hfree
    have hkey : (s.buf i).key = (dev, sector) := by simpa using List.find?_some hf
    have hi : i < nBuf := h.listed.mem.1 (List.mem_of_find?_eq_some hf)
    rw [← hkey] at hf
    refine ⟨_, rfl, hi, hfree, hkey, fun _ => rfl, ?_⟩
    refine h.update hi hf rfl rfl (h.holders.take hi hfree rfl rfl rfl) rfl (fun _ _ => rfl)
      (fun _ _ => rfl) (fun _ _ => rfl) (h.contents.dirty i hi) (fun hm => ?_)
      (h.contents.data i hi) (h.disk_eq hf)
    exact absurd ((h.not_modified hi hfree).symm.trans hm) Bool.false_ne_true
  | none =>
    rw [hf] at hg
    have hnone : ∀ i < nBuf, (s.buf i).key ≠ (dev, sector) := fun i hi => by
      simpa using List.find?_eq_none.1 hf i (h.listed.mem.2 hi)
    cases hv : l.reverse.find? fun i => !(s.buf i).busy && !(s.buf i).dirty with
    | none =>
      rw [hv] at hg
      cases hg
    | some i =>
      rw [hv] at hg
      simp only [Option.some.injEq, Prod.mk.injEq] at hg
      obtain ⟨rfl, rfl⟩ := hg
      have hm : i ∈ l := List.mem_reverse.1 (List.mem_of_find?_eq_some hv)
      have hi : i < nBuf := h.listed.mem.1 hm
      have hp := List.find?_some hv
      simp only [Bool.and_eq_true, Bool.not_eq_true'] at hp
      refine ⟨_, rfl, hi, hp.1, rfl, fun hd => absurd (hp.2.symm.trans hd) Bool.false_ne_true,
        h.listed, ?_, h.holders.take hi hp.1 rfl rfl rfl, ?_⟩
      · exact h.keyed.recycle (fun j hj => hnone j (h.listed.mem.1 hj)) hm
      · refine h.contents.update hi rfl (fun j hj _ hk => absurd hk (hnone j hj)) (fun _ _ => rfl)
          (fun _ _ => rfl) (fun _ _ => rfl) (.inr ⟨hp.2, h.not_modified hi hp.1⟩)
          (fun hd => (nomatch hd)) (fun hmod => ?_) (fun hval => (nomatch hval)) fun _ _ => ?_
        · exact absurd ((h.not_modified hi hp.1).symm.trans hmod) Bool.false_ne_true
        · exact h.contents.disk _ fun j hj hk => absurd hk (hnone j hj)

theorem Coherent.assign (hb : b ∈ s.held t) (hvalid : (s.buf b).valid = true) (data : Block) :
    Coherent (s.assign b data) l := by
  obtain ⟨hlt, hf⟩ := h.first hb
  refine h.update hlt hf rfl rfl (h.holders.update rfl rfl rfl) rfl
    (fun i hi => update_of_ne hi _ _) (fun k hk => update_of_ne hk _ _) (fun _ _ => rfl)
    (fun _ => hvalid) (fun _ => ⟨(h.holders.locked t b hb).2, hvalid⟩)
    (fun _ => by simp [Cache.assign, DiskBuf.key]) fun _ hm => ?_
  simp [Cache.assign] at hm

theorem Coherent.markDirty (hb : b ∈ s.held t) (hvalid : (s.buf b).valid = true) :
    Coherent (s.markDirty b) l := by
  obtain ⟨hlt, hf⟩ := h.first hb
  refine h.update hlt hf rfl rfl (h.holders.update rfl rfl rfl) rfl
    (fun i hi => update_of_ne hi _ _) (fun _ _ => rfl) (fun _ _ => rfl)
    (fun _ => hvalid) (fun hm => ?_) (fun _ => h.contents.data b hlt hvalid) fun hd => nomatch hd
  simp [Cache.markDirty] at hm

theorem Coherent.bufcacheRelease (hb : b ∈ s.held t) (hmod : s.modified b = false)
    (hr : s.bufcacheRelease t b = some s') : Coherent s' (b :: l.erase b) := by
  obtain ⟨hlt, hf⟩ := h.first hb
  have hm := h.listed.mem.2 hlt
  simp only [Cache.bufcacheRelease, Option.ite_none_left_eq_some, Option.some.injEq] at hr
  obtain ⟨-, rfl⟩ := hr
  refine ⟨h.listed.toFront hm, ?_, h.holders.release hb rfl rfl rfl, ?_⟩
  · exact (h.keyed.toFront hm hf).update (List.find?_cons_of_pos (by simp)) rfl
  · exact h.contents.update hlt rfl (fun i hi => h.keyed.sole hf (h.listed.mem.2 hi))
      (fun _ _ => rfl) (fun _ _ => rfl) (fun _ _ => rfl) (.inl rfl) (h.contents.dirty b hlt)
      (fun hm => absurd (hmod.symm.trans hm) Bool.false_ne_true) (h.contents.data b hlt)
      (h.disk_eq hf)

/-- The disk serves a request. -/
theorem Coherent.ideIntr (hw : Working s) : Coherent s.ideIntr l ∧ Working s.ideIntr := by
  cases hq : s.idequeue with
  | nil =>
    rw [Cache.ideIntr, hq]
    exact ⟨h, hw⟩
  | cons b q =>
    obtain ⟨⟨t, hwait⟩, hsync⟩ := hw.queued b (hq ▸ .head _)
    have hmod := hw.still t b hwait
    obtain ⟨hlt, hf⟩ := h.first (hw.uses t b (Pc.waits_mem_uses hwait))
    obtain ⟨hbq, hnd⟩ := List.nodup_cons.1 (hq ▸ hw.queue)
    -- in either direction, the buffer keeps its sector, and becomes valid
    have hwork : ∀ s' : Cache, ∀ v : DiskBuf, s'.buf = Function.update s.buf b v → v.key =
      (s.buf b).key →
        v.valid = true → s'.pc = s.pc → s'.held = s.held → s'.idequeue = q →
        s'.modified = s.modified → Working s' := by
      intro s' v hbuf hkey hvalid hpc hheld hqueue hmods
      have hself : s'.buf b = v := by rw [hbuf, update_self]
      have hother : ∀ i, i ≠ b → s'.buf i = s.buf i := fun i hi => by
        rw [hbuf, update_of_ne hi]
      refine ⟨fun u => ?_, fun u i => ?_, fun u i hi hfe => ?_, fun u k i hi => ?_,
        fun u i => ?_, ?_,
        fun i hi => ?_⟩
      · rw [hpc]
        exact hw.nodup u
      · rw [hpc, hheld]
        exact hw.uses u i
      · rw [hheld] at hi
        rw [hpc] at hfe
        rcases eq_or_ne i b with rfl | hib
        · rwa [hself]
        · rw [hother i hib]
          exact hw.fetched u i hi hfe
      · rw [hpc] at hi
        rw [← hw.reads u k i hi]
        rcases eq_or_ne i b with rfl | hib
        · rw [hself, hkey]
        · rw [hother i hib]
      · rw [hpc, hmods]
        exact hw.still u i
      · rwa [hqueue]
      · rw [hqueue] at hi
        rw [hother i fun he => hbq (he ▸ hi), hpc]
        exact hw.queued i (hq ▸ .tail _ hi)
    cases hd : (s.buf b).dirty with
    | true =>
      have he : s.ideIntr = { s.setBuf b { s.buf b with valid := true, dirty := false } with
          idequeue := q, disk := Function.update s.disk (s.buf b).key (s.buf b).data } := by
        simp [Cache.ideIntr, hq, hd]
      have hdata := h.contents.data b hlt (h.contents.dirty b hlt hd)
      rw [he]
      refine ⟨?_, hwork _ _ rfl rfl rfl rfl rfl rfl rfl⟩
      refine h.update hlt hf rfl rfl (h.holders.update rfl rfl rfl) rfl (fun _ _ => rfl)
        (fun _ _ => rfl) (fun k hk => update_of_ne hk _ _) (fun hd => (nomatch hd))
        (fun hm => absurd (hmod.symm.trans hm) Bool.false_ne_true) (fun _ => hdata) fun _ _ => ?_
      exact (update_self ..).trans hdata
    | false =>
      have he : s.ideIntr = { s.setBuf
        b { s.buf b with data := s.disk (s.buf b).key, valid := true } with
          idequeue := q } := by
        simp [Cache.ideIntr, hq, hd]
      have hdisk := h.disk_eq hf hd hmod
      rw [he]
      refine ⟨?_, hwork _ _ rfl rfl rfl rfl rfl rfl rfl⟩
      exact h.update hlt hf rfl rfl (h.holders.update rfl rfl rfl) rfl (fun _ _ => rfl)
        (fun _ _ => rfl) (fun _ _ => rfl) (fun _ => rfl)
        (fun hm => absurd (hmod.symm.trans hm) Bool.false_ne_true) (fun _ => hdisk)
        fun _ _ => hdisk

end

/-! ## The steps of a thread -/

theorem Cache.ideRw_eq (h : s.ideRw b = some s') :
    s' = { s with idequeue := s.idequeue ++ [b] } ∧ ¬ (s.buf b).Synced := by
  simp only [Cache.ideRw, Option.ite_none_left_eq_some, Option.some.injEq] at h
  obtain ⟨-, hs, -, rfl⟩ := h
  exact ⟨rfl, hs⟩

theorem Cache.bufcacheWrite_eq (h : s.bufcacheWrite b = some s') :
    s' = { s.markDirty b with idequeue := s.idequeue ++ [b] } := by
  simp only [Cache.bufcacheWrite, Option.ite_none_left_eq_some] at h
  exact (Cache.ideRw_eq h.2).1

theorem Cache.setPc_eq_self (h : s.pc t = p) : s.setPc t p = s := by
  rw [Cache.setPc, ← h, update_eq_self]

/-- The invariant, with the list of the buffers. -/
def Cache.Ok (s : Cache) : Prop := ∃ l, Coherent s l ∧ Working s

/-- The invariant holds after a step, which gives no dirty buffer to another sector. -/
def Cache.Next (s s' : Cache) : Prop :=
  s'.Ok ∧ ∀ b, (s.buf b).dirty = true → (s'.buf b).key = (s.buf b).key

theorem Cache.Next.of_update (h : s'.Ok) (hbuf : s'.buf = update s.buf b v)
    (hv : (s.buf b).dirty = true → v.key = (s.buf b).key) : s.Next s' := by
  refine ⟨h, fun i hd => ?_⟩
  rw [hbuf]
  rcases eq_or_ne i b with rfl | hib
  · rw [update_self, hv hd]
  · rw [update_of_ne hib]

/-- A thread goes on without a change to a buffer. -/
theorem Cache.Ok.goto (h : s.Ok) {q : List Nat} (hwait : ∀ b ∈ s.idequeue, (s.pc t).waits ≠ some b)
    (hnd : p.uses.Nodup) (huses : ∀ b ∈ p.uses, b ∈ s.held t)
    (hfetched : ∀ b, (s.pc t).fetching = some b → p.fetching = some b ∨ (s.buf b).valid = true)
    (hreads : ∀ k b, p.reads = some (k, b) → (s.buf b).key = k)
    (hstill : ∀ b, p.waits = some b → s.modified b = false)
    (hqueue : q = s.idequeue ∨ ∃ b, q = s.idequeue ++ [b] ∧ p.waits = some b ∧
      ¬ (s.buf b).Synced) :
    s.Next { s with pc := update s.pc t p, idequeue := q } := by
  obtain ⟨l, h, hw⟩ := h
  refine ⟨⟨l, h.congr rfl rfl rfl rfl rfl rfl, ?_⟩, fun _ _ => rfl⟩
  refine hw.move (h.holders.apart_refl rfl rfl rfl) rfl hwait hnd huses (fun i hi hf => ?_)
    hreads hstill hqueue
  by_cases hfi : (s.pc t).fetching = some i
  · exact (hfetched i hfi).resolve_left hf
  · exact hw.fetched t i hi hfi

/-- A thread goes to a point where it has nothing to read and nothing to wait for. -/
theorem Cache.Ok.leave (h : s.Ok) (hwait : ∀ b ∈ s.idequeue, (s.pc t).waits ≠ some b)
    (hfetching : (s.pc t).fetching = none) (hreads : p.reads = none) (hnot : p.waits = none)
    (hnd : p.uses.Nodup) (huses : ∀ b ∈ p.uses, b ∈ s.held t) : s.Next (s.setPc t p) :=
  h.goto hwait hnd huses (by simp [hfetching]) (by simp [hreads]) (by simp [hnot]) (.inl rfl)

/-- `bufcache_get` returns to `bufcache_read`. -/
theorem Cache.Ok.run_get (h : s.Ok) {c : Caller} {dev sector : Nat}
    (hpc : s.pc t = .get c dev sector) (hg : s.bufcacheGet t dev sector = some (b, s₁)) :
    s.Next (s₁.setPc t (.got c dev sector b)) := by
  obtain ⟨l, h, hw⟩ := h
  obtain ⟨v, rfl, hlt, hfree, hkey, hdirty, hc⟩ := h.bufcacheGet hg
  have hnot := h.holders.not_held hfree
  have huses : ∀ i ∈ c.uses, i ∈ s.held t := fun i hi => hw.uses t i (by rwa [hpc])
  have hself : (s.take t b v).held t = insert b (s.held t) := update_self ..
  have hbuf : ∀ i, i ≠ b → (s.take t b v).buf i = s.buf i := fun i hi => update_of_ne hi _ _
  refine .of_update ⟨l, hc.congr rfl rfl rfl rfl rfl rfl, ?_⟩ rfl hdirty
  refine hw.move (h.holders.apart (b := b) (fun u hu => absurd hu (hnot u))
    (fun u hu => update_of_ne hu _ _) hself.subset hbuf fun _ _ => rfl) rfl
    (by simp [hpc, Pc.waits]) ?_ ?_ ?_ ?_ (fun _ hi => (nomatch hi)) (.inl rfl)
  · refine List.nodup_cons.2 ⟨fun hb => hnot t (huses b hb), ?_⟩
    have := hw.nodup t
    rwa [hpc] at this
  · intro i hi
    rcases List.mem_cons.1 hi with rfl | hi
    · exact hself ▸ Finset.mem_insert_self ..
    · exact hself ▸ Finset.mem_insert_of_mem (huses i hi)
  · intro i hi hf
    have hib : i ≠ b := fun he => hf (congrArg some he.symm)
    have hi : i ∈ s.held t := (Finset.mem_insert.1 (hself ▸ hi)).resolve_left hib
    exact (congrArg DiskBuf.valid (hbuf i hib)).trans
      (hw.fetched t i hi (by simp [hpc, Pc.fetching]))
  · intro k i hi
    obtain ⟨rfl, rfl⟩ := Prod.mk.inj (Option.some.inj hi)
    exact (congrArg DiskBuf.key (update_self ..)).trans hkey

/-- A thread changes a buffer that it holds and that is valid after the change, between two calls
of `bufcache_read`. -/
theorem Working.touch (hw : Working s) (h : Holders s) (hb : b ∈ s.held t)
    (hheld : s'.held = s.held) (hbuf : s'.buf = update s.buf b v) (hvalid : v.valid = true)
    (hmod : ∀ i, i ≠ b → s'.modified i = s.modified i) (hpc : s'.pc = update s.pc t p)
    (hwait : (s.pc t).waits = none) (hfetching : (s.pc t).fetching = none) (hnd : p.uses.Nodup)
    (huses : ∀ i ∈ p.uses, i ∈ s.held t) (hreads : p.reads = none)
    (hqueue : s'.idequeue = s.idequeue ∧ p.waits = none ∨ s'.idequeue = s.idequeue ++ [b] ∧
      p.waits = some b ∧ v.dirty = true ∧ s'.modified b = false) : Working s' := by
  have hself : s'.buf b = v := by rw [hbuf, update_self]
  have hother : ∀ i, i ≠ b → s'.buf i = s.buf i := fun i hi => by rw [hbuf, update_of_ne hi]
  refine hw.move (h.apart (b := b) (fun u hu => h.once u t b hu hb)
    (fun u _ => by rw [hheld]) ?_ hother hmod) hpc (by simp [hwait]) hnd (by rwa [hheld])
    (fun i hi _ => ?_) (by simp [hreads]) (fun i hi => ?_) ?_
  · rw [hheld]
    exact Finset.subset_insert ..
  · rcases eq_or_ne i b with rfl | hib
    · rwa [hself]
    · rw [hheld] at hi
      rw [hother i hib]
      exact hw.fetched t i hi (by simp [hfetching])
  · rcases hqueue with ⟨-, hp⟩ | ⟨-, hp, -, hm⟩
    · rw [hp] at hi
      cases hi
    · rwa [← Option.some.inj (hp.symm.trans hi)]
  · refine hqueue.imp (·.1) fun ⟨hq, hwb, hd, _⟩ => ⟨b, hq, hwb, fun hs => ?_⟩
    rw [hself] at hs
    exact Bool.false_ne_true (hs.2.symm.trans hd)

/-- A thread in no call modifies a buffer. -/
theorem Cache.Ok.assign (h : s.Ok) (hfree : s.Free t b) (data : Block) :
    s.Next (s.assign b data) := by
  obtain ⟨l, h, hw⟩ := h
  obtain ⟨hpc, hb⟩ := hfree
  have hvalid := hw.fetched t b hb (by simp [hpc, Pc.fetching])
  refine .of_update ⟨l, h.assign hb hvalid data, ?_⟩ rfl fun _ => rfl
  exact hw.touch h.holders hb rfl rfl hvalid (fun i hi => update_of_ne hi _ _)
    (update_eq_self t s.pc).symm (by rw [hpc]; rfl) (by rw [hpc]; rfl) (hw.nodup t) (hw.uses t)
    (by rw [hpc]; rfl) (.inl ⟨rfl, by rw [hpc]; rfl⟩)

/-- A thread puts a valid buffer in the queue of the disk, in `bufcache_write`. -/
theorem Cache.Ok.bufcacheWrite (h : s.Ok) {c : Caller} (hb : b ∈ s.held t)
    (hwait : (s.pc t).waits = none) (hfetching : (s.pc t).fetching = none)
    (hnd : (b :: c.uses).Nodup) (huses : ∀ i ∈ c.uses, i ∈ s.held t)
    (hs : s.bufcacheWrite b = some s₁) : s.Next (s₁.setPc t (.writing c b)) := by
  obtain ⟨l, h, hw⟩ := h
  have hvalid := hw.fetched t b hb (by simp [hfetching])
  obtain rfl := Cache.bufcacheWrite_eq hs
  refine .of_update ⟨l, (h.markDirty hb hvalid).congr rfl rfl rfl rfl rfl rfl, ?_⟩ rfl fun _ => rfl
  refine hw.touch h.holders hb rfl rfl hvalid (fun i hi => update_of_ne hi _ _) rfl hwait
    hfetching hnd ?_ rfl (.inr ⟨rfl, rfl, rfl, update_self ..⟩)
  intro i hi
  rcases List.mem_cons.1 hi with rfl | hi
  · exact hb
  · exact huses i hi

/-- `log_write` copies the buffer to the slot of the log and calls `bufcache_write`. -/
theorem Cache.Ok.run_read (h : s.Ok) {dev sector lbuf : Nat}
    (hpc : s.pc t = .read (.logWrite b i) dev sector lbuf)
    (hs : (s.assign lbuf (s.buf b).data).bufcacheWrite lbuf = some s₁) :
    s.Next (s₁.setPc t (.writing (.logWrite b i) lbuf)) := by
  obtain ⟨l, h, hw⟩ := h
  have huses : ∀ j ∈ [lbuf, b], j ∈ s.held t := fun j hj => hw.uses t j (by rwa [hpc])
  have hnd : [lbuf, b].Nodup := by
    have := hw.nodup t
    rwa [hpc] at this
  have hb := huses lbuf (.head _)
  have hvalid := hw.fetched t lbuf hb (by simp [hpc, Pc.fetching])
  obtain rfl := Cache.bufcacheWrite_eq hs
  have hc := (h.assign hb hvalid (s.buf b).data).markDirty
    hb (by simpa [Cache.assign, Cache.setBuf])
  have hbuf : ((s.assign lbuf (s.buf b).data).markDirty lbuf).buf =
      update s.buf lbuf { s.buf lbuf with data := (s.buf b).data, dirty := true } := by
    simp [Cache.markDirty, Cache.assign, Cache.setBuf]
  refine .of_update ⟨l, hc.congr rfl rfl rfl rfl rfl rfl, ?_⟩ hbuf fun _ => rfl
  refine hw.touch h.holders hb rfl hbuf hvalid (fun j hj => ?_) rfl (by rw [hpc]; rfl)
    (by rw [hpc]; rfl) hnd huses rfl (.inr ⟨rfl, rfl, rfl, update_self ..⟩)
  exact (update_of_ne hj _ _).trans (update_of_ne hj _ _)

/-- A thread gives a buffer back that it has not modified. -/
theorem Cache.Ok.bufcacheRelease (h : s.Ok) (hb : b ∈ s.held t) (hmod : s.modified b = false)
    (hwait : ∀ i ∈ s.idequeue, (s.pc t).waits ≠ some i) (hfetching : (s.pc t).fetching = none)
    (hnd : p.uses.Nodup) (huses : ∀ i ∈ p.uses, i ≠ b ∧ i ∈ s.held t) (hreads : p.reads = none)
    (hnot : p.waits = none) (hs : s.bufcacheRelease t b = some s₁) : s.Next (s₁.setPc t p) := by
  obtain ⟨l, h, hw⟩ := h
  have hc := h.bufcacheRelease hb hmod hs
  simp only [Cache.bufcacheRelease, Option.ite_none_left_eq_some, Option.some.injEq] at hs
  obtain ⟨-, rfl⟩ := hs
  refine .of_update ⟨_, hc.congr rfl rfl rfl rfl rfl rfl, ?_⟩ rfl fun _ => rfl
  have hother : ∀ i, i ≠ b → update s.buf b { s.buf b with busy := false } i = s.buf i :=
    fun i hi => update_of_ne hi _ _
  have hmem : ∀ i, i ∈ update s.held t ((s.held t).erase b) t ↔ i ≠ b ∧ i ∈ s.held t := by
    simp
  refine hw.move (h.holders.apart (b := b) (fun u hu => h.holders.once u t b hu hb)
    (fun u hu => update_of_ne hu _ _) ?_ hother fun _ _ => rfl) rfl hwait hnd (fun i hi => ?_)
    (fun i hi _ => ?_) (by simp [hreads]) (by simp [hnot]) (.inl rfl)
  · exact fun i hi => Finset.mem_insert_of_mem ((hmem i).1 hi).2
  · exact (hmem i).2 (huses i hi)
  · obtain ⟨hib, hi⟩ := (hmem i).1 hi
    exact (congrArg DiskBuf.valid (hother i hib)).trans (hw.fetched t i hi (by simp [hfetching]))

/-- The end of `log_write`. -/
theorem Cache.Ok.run_logged (h : s.Ok) (hpc : s.pc t = .logged b i) :
    s.Next (((s.logAppend i).markDirty b).setPc t .idle) := by
  obtain ⟨l, h, hw⟩ := h
  have hb : b ∈ s.held t := hw.uses t b (by rw [hpc]; exact .head _)
  have hvalid := hw.fetched t b hb (by simp [hpc, Pc.fetching])
  have hsame : s.logAppend i = { s with log := (s.logAppend i).log } := by
    rw [Cache.logAppend]
    split <;> rfl
  rw [hsame]
  refine .of_update ⟨l, (h.markDirty hb hvalid).congr rfl rfl rfl rfl rfl rfl, ?_⟩ rfl fun _ => rfl
  exact hw.touch h.holders hb rfl rfl hvalid (fun i hi => update_of_ne hi _ _) rfl
    (by rw [hpc]; rfl) (by rw [hpc]; rfl) List.nodup_nil (fun _ hi => (nomatch hi)) rfl
    (.inl ⟨rfl, rfl⟩)

/-- A thread goes on in its call. -/
theorem Cache.Ok.run (h : s.Ok) (hs : s.run t = some s') : s.Next s' := by
  obtain ⟨l, hc, hw⟩ := id h
  unfold Cache.run at hs
  have hnd := hw.nodup t
  have huses := hw.uses t
  have hreads := hw.reads t
  cases hpc : s.pc t with
  | idle => simp [hpc] at hs
  | get c dev sector =>
    simp only [hpc, Option.bind_eq_bind, Option.bind_eq_some_iff, Option.pure_def,
      Option.some.injEq] at hs
    obtain ⟨⟨b, s₁⟩, hg, rfl⟩ := hs
    exact h.run_get hpc hg
  | got c dev sector b =>
    rw [hpc] at hnd huses hreads
    simp only [hpc] at hs
    split at hs
    · next hv =>
      cases hs
      exact h.goto (by simp [hpc, Pc.waits]) hnd huses
        (fun i hi => .inr (by rw [hpc] at hi; cases hi; exact hv))
        hreads (fun _ hi => (nomatch hi)) (.inl rfl)
    · next hv =>
      simp only [Option.bind_eq_bind, Option.bind_eq_some_iff, Option.pure_def,
        Option.some.injEq] at hs
      obtain ⟨s₁, hr, rfl⟩ := hs
      obtain ⟨rfl, hsync⟩ := Cache.ideRw_eq hr
      refine h.goto (by simp [hpc, Pc.waits]) hnd huses
        (fun i hi => .inl (by rwa [hpc] at hi)) hreads (fun i hi => ?_) (.inr ⟨b, rfl, rfl, hsync⟩)
      obtain rfl := Option.some.inj hi
      have hb := (hc.holders.locked t b (huses b (.head _))).1
      by_contra hm
      exact hv (hc.contents.modified b hb (by simpa using hm)).2
  | reading c dev sector b =>
    rw [hpc] at hnd huses hreads
    simp only [hpc, Option.ite_none_right_eq_some, Option.some.injEq] at hs
    obtain ⟨hsync, rfl⟩ := hs
    exact h.goto (fun _ => hw.synced (by rw [hpc]; rfl) hsync) hnd huses
      (fun i hi => .inr (by rw [hpc] at hi; cases hi; exact hsync.1))
      hreads (fun _ hi => (nomatch hi)) (.inl rfl)
  | read c dev sector b =>
    cases c with
    | client =>
      simp only [hpc, Option.some.injEq] at hs
      subst hs
      exact h.leave (by simp [hpc, Pc.waits]) (by rw [hpc]; rfl) rfl rfl List.nodup_nil
        fun _ hi => nomatch hi
    | logWrite b' i =>
      simp only [hpc, Option.bind_eq_bind, Option.bind_eq_some_iff, Option.pure_def,
        Option.some.injEq] at hs
      obtain ⟨s₁, hr, rfl⟩ := hs
      exact h.run_read hpc hr
  | writing c b =>
    cases c with
    | client =>
      simp only [hpc, Option.ite_none_right_eq_some, Option.some.injEq] at hs
      obtain ⟨hsync, rfl⟩ := hs
      exact h.leave (fun _ => hw.synced (by rw [hpc]; rfl) hsync) (by rw [hpc]; rfl)
        rfl rfl List.nodup_nil fun _ hi => nomatch hi
    | logWrite b' i =>
      simp only [hpc, Option.ite_none_right_eq_some, Option.bind_eq_bind, Option.bind_eq_some_iff,
        Option.pure_def, Option.some.injEq] at hs
      obtain ⟨hsync, s₁, hr, rfl⟩ := hs
      have hwait : (s.pc t).waits = some b := by
        rw [hpc]
        rfl
      rw [hpc] at hnd huses
      refine h.bufcacheRelease (p := .logged b' i) (huses b (.head _)) (hw.still t b hwait)
        (fun _ => hw.synced hwait hsync) (by rw [hpc]; rfl) (List.nodup_singleton b')
        (fun j hj => ?_) rfl rfl hr
      obtain rfl := List.mem_singleton.1 hj
      exact ⟨fun he => (List.nodup_cons.1 hnd).1 (he ▸ .head _), huses j (.tail _ hj)⟩
  | logged b i =>
    simp only [hpc, Option.some.injEq] at hs
    subst hs
    exact h.run_logged hpc

/-! ## Whole runs -/

/-- The cache is coherent after `bufcache_init`. -/
theorem cacheMachine_init (h : cacheMachine.Init s) : s.Ok := by
  obtain ⟨⟨k, hlinks⟩, hbuf, hqueue, hthread, hmod, hstored⟩ := h
  have hfalse : ∀ {x : Bool}, x = false → ¬ x = true := by simp
  refine ⟨(List.range nBuf).reverse,
    ⟨?_, fun b _ => .inr (hbuf b), ⟨?_, ?_, ?_⟩, ⟨?_, ?_, ?_, ?_⟩⟩, ?_⟩
  · rw [hlinks]
    exact listed_bufcacheInit k
  · exact fun b _ hb => absurd hb (hfalse (hbuf b).2.1)
  · intro t b hb
    simp [(hthread t).2] at hb
  · intro t u b hb
    simp [(hthread t).2] at hb
  · exact fun b _ hb => absurd hb (hfalse (hbuf b).2.2.2)
  · exact fun b _ hb => absurd hb (hfalse (hmod b))
  · exact fun b _ hb => absurd hb (hfalse (hbuf b).2.2.1)
  · intro k _
    rw [hstored]
  · constructor <;> simp [hthread, hqueue, Pc.uses, Pc.reads, Pc.waits]

/-- A buffer that changes and stays with its sector. -/
theorem Cache.key_setBuf (hv : v.key = (s.buf i).key) :
    ((s.setBuf i v).buf b).key = (s.buf b).key := by
  rcases eq_or_ne b i with rfl | hbi
  · exact (congrArg DiskBuf.key (update_self ..)).trans hv
  · exact congrArg DiskBuf.key (update_of_ne hbi _ _)

/-- One step. -/
theorem Cache.Ok.step (h : s.Ok) {a : CacheAct} (hs : cacheMachine.step s a = some s') :
    s.Next s' := by
  have hsame : ∀ log : Log, { s with log }.Ok := by
    obtain ⟨l, hc, hw⟩ := h
    exact fun log =>
      ⟨l, hc.congr rfl rfl rfl rfl rfl rfl, hw.1, hw.2, hw.3, hw.4, hw.5, hw.6, hw.7⟩
  cases a with
  | read t dev sector =>
    obtain ⟨hpc, rfl⟩ := of_guard hs
    exact h.leave (by simp [hpc, Pc.waits]) (by rw [hpc]; rfl) rfl rfl List.nodup_nil
      fun _ hi => nomatch hi
  | assign t b data =>
    obtain ⟨hfree, rfl⟩ := of_guard hs
    exact h.assign hfree data
  | write t b =>
    simp only [cacheMachine, Option.ite_none_right_eq_some, Option.bind_eq_bind,
      Option.bind_eq_some_iff, Option.pure_def, Option.some.injEq] at hs
    obtain ⟨⟨hpc, hb⟩, s₁, hw, rfl⟩ := hs
    exact h.bufcacheWrite (c := .client) hb (by rw [hpc]; rfl) (by rw [hpc]; rfl)
      (List.nodup_singleton b) (fun _ hi => (nomatch hi)) hw
  | logWrite t b =>
    simp only [cacheMachine, Cache.logWrite, Option.ite_none_right_eq_some,
      Option.ite_none_left_eq_some, Option.some.injEq] at hs
    obtain ⟨⟨hpc, hb⟩, -, -, rfl⟩ := hs
    refine (hsame _).leave (by simp [hpc, Pc.waits]) (by rw [hpc]; rfl)
      rfl rfl (List.nodup_singleton b) fun i hi => ?_
    obtain rfl := List.mem_singleton.1 hi
    exact hb
  | release t b =>
    simp only [cacheMachine, Option.ite_none_right_eq_some] at hs
    obtain ⟨⟨⟨hpc, hb⟩, hmod⟩, hs⟩ := hs
    have hpc' : s'.pc t = .idle := by
      simp only [Cache.bufcacheRelease, Option.ite_none_left_eq_some, Option.some.injEq] at hs
      rw [← hs.2]
      exact hpc
    rw [← Cache.setPc_eq_self hpc']
    exact h.bufcacheRelease (p := .idle) hb hmod (by simp [hpc, Pc.waits]) (by rw [hpc]; rfl)
      List.nodup_nil (fun _ hi => (nomatch hi)) rfl rfl hs
  | run t => exact h.run hs
  | intr =>
    cases hs
    obtain ⟨l, hc, hw⟩ := h
    refine ⟨⟨l, hc.ideIntr hw⟩, fun b _ => ?_⟩
    unfold Cache.ideIntr
    split
    · rfl
    · dsimp only
      split <;> exact Cache.key_setBuf rfl
  | setBusy busy =>
    cases hs
    exact ⟨hsame _, fun _ _ => rfl⟩
  | clearLog =>
    cases hs
    exact ⟨hsame _, fun _ _ => rfl⟩

theorem Cache.Ok.of_reachable (h : cacheMachine.Reachable s) : s.Ok :=
  h.invariant (fun _ => cacheMachine_init) fun _ _ _ h hs => (h.step hs).1

/-- Coherence of the buffer cache. In every state that is reached: no sector of a device is in two
buffers; following `next` from the head visits each buffer once and comes back, and `prev` is its
inverse; a buffer is locked just when it has one holder; no step gives a dirty buffer to another
sector; a valid buffer that is neither locked nor dirty has the contents of its sector on disk; and
`bufcache_read` returns a locked buffer for its sector, with what was last stored for it. -/
theorem cache_coherent (h : cacheMachine.Reachable s) :
    (∀ i < nBuf, ∀ j < nBuf, (s.buf i).dev ≠ noDev → (s.buf i).key = (s.buf j).key → i = j) ∧
    ((List.iterate s.links.next (s.links.next nBuf) nBuf).Perm (List.range nBuf) ∧
      s.links.next^[nBuf + 1] nBuf = nBuf ∧
      ∀ x ≤ nBuf, s.links.prev (s.links.next x) = x ∧ s.links.next (s.links.prev x) = x) ∧
    (∀ b < nBuf, (s.buf b).busy = true ↔ ∃! t, b ∈ s.held t) ∧
    (∀ a s', cacheMachine.step s a = some s' → ∀ b < nBuf, (s.buf b).dirty = true →
      (s'.buf b).dev = (s.buf b).dev ∧ (s'.buf b).sector = (s.buf b).sector) ∧
    (∀ b < nBuf, (s.buf b).valid = true → (s.buf b).busy = false → (s.buf b).dirty = false →
      (s.buf b).data = s.disk ((s.buf b).dev, (s.buf b).sector)) ∧
    (∀ t dev sector b, s.pc t = .read .client dev sector b →
      b < nBuf ∧ b ∈ s.held t ∧ (s.buf b).dev = dev ∧ (s.buf b).sector = sector ∧
        (s.buf b).valid = true ∧ (s.buf b).data = s.stored (dev, sector)) := by
  obtain ⟨l, hc, hw⟩ := Cache.Ok.of_reachable h
  have hlen : l.length = nBuf := by rw [hc.listed.perm.length_eq, List.length_range]
  refine ⟨fun i hi j hj hdev hkey => ?_, ⟨?_, ?_, fun x hx => ?_⟩, fun b hb =>
    ⟨fun hbusy => ?_, ?_⟩, fun a s' hs b _ hd => ?_, fun b hb hv hbusy hd => ?_,
      fun t dev sector b hpc => ?_⟩
  · by_contra hne
    rcases hc.keyed i (hc.listed.mem.2 hi) with hf | hblank
    · have := hc.keyed.sole hf (hc.listed.mem.2 hj) (Ne.symm hne) hkey.symm
      exact hdev (congrArg Prod.fst (hkey.trans this.1))
    · exact hdev (congrArg Prod.fst hblank.1)
  · have := hc.listed.ring.path.iterate_next
    rw [hlen] at this
    rw [this]
    exact hc.listed.perm
  · have := hc.listed.ring.path.next_iterate
    rwa [hlen] at this
  · have hm : x ∈ nBuf :: l := by
      rcases hx.lt_or_eq with hx | rfl
      · exact .tail _ (hc.listed.mem.2 hx)
      · exact .head _
    exact ⟨hc.listed.ring.path.prev_next hm,
      hc.listed.ring.flip.path.prev_next (by simpa using hm)⟩
  · obtain ⟨t, ht⟩ := hc.holders.busy b hb hbusy
    exact ⟨t, ht, fun u hu => hc.holders.once u t b hu ht⟩
  · rintro ⟨t, ht, -⟩
    exact (hc.holders.locked t b ht).2
  · exact Prod.mk.inj (((Cache.Ok.of_reachable h).step hs).2 b hd)
  · have hm := hc.not_modified hb hbusy
    rw [hc.contents.data b hb hv]
    refine (hc.contents.disk _ fun i hi hk => ?_).symm
    rcases eq_or_ne i b with rfl | hib
    · exact ⟨hd, hm⟩
    · have hfi := (hc.keyed b (hc.listed.mem.2 hb)).resolve_right fun hblank =>
        Bool.false_ne_true (hblank.2.2.1.symm.trans hv)
      have hblank := hc.keyed.sole hfi (hc.listed.mem.2 hi) hib hk
      exact ⟨hblank.2.2.2, hc.not_modified hi hblank.2.1⟩
  · have hb : b ∈ s.held t := hw.uses t b (by rw [hpc]; exact .head _)
    have hlt := (hc.holders.locked t b hb).1
    have hkey := hw.reads t (dev, sector) b (by rw [hpc]; rfl)
    have hv := hw.fetched t b hb (by simp [hpc, Pc.fetching])
    obtain ⟨h1, h2⟩ := Prod.mk.inj hkey
    refine ⟨hlt, hb, h1, h2, hv, ?_⟩
    rw [hc.contents.data b hlt hv, hkey]

/-- The cache after boot over a disk of zeros. -/
def bootCache : Cache where
  buf _ := { dev := noDev, sector := 0, busy := false, valid := false, dirty := false, data := 0 }
  links := bufcacheInit ⟨id, id⟩
  idequeue := []
  disk _ := 0
  havedisk1 := true
  log := { start := 900, size := 10, busy := false, n := 0, sector := fun _ => 0 }
  pc _ := .idle
  held _ := ∅
  modified _ := false
  stored _ := 0

/-- Thread 0 stores 9 in sector 7 of disk 1 and logs it, and thread 1 reads the sector. -/
def logAndRead : List CacheAct :=
  [.setBusy true, .read 0 1 7, .read 1 1 7, .run 0, .run 0, .intr, .run 0, .run 0, .assign 0 0 9,
    .logWrite 0 0, .run 0, .run 0, .intr, .run 0, .run 0, .intr, .run 0, .run 0, .release 0 0,
    .run 1, .run 1]

/-- The second thread gets what the first one has stored, which is not on disk yet. -/
theorem cache_coherent_log : ∃ s, cacheMachine.Reachable s ∧ s.pc 1 = .read .client 1 7 0 ∧
    s.disk (1, 7) = 0 ∧ s.disk (1, 901) = 9 ∧ (s.buf 0).data = 9 := by
  have hrun : ((cacheMachine.replay bootCache logAndRead).any fun s => decide
      (s.pc 1 = .read .client 1 7 0 ∧ s.disk (1, 7) = 0 ∧ s.disk (1, 901) = 9 ∧
        s.stored (1, 7) = 9)) =
      true := by
    decide +kernel
  obtain ⟨s, hs, hp⟩ := (Option.any_eq_true _ _).1 hrun
  obtain ⟨hpc, h7, h901, hstored⟩ := of_decide_eq_true hp
  have hinit : cacheMachine.Init bootCache :=
    ⟨⟨_, rfl⟩, fun _ => ⟨rfl, rfl, rfl, rfl⟩, rfl, fun _ => ⟨rfl, rfl⟩, fun _ => rfl, rfl⟩
  have hr := (Machine.Runs.of_replay hs).reachable (.init hinit)
  have hdata := ((cache_coherent hr).2.2.2.2.2 1 1 7 0 hpc).2.2.2.2.2
  exact ⟨s, hr, hpc, h7, h901, hdata.trans hstored⟩

end

end MCertikos
