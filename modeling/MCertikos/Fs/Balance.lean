import MCertikos.Fs.Holding
import MCertikos.Fs.References

/-!
# System calls give back what they take

In every interleaving of file system calls, a thread that has returned from a call has nothing
locked and is in no transaction; and when all threads have returned, nothing is locked at all, and
each reference count is the number of the tables' entries that refer to its object
(`calls_balanced`).
-/

namespace MCertikos

open Program Transition Function

/-! ## History variables -/

/-- The file system with history variables about each thread. -/
structure Booked (B : Type) where
  fs : FsState B
  /-- The inodes on which the thread has set `I_BUSY` and not cleared it. -/
  inodes : Nat → Multiset Nat
  /-- The sectors that it has got from `bufcache_read` and not given to `bufcache_release`. -/
  bufs : Nat → Multiset Nat
  /-- How often it has passed `begin_trans`. -/
  begun : Nat → Nat
  /-- How often it has passed `commit_trans`. -/
  committed : Nat → Nat

/-- The inodes that a thread has locked after an operation. -/
def FsOp.inodesAfter : (o : FsOp) → o.Resp → Multiset Nat → Multiset Nat
  | .inodeAcquire ip, _, m => ip ::ₘ m
  | .inodeUnlock ip, _, m => m.erase ip
  | .inodePutTest ip, true, m => ip ::ₘ m
  | .inodePutDrop ip, _, m => m.erase ip
  | _, _, m => m

/-- The sectors whose buffers a thread has locked after an operation. -/
def FsOp.bufsAfter : FsOp → Multiset Nat → Multiset Nat
  | .bread x, m => x ::ₘ m
  | .brelse x, m => m.erase x
  | _, m => m

/-- How many transactions the operation begins. -/
def FsOp.begins : FsOp → Nat
  | .logAcquire => 1
  | _ => 0

/-- How many transactions the operation ends. -/
def FsOp.commits : FsOp → Nat
  | .logRelease => 1
  | _ => 0

/-- The state after an operation of the thread `pid`. -/
def Booked.note {B : Type} (s : Booked B) (pid : Nat) (o : FsOp) (r : o.Resp) (fs : FsState B) :
    Booked B where
  fs := fs
  inodes := Function.update s.inodes pid (o.inodesAfter r (s.inodes pid))
  bufs := Function.update s.bufs pid (o.bufsAfter (s.bufs pid))
  begun := Function.update s.begun pid (s.begun pid + o.begins)
  committed := Function.update s.committed pid (s.committed pid + o.commits)

/-- What the operations of the thread `pid` do. -/
def bookedHandler {B : Type} (L : BufLayer B) (pid : Nat) :
    Handler fsSig Panic (Booked B) := fun o s =>
  match fsHandler L pid o s.fs with
  | .ok r fs => .ok r (s.note pid o r fs)
  | .panic e fs => .panic e { s with fs }
  | .blocked fs => .blocked { s with fs }

/-- The memory before the first process starts, with a disk. -/
def Booked.boot (d : Disk) : Booked BufCache where
  fs := .booted (.init d)
  inodes _ := 0
  bufs _ := 0
  begun _ := 0
  committed _ := 0

/-- The processes that make file system calls, from the boot of the kernel on a disk, after
`log_init`. -/
def bookedSystem : Machine (Threads fsSig Panic (Booked BufCache) SysRet) (ThreadsAct Syscall) :=
  threads numIds (bookedHandler BufCache.layer) Syscall.code fun s =>
    (∃ d, (bookedHandler BufCache.layer 0).run logInit (.boot d) = .ok () s.shared) ∧
      (∀ pid, ∃ r, s.code pid = .pure r) ∧ s.panic = none

/-- Only `commit_trans` and `begin_trans` change whether the log is busy. -/
theorem fsHandler_busy {L : BufLayer B} {o : FsOp} {s u : FsState B} {r : o.Resp}
    (h : fsHandler L pid o s = .ok r u) (hacq : o ≠ .logAcquire) (hrel : o ≠ .logRelease) :
    u.log.busy = s.log.busy := by
  cases o with
  | logAcquire => exact absurd rfl hacq
  | logRelease => exact absurd rfl hrel
  | logCheck =>
    rw [fsHandler, FsState.logCheck] at h
    split_ifs at h
    cases h
    rfl
  | logGet | logSetArea | logSetSector | logSetN =>
    cases h
    rfl
  | _ => rw [(fsHandler_ok_only h).log (by rintro ⟨⟩)]

/-! ## Buffers -/

namespace BufCache

/-- Each locked buffer is for a sector with `P`, and no two buffers are for one sector. -/
structure HeldBy (c : BufCache) (P : Nat → Prop) : Prop where
  mem : ∀ i, i ∈ c.mru ↔ i < nBuf
  unique : ∀ i < nBuf, ∀ j < nBuf, ∀ x, (c.buf i).sector = some x → (c.buf j).sector =
    some x → i = j
  busy : ∀ i < nBuf, (c.buf i).busy = true → ∃ x, (c.buf i).sector = some x ∧ P x

variable {c c' : BufCache} {P P' : Nat → Prop} {i x : Nat}

theorem HeldBy.find_eq_some (h : c.HeldBy P) (hf : c.find x = some i) :
    i < nBuf ∧ (c.buf i).sector = some x :=
  ⟨(h.mem i).1 (List.mem_of_find?_eq_some hf), by simpa using List.find?_some hf⟩

theorem HeldBy.find_eq_none (h : c.HeldBy P) (hf : c.find x = none) :
    ∀ j < nBuf, (c.buf j).sector ≠ some x := fun j hj => by
  simpa using List.find?_eq_none.1 hf j ((h.mem j).2 hj)

/-- A change of one buffer, which is for the sector `x` afterwards. -/
theorem HeldBy.update (h : c.HeldBy P) (hi : i < nBuf) {v : Buf}
    (hbuf : c'.buf = Function.update c.buf i v) (hmem : ∀ j, j ∈ c'.mru ↔ j < nBuf)
    (hv : v.sector = some x) (hothers : ∀ j < nBuf, j ≠ i → (c.buf j).sector ≠ some x)
    (hx : v.busy = true → P' x) (hP : ∀ y, y ≠ x → P y → P' y) : c'.HeldBy P' where
  mem := hmem
  unique j hj k hk y hjs hks := by
    rw [hbuf] at hjs hks
    rcases eq_or_ne j i with rfl | hji
    · rcases eq_or_ne k j with rfl | hkj
      · rfl
      · rw [update_self, hv] at hjs
        rw [update_of_ne hkj] at hks
        exact absurd (hjs ▸ hks) (hothers k hk hkj)
    · rcases eq_or_ne k i with rfl | hki
      · rw [update_self, hv] at hks
        rw [update_of_ne hji] at hjs
        exact absurd (hks ▸ hjs) (hothers j hj hji)
      · rw [update_of_ne hji] at hjs
        rw [update_of_ne hki] at hks
        exact h.unique j hj k hk y hjs hks
  busy j hj hb := by
    rw [hbuf] at hb ⊢
    rcases eq_or_ne j i with rfl | hji
    · rw [update_self] at hb ⊢
      exact ⟨x, hv, hx hb⟩
    · rw [update_of_ne hji] at hb ⊢
      obtain ⟨y, hy, hPy⟩ := h.busy j hj hb
      exact ⟨y, hy, hP y (fun he => hothers j hj hji (he ▸ hy)) hPy⟩

/-- A change of a buffer that is for `x` already. -/
theorem HeldBy.update_found (h : c.HeldBy P) (hf : c.find x = some i) {v : Buf}
    (hbuf : c'.buf = Function.update c.buf i v) (hmem : ∀ j, j ∈ c'.mru ↔ j < nBuf)
    (hv : v.sector = some x) (hx : v.busy = true → P' x) (hP : ∀ y, y ≠ x → P y → P' y) :
    c'.HeldBy P' := by
  obtain ⟨hi, hs⟩ := h.find_eq_some hf
  exact h.update hi hbuf hmem hv (fun j hj hne hjs => hne (h.unique j hj i hi x hjs hs)) hx hP

/-- A busy buffer that is found stays with its holder. -/
theorem HeldBy.holder (h : c.HeldBy P) (hf : c.find x = some i)
    (hb : (c.buf i).busy = true) : P x := by
  obtain ⟨hi, hs⟩ := h.find_eq_some hf
  obtain ⟨y, hy, hP⟩ := h.busy i hi hb
  obtain rfl := Option.some.inj (hs.symm.trans hy)
  exact hP

theorem ideRw_buf {v : Buf} (hb : v.busy = true) (hs : v.sector = some x)
    (hv : v.valid = true → v.dirty = true) : ∃ w c', (c.setBuf i v).ideRw i = .ok () c' ∧
      c'.buf = update c.buf i w ∧ c'.mru = c.mru ∧ w.sector = some x ∧ w.busy = true := by
  unfold ideRw
  have hget : (c.setBuf i v).buf i = v := update_self ..
  simp only [hget, hs]
  have hne : ¬ (v.valid = true ∧ v.dirty = false) := fun ⟨h1, h2⟩ => by rw [hv h1] at h2; cases h2
  rw [if_neg (by simp [hb]), if_neg hne]
  split
  · exact ⟨{ v with sector := some x, valid := true, dirty := false }, _, rfl,
      update_idem .., rfl, rfl, hb⟩
  · exact ⟨{ v with sector := some x, data := c.disk x, valid := true }, _, rfl,
      update_idem .., rfl, rfl, hb⟩

theorem fetch_buf {v : Buf} (hb : v.busy = true) (hs : v.sector = some x) :
    ∃ w c' r, fetch i (c.setBuf i v) = .ok r c' ∧ c'.buf = update c.buf i w ∧
      c'.mru = c.mru ∧ w.sector = some x ∧ w.busy = true := by
  unfold fetch
  have hget : (c.setBuf i v).buf i = v := update_self ..
  rw [hget]
  split
  · exact ⟨v, _, _, rfl, rfl, rfl, hs, hb⟩
  · obtain ⟨w, c', hrw, hc'⟩ := ideRw_buf (c := c) (i := i) hb hs fun h => absurd h ‹_›
    rw [hrw]
    exact ⟨w, c', _, rfl, hc'⟩

/-- `bufcache_read`: the buffer is locked. -/
theorem HeldBy.bread (h : c.HeldBy P) (hx : P' x) (hP : ∀ y, P y → P' y) :
    (BufCache.bread x c).Sat (fun _ c' => c'.HeldBy P') (fun _ c' => c' = c) fun _ => True := by
  unfold BufCache.bread bufcacheGet
  cases hf : c.find x with
  | some i =>
    by_cases hb : (c.buf i).busy = true
    · simp only [hb, if_true]
      trivial
    · simp only [if_neg hb]
      obtain ⟨w, c', r, hfetch, hbuf, hmru, hs, -⟩ := fetch_buf (c := c) (i := i)
        (v := { c.buf i with busy := true }) rfl (h.find_eq_some hf).2
      show Outcome.Sat _ _ _ (fetch i _)
      rw [hfetch]
      exact h.update_found hf hbuf (hmru ▸ h.mem) hs (fun _ => hx) fun y _ => hP y
  | none =>
    cases hv : c.victim with
    | none => rfl
    | some i =>
      have hi : i < nBuf := (h.mem i).1 (List.mem_reverse.1 (List.mem_of_find?_eq_some hv))
      obtain ⟨w, c', r, hfetch, hbuf, hmru, hs, -⟩ := fetch_buf (c := c) (i := i)
        (v := { c.buf i with sector := some x, busy := true, valid := false, dirty := false })
        rfl rfl
      show Outcome.Sat _ _ _ (fetch i _)
      rw [hfetch]
      exact h.update hi hbuf (hmru ▸ h.mem) hs (fun j hj _ => h.find_eq_none hf j hj) (fun _ => hx)
        fun y _ => hP y

/-- `bufcache_release`: the buffer is no longer locked. -/
theorem HeldBy.brelse (h : c.HeldBy P) (hP : ∀ y, y ≠ x → P y → P' y) :
    (BufCache.brelse x c).Sat (fun _ c' => c'.HeldBy P') (fun _ c' => c' = c) fun _ => True := by
  unfold BufCache.brelse
  cases hf : c.find x with
  | none => rfl
  | some i =>
    obtain ⟨hi, hs⟩ := h.find_eq_some hf
    by_cases hb : (c.buf i).busy = true
    · simp only [hb, if_true]
      refine h.update_found hf rfl (fun j => ?_) hs nofun hP
      rcases eq_or_ne j i with rfl | hne
      · simp [hi]
      · simp [hne, h.mem]
    · simp only [if_neg hb]
      rfl

/-- The operations on a locked buffer. -/
theorem access_sat {α : Type} {p : Nat → Outcome Panic BufCache α} {e : Panic}
    (hp : ∀ i, c.find x = some i → (c.buf i).busy = true →
      (p i).Sat (fun _ c' => c'.HeldBy P) (fun _ c' => c' = c) fun _ => True) :
    Outcome.Sat (fun _ c' => c'.HeldBy P) (fun _ c' => c' = c) (fun _ => True)
      (match c.find x with
      | some i => if (c.buf i).busy then p i else .panic e c
      | none => .panic e c) := by
  cases hf : c.find x with
  | none => rfl
  | some i =>
    by_cases hb : (c.buf i).busy = true
    · simp only [hb, if_true]
      exact hp i hf hb
    · simp only [if_neg hb]
      rfl

theorem HeldBy.bget (h : c.HeldBy P) :
    (BufCache.bget x c).Sat (fun _ c' => c'.HeldBy P) (fun _ c' => c' = c) fun _ => True :=
  access_sat fun _ _ _ => h

theorem HeldBy.bset (h : c.HeldBy P) {data : Block} :
    (BufCache.bset x data c).Sat (fun _ c' => c'.HeldBy P) (fun _ c' => c' = c) fun _ => True :=
  access_sat fun _ hf hb => h.update_found hf rfl h.mem (h.find_eq_some hf).2
    (fun _ => h.holder hf hb) fun _ _ => id

theorem HeldBy.bdirty (h : c.HeldBy P) :
    (BufCache.bdirty x c).Sat (fun _ c' => c'.HeldBy P) (fun _ c' => c' = c) fun _ => True :=
  access_sat fun _ hf hb => h.update_found hf rfl h.mem (h.find_eq_some hf).2
    (fun _ => h.holder hf hb) fun _ _ => id

theorem HeldBy.bwrite (h : c.HeldBy P) :
    (BufCache.bwrite x c).Sat (fun _ c' => c'.HeldBy P) (fun _ c' => c' = c) fun _ => True :=
  access_sat fun i hf hb => by
    obtain ⟨w, c', hrw, hbuf, hmru, hs, -⟩ := ideRw_buf (c := c) (i := i)
      (v := { c.buf i with dirty := true }) hb (h.find_eq_some hf).2 fun _ => rfl
    rw [hrw]
    exact h.update_found hf hbuf (hmru ▸ h.mem) hs (fun _ => h.holder hf hb) fun _ _ => id

end BufCache

/-! ## Operations -/

/-- The fresh files of a thread after an operation. -/
def FsOp.freshAfter : (o : FsOp) → o.Resp → Multiset Nat → Multiset Nat
  | .fileAlloc, some f, m => f ::ₘ m
  | .fileDrop f, _, m => m.erase f
  | .fileSetInode f _ _ _, _, m => m.erase f
  | _, _, m => m

/-- The inodes of files after an operation. -/
def FsOp.ipOfAfter : FsOp → (Nat → Nat) → Nat → Nat
  | .fileSetInode f ip _ _, ipOf => Function.update ipOf f ip
  | _, ipOf => ipOf

/-- What `lockSpec` assumes about the result of an operation. -/
def FsOp.Known : (o : FsOp) → o.Resp → Held → Prop
  | .fileDrop f, r, h => f ∈ h.fresh → ∀ ff : File, r = some ff → ff.type ≠ .inode
  | .fileGet f, r, h => File.ip r = h.ipOf f
  | _, _, _ => True

/-- What an operation does to the account of the locks. -/
structure FsOp.LockStep (o : FsOp) (r : o.Resp) (h t : Held) : Prop where
  inodes : t.inodes = o.inodesAfter r h.inodes
  bufs : t.bufs = o.bufsAfter h.bufs
  trans : t.trans.toNat + o.commits = h.trans.toNat + o.begins
  busy : o ≠ .logRelease → t.trans = true ∨ t.trans = h.trans
  fresh : t.fresh = o.freshAfter r h.fresh
  ipOf : t.ipOf = o.ipOfAfter h.ipOf

/-- The specification of an operation covers its step. -/
theorem lockSpec_step {o : FsOp} {r : o.Resp} {Q : o.Resp → Held → Prop} {h : Held}
    (hQ : lockSpec o Q h) (hr : o.Known r h) : ∃ t, Q r t ∧ o.LockStep r h t := by
  cases o with
  | logAcquire => exact ⟨_, hQ.2.2.2, rfl, rfl, by simp [FsOp.commits, FsOp.begins, hQ.2.2.1],
      fun _ => .inl rfl, rfl, rfl⟩
  | logRelease => exact ⟨_, hQ.2, rfl, rfl, by simp [FsOp.commits, FsOp.begins, hQ.1],
      fun hne => absurd rfl hne, rfl, rfl⟩
  | brelse | inodeUnlock | inodePutDrop =>
    exact ⟨_, hQ.2, rfl, rfl, rfl, fun _ => .inr rfl, rfl, rfl⟩
  | inodePutTest ip =>
    cases r with
    | false => exact ⟨_, hQ.1, rfl, rfl, rfl, fun _ => .inr rfl, rfl, rfl⟩
    | true => exact ⟨_, hQ.2, rfl, rfl, rfl, fun _ => .inr rfl, rfl, rfl⟩
  | fileAlloc =>
    cases r with
    | none => exact ⟨_, hQ.1, rfl, rfl, rfl, fun _ => .inr rfl, rfl, rfl⟩
    | some f => exact ⟨_, hQ.2 f, rfl, rfl, rfl, fun _ => .inr rfl, rfl, rfl⟩
  | fileDrop | fileGet => exact ⟨_, hQ r hr, rfl, rfl, rfl, fun _ => .inr rfl, rfl, rfl⟩
  | fileSetInode => exact ⟨_, hQ, rfl, rfl, rfl, fun _ => .inr rfl, rfl, rfl⟩
  | _ => exact ⟨_, hQ r, rfl, rfl, rfl, fun _ => .inr rfl, rfl, rfl⟩

/-- What an operation does to the files that a thread owns. -/
def FsOp.FileStep : (o : FsOp) → o.Resp → Own → Own → Prop
  | .fileAlloc, r, t, u => u.fresh = FsOp.freshAfter .fileAlloc r t.fresh ∧ u.files = t.files
  | .fileDrop f, r, t, u =>
    (∀ ff : File, r = some ff → ff.type ≠ .inode) ∧ u.fresh = t.fresh.erase f ∧ u.files = t.files ∨
      f ∈ t.files ∧ u.fresh = t.fresh ∧ u.files = t.files.erase f
  | .fileSetInode f _ _ _, _, t, u =>
    f ∈ t.fresh ∧ u.fresh = t.fresh.erase f ∧ u.files = f ::ₘ t.files
  | .fileGet f, _, t, u => f ∈ t.files ∧ u.fresh = t.fresh ∧ u.files = t.files
  | _, _, t, u => u.fresh = t.fresh ∧ u.files = t.files

theorem ownSpec_step {o : FsOp} {Q : o.Resp → Own → Prop} {t : Own} (hQ : ownSpec o Q t) :
    ownSpec o (fun r u => Q r u ∧ o.FileStep r t u) t := by
  cases o with
  | inodeGet => exact fun ip hip => ⟨hQ ip hip, rfl, rfl⟩
  | inodeDup | inodePutDrop => exact ⟨hQ.1, hQ.2, rfl, rfl⟩
  | inodePutTest => exact ⟨hQ.1, ⟨hQ.2.1, rfl, rfl⟩, hQ.2.2, rfl, rfl⟩
  | fileAlloc => exact ⟨⟨hQ.1, rfl, rfl⟩, fun f hf => ⟨hQ.2 f hf, rfl, rfl⟩⟩
  | fileDrop f =>
    refine hQ.imp (fun h => ⟨h.1, fun ff hff => ⟨h.2 ff hff, .inl ⟨?_, rfl, rfl⟩⟩⟩)
      fun h => ⟨h.1, fun ff hff => ⟨h.2 ff hff, .inr ⟨h.1, rfl, rfl⟩⟩⟩
    intro ff' he
    rwa [← Option.some.inj he]
  | fileSetInode => exact ⟨hQ.1, hQ.2.1, hQ.2.2, hQ.1, rfl, rfl⟩
  | fileGet => exact ⟨hQ.1, fun r => ⟨hQ.2 r, hQ.1, rfl, rfl⟩⟩
  | getOpenfile | setOpenfile | getCwd | setCwd => exact ⟨hQ, rfl, rfl⟩
  | _ => exact fun r => ⟨hQ r, rfl, rfl⟩

section
variable {B : Type} {s u : FsState B} {pid : Nat} {o : FsOp} {r : o.Resp}

/-- A change of an entry of the inode cache. -/
theorem busy_update {c : InodeCache} {ip ip' : Nat} {v : Inode}
    (h : (update c ip v ip').busy = true) :
    ip' = ip ∧ v.busy = true ∨ ip' ≠ ip ∧ (c ip').busy = true := by
  rcases eq_or_ne ip' ip with rfl | hne
  · exact .inl ⟨rfl, by simpa using h⟩
  · rw [update_of_ne hne] at h
    exact .inr ⟨hne, h⟩

/-- An inode that is locked was locked before or is locked by the operation. -/
theorem fsHandler_inode_busy {L : BufLayer B} (h : fsHandler L pid o s = .ok r u) {ip : Nat}
    (hb : (u.inode ip).busy = true) :
    (s.inode ip).busy = true ∧ (∀ m, ip ∈ m → ip ∈ o.inodesAfter r m) ∨
      ∀ m, ip ∈ o.inodesAfter r m := by
  -- An entry that changes otherwise than by the operations of the lock.
  have hsame : ∀ {i : Nat} {v : Inode}, (update s.inode i v ip).busy = true →
      v.busy = (s.inode i).busy → (s.inode ip).busy = true := fun hb hv => by
    rcases busy_update hb with ⟨hip, hb⟩ | ⟨-, hb⟩
    · rwa [hv, ← hip] at hb
    · exact hb
  have herase : ∀ {i : Nat} {v : Inode}, (update s.inode i v ip).busy = true →
      v.busy = false →
      (s.inode ip).busy = true ∧ ∀ m : Multiset Nat, ip ∈ m → ip ∈ m.erase i := fun hb hv => by
    rcases busy_update hb with ⟨-, hb⟩ | ⟨hne, hb⟩
    · rw [hv] at hb
      cases hb
    · exact ⟨hb, fun m => (Multiset.mem_erase_of_ne hne).2⟩
  cases o with
  | inodeGet dev inum =>
    rw [fsHandler] at h
    split at h
    case h_2 => cases h
    case h_1 c i hget =>
      cases h
      refine .inl ⟨?_, fun _ => id⟩
      unfold InodeCache.inodeGet at hget
      split at hget
      · cases hget
        exact hsame hb rfl
      · cases hget
        exact (herase hb rfl).1
      · cases hget
  | inodeAcquire ip' =>
    rw [fsHandler, FsState.inodeAcquire] at h
    split_ifs at h
    cases h
    rcases busy_update hb with ⟨rfl, -⟩ | ⟨-, hb⟩
    · exact .inr fun m => Multiset.mem_cons_self _ _
    · exact .inl ⟨hb, fun m => Multiset.mem_cons_of_mem⟩
  | inodeDup | inodeSet | inodeSetValid | flockRelease =>
    cases h
    exact .inl ⟨hsame hb rfl, fun _ => id⟩
  | inodeUnlock ip' =>
    rw [fsHandler, FsState.inodeUnlock] at h
    split_ifs at h
    cases h
    exact .inl (herase hb rfl)
  | inodePutTest ip' =>
    rw [fsHandler, FsState.inodePutTest] at h
    split_ifs at h
    · cases h
      rcases busy_update hb with ⟨rfl, -⟩ | ⟨-, hb⟩
      · exact .inr fun m => Multiset.mem_cons_self _ _
      · exact .inl ⟨hb, fun m => Multiset.mem_cons_of_mem⟩
    · cases h
      exact .inl ⟨hsame hb rfl, fun _ => id⟩
  | inodePutDrop ip' =>
    cases h
    exact .inl (herase hb rfl)
  | _ =>
    rw [(fsHandler_ok_only h).inode (by rintro ⟨⟩)] at hb
    exact .inl ⟨hb, fun _ => id⟩

/-- A change of a file. -/
theorem ip_update {file : Nat → File} {f : Nat} {v : File} (hv : v.ip = (file f).ip) (f' : Nat) :
    (update file f v f').ip = (file f').ip := by
  rcases eq_or_ne f' f with rfl | hne
  · simpa using hv
  · rw [update_of_ne hne]

/-- Only `sys_open` sets the inode of a file. -/
theorem fsHandler_file_ip {L : BufLayer B} (h : fsHandler L pid o s = .ok r u) (f : Nat) :
    (u.file f).ip = o.ipOfAfter (fun f => (s.file f).ip) f := by
  cases o with
  | fileAlloc =>
    cases h
    unfold FsState.fileAlloc
    split
    · exact ip_update (by rfl) f
    · rfl
  | fileDrop =>
    rw [fsHandler, FsState.fileDrop] at h
    split_ifs at h
    · cases h
      exact ip_update (by rfl) f
    · cases h
      exact ip_update (by rfl) f
  | fileAdvance =>
    cases h
    exact ip_update (by rfl) f
  | fileSetInode f' ip =>
    cases h
    rcases eq_or_ne f f' with rfl | hne
    · simp [FsOp.ipOfAfter]
    · simp [FsOp.ipOfAfter, update_of_ne hne]
  | _ => exact congrArg (File.ip <| · f) ((fsHandler_ok_only h).file (by rintro ⟨⟩))

end

/-- The buffers after an operation. -/
theorem fsHandler_heldBy {s : FsState BufCache} {pid : Nat} {o : FsOp} {P P' : Nat → Prop}
    (h : s.bufs.HeldBy P) (hnew : ∀ x, o = .bread x → P' x)
    (hP : ∀ x, P x → o ≠ .brelse x → P' x) :
    (fsHandler BufCache.layer pid o s).Sat (fun _ u => u.bufs.HeldBy P')
    (fun _ u => u.bufs = s.bufs)
      fun _ => True := by
  have hlift : ∀ {α : Type} {out : Outcome Panic BufCache α},
      out.Sat (fun _ c => c.HeldBy P') (fun _ c => c = s.bufs) (fun _ => True) →
      (out.mapState fun b => { s with bufs := b }).Sat (fun _ u => u.bufs.HeldBy P')
        (fun _ u => u.bufs = s.bufs) fun _ => True := fun {α out} hout => by
    cases out <;> exact hout
  have hmono : (∀ x, o ≠ .brelse x) → s.bufs.HeldBy P' := fun hne =>
    ⟨h.mem, h.unique, fun i hi hb => (h.busy i hi hb).imp fun x hx => ⟨hx.1, hP x hx.2 (hne x)⟩⟩
  have hrest : o.part ≠ .bufs → (fsHandler BufCache.layer pid o s).Sat
        (fun _ u => u.bufs.HeldBy P') (fun _ u => u.bufs = s.bufs) fun _ => True := fun ho => by
    have hbufs := (fsHandler_only BufCache.layer pid o s).bufs ho
    cases hout : fsHandler BufCache.layer pid o s with
    | ok r u =>
      rw [hout] at hbufs
      exact (congrArg (BufCache.HeldBy · P') hbufs).mpr (hmono fun x hx => ho (hx ▸ rfl))
    | panic e u =>
      rw [hout] at hbufs
      exact hbufs
    | blocked u => trivial
  cases o with
  | bread x => exact hlift (h.bread (hnew x rfl) fun y hy => hP y hy nofun)
  | bget x => exact hlift (hmono nofun).bget
  | bset x data => exact hlift (hmono nofun).bset
  | bwrite x => exact hlift (hmono nofun).bwrite
  | bdirty x => exact hlift (hmono nofun).bdirty
  | brelse x =>
    exact hlift (h.brelse fun y hne hy => hP y hy fun he => hne (FsOp.brelse.inj he).symm)
  | _ => exact hrest (by rintro ⟨⟩)

/-! ## The invariant -/

/-- The accounts of the threads agree with the history variables and with the state: what is locked
has a holder. -/
structure Balanced (s : Booked BufCache) (g : Nat → Own × Held) : Prop where
  own : Accounted s.fs (Prod.fst ∘ g)
  inodes : ∀ pid, s.inodes pid = (g pid).2.inodes
  bufs : ∀ pid, s.bufs pid = (g pid).2.bufs
  trans : ∀ pid, s.begun pid = s.committed pid + (g pid).2.trans.toNat
  fresh : ∀ pid, (g pid).2.fresh ≤ (g pid).1.fresh
  ipOf : ∀ pid < numIds, ∀ f ∈ (g pid).1.files, (s.fs.file f).ip = (g pid).2.ipOf f
  locked : ∀ ip, (s.fs.inode ip).busy = true → ∃ pid < numIds, ip ∈ (g pid).2.inodes
  held : s.fs.bufs.HeldBy fun x => ∃ pid < numIds, x ∈ (g pid).2.bufs
  log : s.fs.log.busy = true → ∃ pid < numIds, (g pid).2.trans = true

section
variable {g : Nat → Own × Held} {pid : Nat} {o : FsOp} {r : o.Resp}

/-- A holder stays one if the thread `pid` does. -/
theorem holder_update {t : Own × Held} {P : Own × Held → Prop} (h : ∃ q < numIds, P (g q))
    (hP : P (g pid) → P t) : ∃ q < numIds, P (update g pid t q) := by
  obtain ⟨q, hq, hPq⟩ := h
  refine ⟨q, hq, ?_⟩
  rcases eq_or_ne q pid with rfl | hne
  · rw [update_self]
    exact hP hPq
  · rwa [update_of_ne hne]

/-- The inodes of the files that a thread has after an operation. -/
theorem FsOp.FileStep.ipOf {t u : Own} (h : o.FileStep r t u) {φ ψ : Nat → Nat}
    (heq : ∀ f ∈ t.files, φ f = ψ f) : ∀ f ∈ u.files, o.ipOfAfter φ f = o.ipOfAfter ψ f := by
  intro f hf
  cases o with
  | fileSetInode f' ip =>
    rw [h.2.2] at hf
    rcases eq_or_ne f f' with rfl | hne
    · simp [FsOp.ipOfAfter]
    · simp only [FsOp.ipOfAfter, update_of_ne hne]
      exact heq f ((Multiset.mem_cons.1 hf).resolve_left hne)
  | fileDrop f' =>
    rcases h with ⟨-, -, h⟩ | ⟨-, -, h⟩
    · exact heq f (h ▸ hf)
    · exact heq f (Multiset.mem_of_mem_erase (h ▸ hf))
  | fileGet => exact heq f (h.2.2 ▸ hf)
  | _ => exact heq f (h.2 ▸ hf)

/-- An operation sets only the inode of a fresh file. -/
theorem FsOp.FileStep.ipOf_eq {t u : Own} (h : o.FileStep r t u) {f : Nat} (hf : f ∉ t.fresh)
    (φ : Nat → Nat) : o.ipOfAfter φ f = φ f := by
  cases o with
  | fileSetInode f' =>
    have hne : f ≠ f' := fun he => hf (he ▸ h.1)
    exact update_of_ne hne _ _
  | _ => rfl

/-- The account of the fresh files follows. -/
theorem FsOp.FileStep.fresh_le {t u : Own} (h : o.FileStep r t u) {m : Multiset Nat}
    (hm : m ≤ t.fresh) :
    o.freshAfter r m ≤ u.fresh := by
  cases o with
  | fileAlloc =>
    rw [h.1]
    cases r with
    | none => exact hm
    | some f => exact Multiset.cons_le_cons f hm
  | fileDrop f =>
    rcases h with ⟨-, h, -⟩ | ⟨-, h, -⟩
    · exact h ▸ Multiset.erase_le_erase f hm
    · exact h ▸ (Multiset.erase_le f m).trans hm
  | fileSetInode f => exact h.2.1 ▸ Multiset.erase_le_erase f hm
  | fileGet => exact h.2.1 ▸ hm
  | _ => exact h.1 ▸ hm

theorem Accounted.not_fresh_of_open {s : FsState BufCache} {g : Nat → Own} (h : Accounted s g)
    {pid q f : Nat} (hp : pid < numIds) (hq : q < numIds) (hf : f ∈ (g q).files) :
    f ∉ (g pid).fresh := fun hfresh =>
  (h.file_fresh hp hfresh).2 (h.file_open hq hf)

/-- The results of operations are as `lockSpec` assumes. -/
theorem Balanced.known {s : Booked BufCache} {fs : FsState BufCache} {t : Own} (h : Balanced s g)
    (hp : pid < numIds) (hstep : o.FileStep r (g pid).1 t)
    (hrun : fsHandler BufCache.layer pid o s.fs = .ok r fs) : o.Known r (g pid).2 := by
  cases o with
  | fileDrop f =>
    intro hf
    rcases hstep with ⟨hr, -⟩ | ⟨hfile, -⟩
    · exact hr
    · exact absurd (Multiset.mem_of_le (h.fresh pid) hf) (h.own.not_fresh_of_open hp hp hfile)
  | fileGet f =>
    cases hrun
    exact h.ipOf pid hp f hstep.1
  | _ => trivial

/-- The operations keep to the accounts. -/
theorem sound_booked : Sound numIds (bookedHandler BufCache.layer) (ownSpec.prod lockSpec) Balanced
    fun _ _ _ => True where
  panic := by
    intro pid o s g e u hp h hrun
    unfold bookedHandler at hrun
    cases hfs : fsHandler BufCache.layer pid o s.fs with
    | ok => rw [hfs] at hrun; cases hrun
    | blocked => rw [hfs] at hrun; cases hrun
    | panic e fs =>
      rw [hfs] at hrun
      cases hrun
      have hheld : (fsHandler BufCache.layer pid o s.fs).Sat
        (fun _ u => u.bufs.HeldBy fun _ => True)
          (fun _ u => u.bufs = s.fs.bufs) fun _ => True :=
        fsHandler_heldBy h.held (fun _ _ => trivial) fun _ _ _ => trivial
      rw [hfs] at hheld
      obtain ⟨b, rfl⟩ := fsHandler_panic hfs
      obtain rfl : b = s.fs.bufs := hheld
      exact h
  ret := by
    intro pid o s g r u Q hp h _ hQ hrun
    unfold bookedHandler at hrun
    cases hfs : fsHandler BufCache.layer pid o s.fs with
    | panic => rw [hfs] at hrun; cases hrun
    | blocked => rw [hfs] at hrun; cases hrun
    | ok r' fs =>
      rw [hfs] at hrun
      cases hrun
      obtain ⟨t, ⟨hlock, hfile⟩, hacc⟩ := (sound_ownSpec BufCache.layer).ret hp h.own trivial
        (ownSpec_step hQ) hfs
      obtain ⟨t', hQt, hstep⟩ := lockSpec_step hlock (h.known hp hfile hfs)
      refine ⟨(t, t'), hQt rfl, ?_, fun q => ?_, fun q => ?_, fun q => ?_, fun q => ?_,
        fun q hq f hf => ?_, fun ip hb => ?_, ?_, fun hb => ?_⟩
      · rw [Function.comp_update]
        exact hacc
      · rcases eq_or_ne q pid with rfl | hne
        · simp [Booked.note, hstep.inodes, h.inodes]
        · simp [Booked.note, update_of_ne hne, h.inodes]
      · rcases eq_or_ne q pid with rfl | hne
        · simp [Booked.note, hstep.bufs, h.bufs]
        · simp [Booked.note, update_of_ne hne, h.bufs]
      · rcases eq_or_ne q pid with rfl | hne
        · have := hstep.trans
          have := h.trans q
          simp only [Booked.note, update_self]
          omega
        · simp [Booked.note, update_of_ne hne, h.trans]
      · rcases eq_or_ne q pid with rfl | hne
        · simp only [update_self, hstep.fresh]
          exact hfile.fresh_le (h.fresh q)
        · simp only [update_of_ne hne]
          exact h.fresh q
      · rw [show (s.note pid o r fs).fs = fs from rfl, fsHandler_file_ip hfs]
        rcases eq_or_ne q pid with rfl | hne
        · simp only [update_self, hstep.ipOf] at hf ⊢
          exact hfile.ipOf (h.ipOf q hq) f hf
        · simp only [update_of_ne hne] at hf ⊢
          rw [hfile.ipOf_eq (h.own.not_fresh_of_open hp hq hf)]
          exact h.ipOf q hq f hf
      · rcases fsHandler_inode_busy hfs hb with ⟨hb, hkeep⟩ | hnew
        · exact holder_update (P := fun x => ip ∈ x.2.inodes) (h.locked ip hb) fun hm =>
            hstep.inodes ▸ hkeep _ hm
        · refine ⟨pid, hp, ?_⟩
          rw [update_self, hstep.inodes]
          exact hnew _
      · suffices hheld : (fsHandler BufCache.layer pid o s.fs).Sat
            (fun _ u => u.bufs.HeldBy fun x => ∃ q < numIds, x ∈ (update g pid (t, t') q).2.bufs)
            (fun _ u => u.bufs = s.fs.bufs) fun _ => True by
          rw [hfs] at hheld
          exact hheld
        refine fsHandler_heldBy h.held (fun x hx => ⟨pid, hp, ?_⟩) fun x hx hne =>
          holder_update (P := fun y => x ∈ y.2.bufs) hx fun hm => ?_
        · rw [update_self, hstep.bufs, hx]
          exact Multiset.mem_cons_self _ _
        · rw [hstep.bufs]
          cases o with
          | bread => exact Multiset.mem_cons_of_mem hm
          | brelse y =>
            have hxy : x ≠ y := fun he => hne (he ▸ rfl)
            exact (Multiset.mem_erase_of_ne hxy).2 hm
          | _ => exact hm
      · by_cases hrel : o = .logRelease
        · subst hrel
          cases hfs
          exact absurd hb nofun
        by_cases hacq : o = .logAcquire
        · subst hacq
          refine ⟨pid, hp, ?_⟩
          rw [update_self, ← Bool.toNat_eq_one]
          have := hstep.trans
          have := t'.trans.toNat_le
          simp only [FsOp.commits, FsOp.begins] at *
          omega
        · refine holder_update (P := fun x => x.2.trans = true) (h.log ?_) fun ht => ?_
          · rw [← fsHandler_busy hfs hacq hrel]
            exact hb
          · rcases hstep.busy hrel with ht' | ht'
            · exact ht'
            · exact ht'.trans ht

/-- What a thread has between two calls. -/
def Idle (t : Own × Held) : Prop := t.1.Rest 0 ∧ t.2.Rest

theorem Syscall.balanced (c : Syscall) {t : Own × Held} (ht : Idle t) :
    c.code.Follows (ownSpec.prod lockSpec) (fun _ => Idle) t :=
  (c.owns ht.1).prod ownSpec_mono lockSpec_mono (c.locks ht.2)

end

/-! ## Boot -/

/-- What a thread has locked at boot: nothing. -/
def Held.boot : Held := { inodes := 0, bufs := 0, trans := false, fresh := 0, ipOf := fun _ => 0 }

theorem idle_boot : Idle (Own.boot, Held.boot) :=
  ⟨⟨rfl, rfl, by simp [Own.boot, descFiles]⟩, rfl, rfl, rfl, rfl⟩

theorem balanced_boot (d : Disk) : Balanced (.boot d) fun _ => (Own.boot, Held.boot) where
  own := accounted_booted
  inodes _ := rfl
  bufs _ := rfl
  trans _ := rfl
  fresh _ := le_rfl
  ipOf _ _ _ hf := absurd hf (Multiset.notMem_zero _)
  locked ip hb := by
    have hno : ((FsState.booted (BufCache.init d)).inode ip).busy = false := by
      rcases eq_or_ne ip 0 with rfl | hne
      · rfl
      · simp [FsState.booted, FsState.zeroed, hne]
    exact absurd (hno.symm.trans hb) Bool.false_ne_true
  held := ⟨fun i => by simp [Booked.boot, FsState.booted, FsState.zeroed, BufCache.init],
    fun _ _ _ _ _ hx => (by cases hx), fun _ _ hb => absurd hb Bool.false_ne_true⟩
  log hb := absurd hb Bool.false_ne_true

theorem neutral_readHeadFrom {b : Block} {is : List Nat} : Neutral (readHeadFrom b is) := by
  induction is with
  | nil => exact neutral_pure _
  | cons i is ih => exact neutral_logSetSector.bind fun _ => ih

theorem neutral_logInit : Neutral logInit := by
  have hhead : Neutral readHead :=
    neutral_logGet.bind fun _ => neutral_bufcacheRead fun _ => .bind neutral_logSetN fun _ =>
      .bind neutral_readHeadFrom fun _ => brackets_release
  exact neutral_readSuperblock.bind fun _ =>
    (neutral_call (o := .logSetArea _ _) fun _ _ hQ => hQ).bind fun _ => hhead.bind fun _ =>
      neutral_installTrans.bind fun _ => neutral_logSetN.bind fun _ =>
    neutral_writeHead

theorem low_logInit : Low logInit := by
  have hfrom : ∀ b is, Low (readHeadFrom b is) := fun b is => by
    induction is with
    | nil => exact low_pure _
    | cons i is ih => exact (blocks_logSetSector _ _).low.bind fun _ => ih
  have hhead : Low readHead :=
    blocks_logGet.low.bind fun _ => (blocks_bufcacheRead _).low.bind fun _ =>
    (blocks_logSetN _).low.bind fun _ => (hfrom _ _).bind fun _ => (blocks_bufcacheRelease _).low
  exact blocks_readSuperblock.low.bind fun _ =>
    (low_call (o := .logSetArea _ _) trivial).bind fun _ =>
    hhead.bind fun _ => blocks_installTrans.low.bind fun _ => (blocks_logSetN _).low.bind fun _ =>
      blocks_writeHead.low

/-- The run lemma. -/
theorem bookedSystem_typed {s : Threads fsSig Panic (Booked BufCache) SysRet}
    (h : bookedSystem.Reachable s) : Typed (ownSpec.prod lockSpec) Balanced Idle s := by
  refine h.invariant ?_ fun _ _ _ ht hstep =>
    ht.step sound_booked (fun c _ ht => c.balanced ht) (fun _ _ _ _ _ => trivial) hstep
  rintro s ⟨⟨d, hboot⟩, hcode, -⟩
  obtain ⟨t, ht, hI⟩ := sound_booked.run (fun _ _ _ => trivial) (by decide) (balanced_boot d)
    (Prog.Follows.prod ownSpec_mono lockSpec_mono
      (low_logInit.owns (Q := fun _ t => t = Own.boot) fun _ => rfl)
      (neutral_logInit _ (fun _ h => h = Held.boot) fun _ => rfl)) hboot
  refine ⟨_, hI, fun pid => ?_⟩
  obtain ⟨r, hr⟩ := hcode pid
  rw [hr]
  rcases eq_or_ne pid 0 with rfl | hne
  · rw [update_self, show t = (Own.boot, Held.boot) from Prod.ext ht.1 ht.2]
    exact idle_boot
  · rw [update_of_ne hne]
    exact idle_boot

/-! ## References -/

/-- The number of descriptors that refer to a file. -/
def descriptors (openfiles : Nat → Nat → Option Nat) (f : Nat) : Nat :=
  ∑ pid ∈ Finset.range numIds, ((Finset.range nOFile).filter fun fd =>
    openfiles pid fd = some f).card

/-- The number of processes that have an inode as their working directory. -/
def cwds (cwd : Nat → Nat) (ip : Nat) : Nat :=
  ((Finset.range numIds).filter fun pid => cwd pid = ip).card

theorem count_descFiles (desc : Nat → Option Nat) (f : Nat) :
    (descFiles desc).count f = ((Finset.range nOFile).filter fun fd => desc fd = some f).card := by
  rw [descFiles, Multiset.count_sum', Finset.card_eq_sum_ones, Finset.sum_filter]
  refine Finset.sum_congr rfl fun fd _ => ?_
  cases desc fd with
  | none => simp
  | some f' => simp [Multiset.count_singleton, eq_comm]

section
variable {s : FsState BufCache} {g : Nat → Own}

/-- The references to inodes while no thread is in a call. -/
theorem Accounted.ref_idle (h : Accounted s g) (hrest : ∀ pid, (g pid).Rest 0) (ip : Nat) :
    (s.inode ip).ref = cwds s.cwd ip + opens s.file ip := by
  have htotal : total g (·.refs.count ip) = cwds s.cwd ip := by
    rw [total, cwds, Finset.card_eq_sum_ones, Finset.sum_filter]
    refine Finset.sum_congr rfl fun pid _ => ?_
    rw [(hrest pid).refs, h.cwd, Multiset.count_cons, Multiset.count_zero, zero_add]
    exact if_congr eq_comm rfl rfl
  rw [h.ref, htotal]

/-- The references to files while no thread is in a call. -/
theorem Accounted.file_idle (h : Accounted s g) (hrest : ∀ pid, (g pid).Rest 0) (f : Nat) :
    (s.file f).ref = descriptors s.openfiles f := by
  have htotal : total g (·.files.count f) = descriptors s.openfiles f :=
    Finset.sum_congr rfl fun pid _ => by
      dsimp only
      rw [(hrest pid).files, h.desc, count_descFiles]
  have hfresh : total g (·.fresh.count f) = 0 :=
    Finset.sum_eq_zero fun pid _ => by
      dsimp only
      rw [(hrest pid).fresh, Multiset.count_zero]
  rw [← htotal, h.files]
  rcases h.file f with ⟨h0, hno⟩ | ⟨h1, -⟩
  · rw [if_neg hno, h0]
    rfl
  · have hopen : (s.file f).Open := by
      by_contra hno
      rw [h.fresh, if_pos ⟨h1, hno⟩] at hfresh
      cases hfresh
    rw [if_pos hopen, h1]
    rfl

end

/-- **Every system call gives back what it took**, in every interleaving of the calls of any
processes, from the boot on any disk: a thread has always ended all transactions that it has begun,
but for at most one; when it has returned from a call it has ended all of them, and has no inode
and no buffer locked; and when no thread is in a call, nothing is locked, each inode has as many
references as there are open files and working directories for it, and each file as many as there
are descriptors of it. -/
theorem calls_balanced {s : Threads fsSig Panic (Booked BufCache) SysRet}
    (h : bookedSystem.Reachable s) :
    (∀ pid, s.shared.committed pid ≤ s.shared.begun pid ∧
        s.shared.begun pid ≤ s.shared.committed pid + 1) ∧
      (∀ pid r, s.code pid = .pure r → s.shared.inodes pid = 0 ∧ s.shared.bufs pid = 0 ∧
        s.shared.begun pid = s.shared.committed pid) ∧
      ((∀ pid, ∃ r, s.code pid = .pure r) →
        (∀ ip, (s.shared.fs.inode ip).busy = false) ∧
        (∀ i < nBuf, (s.shared.fs.bufs.buf i).busy = false) ∧
        s.shared.fs.log.busy = false ∧
        (∀ ip, (s.shared.fs.inode ip).ref = cwds s.shared.fs.cwd ip + opens s.shared.fs.file ip) ∧
        ∀ f, (s.shared.fs.file f).ref = descriptors s.shared.fs.openfiles f) := by
  obtain ⟨g, hI, hg⟩ := bookedSystem_typed h
  have hidle : ∀ pid r, s.code pid = .pure r → Idle (g pid) := fun pid r hr => by
    have := hg pid
    rwa [hr] at this
  refine ⟨fun pid => ?_, fun pid r hr => ?_, fun hall => ?_⟩
  · have := hI.trans pid
    have := (g pid).2.trans.toNat_le
    omega
  · obtain ⟨-, hrest⟩ := hidle pid r hr
    exact ⟨(hI.inodes pid).trans hrest.inodes, (hI.bufs pid).trans hrest.bufs, by
      rw [hI.trans, hrest.trans]
      rfl⟩
  · have hrest : ∀ pid, Idle (g pid) := fun pid => (hall pid).elim (hidle pid)
    refine ⟨fun ip => ?_, fun i hi => ?_, ?_, hI.own.ref_idle fun pid => (hrest pid).1,
      hI.own.file_idle fun pid => (hrest pid).1⟩
    · rw [← Bool.not_eq_true]
      intro hb
      obtain ⟨pid, -, hm⟩ := hI.locked ip hb
      rw [(hrest pid).2.inodes] at hm
      exact Multiset.notMem_zero _ hm
    · rw [← Bool.not_eq_true]
      intro hb
      obtain ⟨x, -, pid, -, hm⟩ := hI.held.busy i hi hb
      rw [(hrest pid).2.bufs] at hm
      exact Multiset.notMem_zero _ hm
    · rw [← Bool.not_eq_true]
      intro hb
      obtain ⟨pid, -, ht⟩ := hI.log hb
      rw [(hrest pid).2.trans] at ht
      cases ht

/-- A process makes a directory its working directory, and another one opens it: the directory has
two references. -/
theorem calls_balanced_open_cwd :
    ∃ s, bookedSystem.Reachable s ∧ (∀ pid, ∃ r, s.code pid = .pure r) ∧
      s.shared.begun 1 = 1 ∧ s.shared.committed 1 = 1 ∧ cwds s.shared.fs.cwd 1 = 1 ∧
      opens s.shared.fs.file 1 = 1 ∧ (s.shared.fs.inode 1).ref = 2 := by
  have hend : decide ((((bookedHandler BufCache.layer 0).run logInit (.boot emptyImage)).bind
      fun _ => runCalls (bookedHandler BufCache.layer) Syscall.code
        [(1, .mkdir 0x40000000 3 [47, 100]), (1, .chdir 0x40000000 3 [47, 100]),
          (2, .open 0x40000000 0 3 [47, 100])]).Sat
      (fun _ u => u.begun 1 = 1 ∧ cwds u.fs.cwd 1 = 1 ∧ opens u.fs.file 1 = 1)
      (fun _ _ => False) fun _ => False) = true := by decide +kernel
  cases hboot : (bookedHandler BufCache.layer 0).run logInit (.boot emptyImage) with
  | panic => rw [hboot] at hend; cases hend
  | blocked => rw [hboot] at hend; cases hend
  | ok r u₀ =>
    rw [hboot] at hend
    have hinit : bookedSystem.Init
        { shared := u₀, code := fun _ => .pure (.err .succ), panic := none } :=
      ⟨⟨emptyImage, hboot⟩, fun _ => ⟨_, rfl⟩, rfl⟩
    obtain ⟨u, c, hreach, hidle, hbegun, hcwds, hopens⟩ := runCalls_reachable_idle (n := numIds)
      (bookedHandler BufCache.layer) Syscall.code _ hinit (by simp [numIds])
      (of_decide_eq_true hend)
    obtain ⟨-, hret, hall⟩ := calls_balanced hreach
    refine ⟨_, hreach, hidle, hbegun, ?_, hcwds, hopens, ?_⟩
    · obtain ⟨r, hr⟩ := hidle 1
      exact (hret 1 r hr).2.2.symm.trans hbegun
    · rw [(hall hidle).2.2.2.1, hcwds, hopens]
      rfl

end MCertikos
