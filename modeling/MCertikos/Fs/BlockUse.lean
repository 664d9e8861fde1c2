import MCertikos.Fs.Intact

/-!
# Blocks and the free bitmap

Threads allocate inodes, write to them and drop their references to them, in any order, each as the
callers of these functions do: in a transaction, with the inode locked for a write, with a
reference for all of it. In every state that such a sequence reaches, the bitmap is right: the
blocks in use are those that an allocated inode points to, and no two pointers are to the same
block.
-/

namespace MCertikos

open Program Ownership Transition

/-- What a thread does with inodes. -/
inductive InodeAct where
  /-- `begin_trans`. -/
  | begin
  /-- `commit_trans`. -/
  | commit
  /-- `inode_alloc`. -/
  | alloc (type : BitVec 16)
  /-- `inode_get`. -/
  | get (inum : Nat)
  /-- `inode_lock`. -/
  | lock (ip : Nat)
  /-- `inode_unlock`. -/
  | unlock (ip : Nat)
  /-- The number of links is set, and the inode is updated. -/
  | setLinks (ip : Nat) (nlink : BitVec 16)
  /-- `inode_write`. -/
  | write (ip : Nat) (src : List Byte) (off : BitVec 32)
  /-- `inode_put`. -/
  | put (ip : Nat)

namespace InodeAct

/-- The code. -/
def code : InodeAct → Fs Unit
  | .begin => beginTrans
  | .commit => commitTrans
  | .alloc type => do let _ ← inodeAlloc rootDev type
  | .get inum => do let _ ← inodeGet rootDev inum
  | .lock ip => inodeLock ip
  | .unlock ip => inodeUnlock ip
  | .setLinks ip nlink => do
    let inode ← readInode ip
    setDinode ip { inode.din with nlink }
    inodeUpdate ip
  | .write ip src off => do let _ ← inodeWrite ip src off
  | .put ip => inodePut ip

/-- A thread that has locked the inode at `ip`, in a transaction. -/
def Locked (a : FsState Vol) (ip : Nat) : Prop :=
  0 < (a.inode ip).ref ∧ (a.inode ip).busy = true ∧ (a.inode ip).valid = true ∧ a.log.busy = true

/-- What a caller has to see to. For a write there are free data blocks, as many as it needs. -/
def Valid (a : FsState Vol) : InodeAct → Prop
  | .begin | .commit | .get _ => True
  | .alloc _ => a.log.busy = true
  | .lock ip => 0 < (a.inode ip).ref ∧ 0 < (a.inode ip).inum ∧
      (a.inode ip).inum < (superOf a.bufs.data).ninodes.toNat
  | .unlock ip => 0 < (a.inode ip).ref ∧ (a.inode ip).busy = true
  | .setLinks ip _ => Locked a ip
  | .write ip src off =>
    Locked a ip ∧ src.length < 2 ^ 32 ∧ (off.toNat + src.length ≤ maxFile * bSize →
      missing a.bufs.data (dinodeAt a.bufs.data) (a.inode ip).inum (slotsIn off.toNat src.length) ≤
        spare a.bufs.data)
  | .put ip => 0 < (a.inode ip).ref ∧ a.log.busy = true

end InodeAct

/-- Threads use inodes, from the boot on. -/
def inodeMachine (d : Disk) : Machine (FsState BufCache) (Nat × InodeAct) where
  Init s := s = .bootFrom d
  step s act :=
    match (fsHandler BufCache.layer act.1).run act.2.code s with
    | .ok _ t => some t
    | _ => none

/-- The bitmap is right: a block that is held by an allocated inode is a data block, is marked as
used, and is held once; and a data block that is marked as used is held. -/
structure BlocksMatch (d : Disk) : Prop where
  held : ∀ s b, owner d (dinodeAt d) s = some b → (superOf d).InData b ∧ ¬ Free d b ∧
    ∀ t, owner d (dinodeAt d) t = some b → t = s
  noLeak : ∀ b, (superOf d).InData b → ¬ Free d b → ∃ s, owner d (dinodeAt d) s = some b

/-- What holds between two operations. -/
structure InOrder (a : FsState Vol) (D : Nat → Dinode) : Prop where
  intact : Intact a D
  noLeak : NoLeak a D
  held : a.bufs.held = ∅

section
variable {A : Allow} {pid : Nat} {a : FsState Vol} {D : Nat → Dinode} {s t : FsState BufCache}

theorem InOrder.blocksMatch (h : InOrder a D) : BlocksMatch a.bufs.data := by
  have hown := owner_onDisk h.intact.consistent.disk
  refine ⟨fun s b hs => ?_, fun b hin hused => ?_⟩ <;> rw [hown] at *
  · have hb := h.intact.consistent.owned.inData hs
    exact ⟨hb.1, hb.2, fun t ht => h.intact.consistent.owned.eq ht hs⟩
  · exact h.noLeak b ⟨hin, hused⟩

/-- An operation leaves the file system in order. It may stop for lack of something, but not in
`block_free`. -/
theorem vwp_inodeAct (act : InodeAct) (h : InOrder a D) (hvalid : act.Valid a)
    (hA : ∀ e, e ≠ .freeingFree → e ≠ .unsaved → A.panic e) (hblock : A.block) :
    vwp A pid act.code (fun _ a' => ∃ D', InOrder a' D') a := by
  have hlax : A.Lax := ⟨hA _ (by simp) (by simp), hA _ (by simp) (by simp)⟩
  have hroom : A.Room a := .inl hlax
  have hnot : ∀ x, x ∉ a.bufs.held := fun x => h.held ▸ Finset.notMem_empty x
  obtain ⟨hs, hleak, hheld⟩ := id h
  cases act with
  | begin => exact vwp_beginTrans (fun _ => hblock) fun _ => ⟨D, hs.begun, hleak, hheld⟩
  | commit => exact vwp_commitTrans hheld (.inl hlax.1) ⟨D, hs.committed, hleak, hheld⟩
  | alloc type =>
    refine vwp_bind (vwp_inodeAlloc hs.consistent.geo hs.entries hvalid hheld
      hroom (.inl (hA _ (by simp) (by simp))) (.inl (hA _ (by simp) (by simp)))
      fun i _ hi h0 ip x hg => vwp_pure ?_)
    rw [hs.consistent.disk i hi] at h0
    exact ⟨_, (hs.alloc hi h0).gets hg, hleak.alloc hs hi h0, hheld⟩
  | get inum =>
    exact vwp_bind (vwp_inodeGet hs.entries (.inl (hA _ (by simp) (by simp))) fun ip x hg =>
      vwp_pure ⟨D, hs.gets hg, hleak, hheld⟩)
  | lock ip =>
    obtain ⟨href, hpos, hi⟩ := hvalid
    exact vwp_inodeLock (hs.fit ∅ (Nat.zero_le _) hlax) href rfl hi (.inl hlax.1) (hnot _)
      (fun _ => hblock) (fun _ => hs.consistent.disk _ hi)
      (fun _ _ => hA _ (by simp) (by simp)) fun htype =>
        ⟨D, hs.lock rfl hpos hi htype, hleak, hheld⟩
  | unlock ip => exact vwp_inodeUnlock hvalid.2 hvalid.1 ⟨D, hs.unlock, hleak, hheld⟩
  | setLinks ip nlink =>
    obtain ⟨href, -, hv, hbusy⟩ := hvalid
    have hip : a.Opens ip (a.inode ip).inum := ⟨href, hv, rfl⟩
    refine vwp_bind (vwp_readInode ?_)
    rw [hs.consistent.cached ip _ hip]
    exact vwp_setInode (hs.fit ∅ (Nat.zero_le _) hlax) hip (hs.live ip _ hip).2.1
      rfl rfl hbusy hheld ⟨_, hs.setInode hip rfl rfl rfl, hleak.setInode hs hip rfl rfl, hheld⟩
  | write ip src off =>
    obtain ⟨⟨href, -, hv, hbusy⟩, hlen, hspare⟩ := hvalid
    have hip : a.Opens ip (a.inode ip).inum := ⟨href, hv, rfl⟩
    have hi := hs.live ip _ hip
    refine vwp_bind ?_
    by_cases htype : (D (a.inode ip).inum).type = tDev
    · refine vwp_bind (vwp_readInode ?_)
      rw [hs.consistent.cached ip _ hip, if_pos htype]
      exact vwp_pure (vwp_pure ⟨D, h⟩)
    · rw [missing, owner_onDisk hs.consistent.disk] at hspare
      refine vwp_inodeWrite_written hs.consistent hip hi htype hbusy hheld hlen hspare (.inl hlax)
        (fun _ => vwp_pure ⟨D, h⟩) fun _ _ a' g g' hg hw => vwp_pure ?_
      subst hg
      exact ⟨g'.D, hs.written hw, hw.tight hleak, hw.frame.held.trans hheld⟩
  | put ip =>
    obtain ⟨href, hbusy⟩ := hvalid
    by_cases hlast : a.inode.Last ip
    · have hip : a.Opens ip (a.inode ip).inum := ⟨href, hlast.2.1, rfl⟩
      exact vwp_inodePut_last (hs.fit {iblock (a.inode ip).inum} (Nat.zero_le _) hlax) hlast rfl
        (hs.live ip _ hip) (fun _ => hA _ (by simp) (by simp)) hbusy
        hheld (Finset.mem_singleton_self _) fun a' D' hr =>
        ⟨D', hs.reclaimed hip hr, hr.tight hleak, hr.held.trans hheld⟩
    · exact vwp_inodePut_keep hlast ⟨D, hs.drop href, hleak, hheld⟩

/-- The code does so too. -/
theorem inodeStep (hs : s.View a) (h : InOrder a D) {act : InodeAct}
    (hvalid : act.Valid a) (pid : Nat) :
    ((fsHandler BufCache.layer pid).run act.code s).Sat
    (fun _ t => ∃ a' D', t.View a' ∧ InOrder a' D')
      (fun e _ => e ≠ .freeingFree ∧ e ≠ .unsaved) fun _ => True := by
  refine ((vwp_inodeAct (A := ⟨fun e => e ≠ .freeingFree ∧ e ≠ .unsaved, True⟩) act h hvalid
    (fun _ h1 h2 => ⟨h1, h2⟩) trivial).run hs fun hc => hc.2 rfl).mono ?_ (fun _ _ he => he)
    fun _ hb => hb
  rintro _ t ⟨a', hv, D', h'⟩
  exact ⟨a', D', hv, h'⟩

/-- A run keeps the volume in order. -/
theorem inodeRun {d : Disk} (hs : s.View a) (h : InOrder a D)
    (hrun : (inodeMachine d).Runs (fun s act => ∀ a, s.View a → act.2.Valid a) s t) :
    ∃ a D, t.View a ∧ InOrder a D := by
  refine hrun.invariant (I := fun t => ∃ a D, t.View a ∧ InOrder a D) ?_ ⟨a, D, hs, h⟩
  rintro t ⟨pid, act⟩ u ⟨a, D, ht, hin⟩ hok hstep
  have hsat := inodeStep ht hin (hok a ht) pid
  simp only [inodeMachine] at hstep
  cases hrun : (fsHandler BufCache.layer pid).run act.code t with
  | ok r v =>
    rw [hrun] at hstep hsat
    cases hstep
    exact hsat
  | panic e v =>
    rw [hrun] at hstep
    cases hstep
  | blocked v =>
    rw [hrun] at hstep
    cases hstep

/-- **Blocks and the bitmap agree.** From a consistent disk, after any sequence of operations on
inodes whose callers do what they have to, and for whose writes there are free data blocks, the
bitmap is right; and `block_free` never finds a block that is free already. -/
theorem blocks_match_bitmap {d : Disk} (hd : d.Consistent) (hmatch : BlocksMatch d)
    (hrun : (inodeMachine d).Runs (fun s act => ∀ a, s.View a → act.2.Valid a) (.bootFrom d) t) :
    (∃ a, t.View a ∧ BlocksMatch a.bufs.data) ∧
      ∀ (pid : Nat) (act : InodeAct), (∀ a, t.View a → act.Valid a) →
        ∀ u, (fsHandler BufCache.layer pid).run act.code t ≠ .panic .freeingFree u := by
  have hin : InOrder (mounted d) (dinodeAt d) :=
    ⟨hd.intact, fun b hb => hmatch.noLeak b hb.1 hb.2, rfl⟩
  obtain ⟨a, D, ht, h⟩ := inodeRun (bootFrom_view hd.log hd.header) hin hrun
  refine ⟨⟨a, ht, h.blocksMatch⟩, fun pid act hok u hu => ?_⟩
  have hsat := inodeStep ht h (hok a ht) pid
  rw [hu] at hsat
  exact hsat.1 rfl

end

/-- The root directory of the empty file system holds the one data block in use. -/
theorem blocksMatch_emptyImage : BlocksMatch emptyImage := by
  have hfree : ∀ b < 1014, ¬ Free emptyImage b → b < 30 := by decide +kernel
  refine ⟨fun s b hs => ?_, fun b hin hused => ⟨(1, 0), owner_emptyImage.2 ⟨rfl, ?_⟩⟩⟩
  · obtain ⟨rfl, rfl⟩ := owner_emptyImage.1 hs
    have hb := consistent_emptyImage.owned.inData hs
    exact ⟨hb.1, hb.2, fun t ht => (owner_emptyImage.1 ht).1⟩
  · rw [superOf_emptyImage] at hin
    have hlow : 29 ≤ b := hin.1
    have := hfree b hin.2 hused
    omega

/-- A file is made on the empty file system, gets 600 bytes in two blocks, and is dropped again,
with what the callers of these functions see before each of them. -/
theorem newFile_steps :
    ((inodeMachine emptyImage).step (.bootFrom emptyImage) (0, .begin)).any fun s₁ =>
      ((inodeMachine emptyImage).step s₁ (0, .alloc tFile)).any fun s₂ =>
      ((inodeMachine emptyImage).step s₂ (0, .lock 1)).any fun s₃ =>
      ((inodeMachine emptyImage).step s₃ (0, .write 1 (List.replicate 600 7) 0)).any fun s₄ =>
      ((inodeMachine emptyImage).step s₄ (0, .unlock 1)).any fun s₅ =>
      ((inodeMachine emptyImage).step s₅ (0, .put 1)).any fun t => decide (s₁.log.busy = true ∧
        (0 < (s₂.inode 1).ref ∧ (s₂.inode 1).inum = 2 ∧ s₂.log.start = 1014 ∧
          s₂.bufs.current 1 = emptyImage 1) ∧
        ((0 < (s₃.inode 1).ref ∧ (s₃.inode 1).busy = true ∧ (s₃.inode 1).valid = true ∧
          s₃.log.busy = true) ∧
          s₃.log.start = 1014 ∧ s₃.bufs.current 1 = emptyImage 1 ∧ s₃.bufs.current 28 =
          emptyImage 28) ∧
        (0 < (s₄.inode 1).ref ∧ (s₄.inode 1).busy = true ∧ s₄.bufs.current 28 ≠ emptyImage 28) ∧
        (0 < (s₅.inode 1).ref ∧ s₅.log.busy = true) ∧ t.bufs.current 28 = emptyImage 28) := by
  decide +kernel

/-- A file is made on the empty file system, written to, and dropped again: the bitmap is right
when it has its two blocks, and when they are free again. -/
theorem blocks_match_bitmap_emptyImage : ∃ s₁ s₂ s₃ s₄ s₅ t,
    (inodeMachine emptyImage).step (.bootFrom emptyImage) (0, .begin) = some s₁ ∧
    (inodeMachine emptyImage).step s₁ (0, .alloc tFile) = some s₂ ∧
    (inodeMachine emptyImage).step s₂ (0, .lock 1) = some s₃ ∧
    (inodeMachine emptyImage).step s₃ (0, .write 1 (List.replicate 600 7) 0) = some s₄ ∧
    (inodeMachine emptyImage).step s₄ (0, .unlock 1) = some s₅ ∧
    (inodeMachine emptyImage).step s₅ (0, .put 1) = some t ∧
    s₄.bufs.current 28 ≠ emptyImage 28 ∧ (∃ a, s₄.View a ∧ BlocksMatch a.bufs.data) ∧
    t.bufs.current 28 = emptyImage 28 ∧ ∃ a, t.View a ∧ BlocksMatch a.bufs.data := by
  have hsteps := newFile_steps
  simp only [Option.any_eq_true, decide_eq_true_eq] at hsteps
  obtain ⟨s₁, h₁, s₂, h₂, s₃, h₃, s₄, h₄, s₅, h₅, t, ht, hbusy, ⟨href, hinum, hlog, hsuper⟩,
    ⟨hlocked, hlog₃, hsuper₃, hbitmap⟩, ⟨href₄, hbusy₄, hwritten⟩, hput, hfreed⟩ := hsteps
  have hrun₃ : (inodeMachine emptyImage).Runs (fun s act => ∀ a, s.View a → act.2.Valid a)
      (.bootFrom emptyImage) s₃ := by
    refine .tail (.tail (.tail .refl (fun _ _ => by trivial) h₁) (fun a ha => ?_) h₂)
      (fun a ha => ?_) h₃
    · rw [InodeAct.Valid, ← ha.log]
      exact hbusy
    · rw [InodeAct.Valid, ← ha.inode, hinum, (spare_of_view ha hlog hsuper).1, superOf_emptyImage]
      exact ⟨href, by decide, by decide⟩
  have hrun₄ := hrun₃.tail (fun a ha => ?_) h₄
  · have hrun := (hrun₄.tail (fun a ha => ?_) h₅).tail (fun a ha => ?_) ht
    · exact ⟨s₁, s₂, s₃, s₄, s₅, t, h₁, h₂, h₃, h₄, h₅, ht, hwritten,
        (blocks_match_bitmap consistent_emptyImage blocksMatch_emptyImage hrun₄).1, hfreed,
        (blocks_match_bitmap consistent_emptyImage blocksMatch_emptyImage hrun).1⟩
    · rw [InodeAct.Valid, ← ha.inode]
      exact ⟨href₄, hbusy₄⟩
    · rw [InodeAct.Valid, ← ha.inode, ← ha.log]
      exact hput
  · rw [InodeAct.Valid, List.length_replicate]
    refine ⟨?_, by decide, fun hmax => (missing_le_nSlots hmax).trans ?_⟩
    · rw [InodeAct.Locked, ← ha.inode, ← ha.log]
      exact hlocked
    · rw [(spare_of_view ha hlog₃ hsuper₃).2 hbitmap]
      decide +kernel

end MCertikos
