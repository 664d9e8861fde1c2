import MCertikos.Fs.ByteArray
import MCertikos.Fs.Freeing

/-!
# Intact file systems

The states of a consistent file system in which the inode cache is in order too: the entries in use
are in the table, and those with a copy of an inode have one that is allocated. Every operation on
inodes leaves the file system intact, and none of them lets a block get lost.
-/

namespace MCertikos

open Program Ownership Function

/-- The file system is consistent, and the inode cache is in order. -/
structure Intact (a : FsState Vol) (D : Nat → Dinode) : Prop where
  consistent : Consistent a D
  entries : Entries a
  live : ∀ e i, a.Opens e i → Allocated (superOf a.bufs.data) D i

/-- No block in use is lost. -/
def NoLeak (a : FsState Vol) (D : Nat → Dinode) : Prop :=
  Tight (owner a.bufs.data D) (used a.bufs.data)

section
variable {A : Allow} {pid ip i e : Nat} {a a' : FsState Vol} {g g' : Ghost}
  {D D' : Nat → Dinode} {x : Inode}

namespace Intact

section
variable (h : Intact a D)
include h

/-- No budget for log and blocks is needed if runs may stop for lack of them. -/
theorem fit (U : Finset Nat) {m : Nat} (hm : m ≤ spare a.bufs.data) (hlax : A.Lax) :
    Fit A a ⟨D, U, m⟩ := h.consistent.fit hm (.inl hlax)

theorem begun : Intact a.begun D :=
  ⟨h.consistent.begun, h.entries.of_eq fun _ => ⟨rfl, rfl⟩, fun e i he =>
    h.live e i ⟨he.ref, he.valid, he.inum⟩⟩

theorem committed : Intact a.committed D :=
  ⟨⟨h.consistent.toTracks.committed, h.consistent.full⟩, h.entries.of_eq fun _ => ⟨rfl, rfl⟩,
    fun e i he => h.live e i ⟨he.ref, he.valid, he.inum⟩⟩

/-- An entry is changed. -/
theorem setEntry (hc : Consistent (a.setEntry ip x) D) (he : Entries (a.setEntry ip x))
    (hlive : 0 < x.ref → x.valid = true → Allocated (superOf a.bufs.data) D x.inum) :
    Intact (a.setEntry ip x) D := by
  refine ⟨hc, he, fun e i ho => ?_⟩
  obtain ⟨href, hvalid, hi⟩ := ho
  rcases eq_or_ne e ip with rfl | hne
  · rw [FsState.setEntry_self] at href hvalid hi
    exact hi ▸ hlive href hvalid
  · rw [FsState.setEntry_of_ne hne] at href hvalid hi
    exact h.live e i ⟨href, hvalid, hi⟩

/-- An entry that stays for the same inode. -/
theorem keepEntry (hinum : x.inum = (a.inode ip).inum) (hdev : x.dev = (a.inode ip).dev)
    (hdin : x.valid = true → x.din = (a.inode ip).din ∧ (a.inode ip).valid = true)
    (href : 0 < x.ref → 0 < (a.inode ip).ref) (hnonneg : 0 ≤ x.ref) :
    Intact (a.setEntry ip x) D := by
  refine h.setEntry (h.consistent.keepEntry hinum hdin href) (h.entries.setEntry hnonneg
    (fun hr => h.entries.range ip (href hr)) fun hr => hdev.trans (h.entries.dev ip (href hr)))
    fun hr hv => ?_
  rw [hinum]
  exact h.live ip _ ⟨href hr, (hdin hv).2, rfl⟩

theorem unlock : Intact (a.setEntry ip { a.inode ip with busy := false }) D :=
  h.keepEntry rfl rfl (fun hv => ⟨rfl, hv⟩) id (h.entries.nonneg ip)

/-- A reference is dropped. -/
theorem drop (href : 0 < (a.inode ip).ref) :
    Intact (a.setEntry ip { a.inode ip with ref := (a.inode ip).ref - 1 }) D := by
  refine h.keepEntry rfl rfl (fun hv => ⟨rfl, hv⟩) (fun _ => href) ?_
  dsimp only
  omega

theorem gets (hg : Gets a i ip x) : Intact (a.setEntry ip x) D := by
  refine h.setEntry (hg.consistent h.entries h.consistent) (hg.entries h.entries) fun _ hv => ?_
  rcases (h.entries.nonneg ip).lt_or_eq with hpos | hzero
  · obtain ⟨rfl, -⟩ := hg.old hpos
    exact h.live ip _ ⟨hpos, hv, rfl⟩
  · exact absurd ((hg.new hzero.symm).2.1.symm.trans hv) nofun

/-- An inode is locked, and read if necessary. -/
theorem lock (hinum : (a.inode ip).inum = i) (hpos : 0 < i)
    (hi : i < (superOf a.bufs.data).ninodes.toNat)
    (htype : (a.inode ip).valid = false → (D i).type ≠ 0) : Intact (a.lockInode ip (D i)) D := by
  refine h.setEntry (h.consistent.lockInode hinum)
    (h.entries.of_eq (FsState.setEntry_same rfl rfl)) fun hr _ => ?_
  dsimp only at hr ⊢
  rw [hinum]
  cases hv : (a.inode ip).valid with
  | true => exact h.live ip i ⟨hr, hv, hinum⟩
  | false => exact ⟨hpos, hi, htype hv⟩

end

/-- A file is written. -/
theorem written {off : BitVec 32} {src : List Byte} (h : Intact a g.D)
    (hw : Written A ip i off src a g a' g') : Intact a' g'.D :=
  ⟨hw.consistent h.consistent, h.entries.of_frame hw.frame, fun e j he =>
    hw.allocated_iff.2 (h.live e j (hw.frame.opens_iff.1 he))⟩

/-- An inode is freed. -/
theorem reclaimed (h : Intact a g.D) (hip : a.Opens ip i) (hr : Reclaimed A ip i a g a' D') :
    Intact a' D' := by
  refine ⟨hr.consistent h.consistent, hr.entries h.entries, fun e j he => ?_⟩
  have hne : e ≠ ip := fun heq => by
    have := he.ref
    rw [heq, hr.entry] at this
    omega
  have ho : a.Opens e j := by
    have hent := hr.inode e hne
    exact ⟨hent ▸ he.ref, hent ▸ he.valid, hent ▸ he.inum⟩
  refine hr.allocated_iff.2 ⟨fun hji => hne ?_, h.live e j ho⟩
  exact h.consistent.unique e ip ho.ref hip.ref (ho.inum.trans (hji.trans hip.inum.symm))

/-- An inode that is not allocated has no copy in memory. -/
theorem not_opens (h : Intact a D) (h0 : (D i).type = 0) (e : Nat) : ¬ a.Opens e i := fun ho =>
  (h.live e i ho).2.2 h0

/-- An inode is allocated. -/
theorem alloc {type : BitVec 16} (h : Intact a D) (hi : i < (superOf a.bufs.data).ninodes.toNat)
    (h0 : (D i).type = 0) :
    Intact (a.putInode i (.fresh type)) (update D i (.fresh type)) := by
  refine ⟨h.consistent.allocInode hi h0 (h.not_opens h0), h.entries.of_eq fun _ => ⟨rfl, rfl⟩,
    fun e j he => ?_⟩
  have ho : a.Opens e j := ⟨he.ref, he.valid, he.inum⟩
  have hne : j ≠ i := fun hji => h.not_opens h0 e (hji ▸ ho)
  rw [FsState.putInode_data, superOf_putInode, Allocated, update_of_ne hne]
  exact h.live e j ho

end Intact

theorem NoLeak.alloc {type : BitVec 16} (h : NoLeak a D) (hc : Intact a D)
    (hi : i < (superOf a.bufs.data).ninodes.toNat) (h0 : (D i).type = 0) :
    NoLeak (a.putInode i (.fresh type)) (update D i (.fresh type)) := by
  have hfit : Fit ⟨fun _ => True, True⟩ a ⟨D, ∅, 0⟩ := hc.fit ∅ (Nat.zero_le _) ⟨trivial, trivial⟩
  rw [NoLeak, owner_fresh hc.consistent.owned hi h0, FsState.putInode_data,
    used_congr hfit.logStart_le superOf_putInode fun x hx _ => Disk.putInode_of_ge hi hx]
  exact h

/-! ## Other fields of inodes -/

/-- An inode is changed in memory and on disk. -/
def FsState.setInode (a : FsState Vol) (ip i : Nat) (din : Dinode) : FsState Vol :=
  FsState.putInode { a with inode := a.inode.setDin ip din } i din

section
variable {din : Dinode}

theorem FsState.frame_setInode : a.Frame ip (a.setInode ip i din) := .trans .setDin .store

@[simp] theorem FsState.setInode_data : (a.setInode ip i din).bufs.data =
    a.bufs.data.putInode i din := rfl

/-- The assignments to fields of an inode, but for its pointers and its type, with `inode_update`
after them. -/
theorem vwp_setInode {Q : Unit → FsState Vol → Prop} (h : Fit A a g) (hip : a.Opens ip i)
    (hi : i < (superOf a.bufs.data).ninodes.toNat) (haddrs : din.addrs = (g.D i).addrs)
    (htype : din.type = (g.D i).type) (hbusy : a.log.busy = true) (hheld : a.bufs.held = ∅)
    (hQ : Q () (a.setInode ip i din)) : vwp A pid (do setDinode ip din; inodeUpdate ip) Q a := by
  refine vwp_bind (vwp_setDinode (vwp_inodeUpdate (h.setDin hip haddrs htype)
    (FsState.Frame.setDin.opens_iff.2 hip) hi hbusy hheld ?_))
  dsimp only
  rwa [update_self]

theorem Fit.setInode (h : Fit A a g) (hip : a.Opens ip i)
    (hi : i < (superOf a.bufs.data).ninodes.toNat) (haddrs : din.addrs = (g.D i).addrs)
    (htype : din.type = (g.D i).type) (hU : iblock i ∈ g.U) :
    Fit A (a.setInode ip i din) { g with D := update g.D i din } :=
  (h.setDin hip haddrs htype).putInode hi hU

/-- Owners do not depend on the other fields. -/
theorem owner_setInode (h : Owned a.bufs.data D) (hi : i < (superOf a.bufs.data).ninodes.toNat)
    (haddrs : din.addrs = (D i).addrs) (htype : din.type = (D i).type) :
    owner (a.setInode ip i din).bufs.data (update D i din) = owner a.bufs.data D :=
  owner_putInode h hi (owner_setFields haddrs htype)

/-- Links and sizes may change. -/
theorem Intact.setInode (h : Intact a D) (hip : a.Opens ip i) (haddrs : din.addrs = (D i).addrs)
    (htype : din.type = (D i).type) (hsize : din.size = (D i).size) :
    Intact (a.setInode ip i din) (update D i din) := by
  have hi := (h.live ip i hip).2.1
  have hlax : Allow.Lax ⟨fun _ => True, True⟩ := ⟨trivial, trivial⟩
  have hfit := (h.fit {iblock i} (Nat.zero_le _) hlax).setInode hip hi haddrs
    htype (Finset.mem_singleton_self _)
  have hs : superOf (a.setInode ip i din).bufs.data = superOf a.bufs.data := superOf_putInode
  have hown : owner (a.setInode ip i din).bufs.data (update D i din) = owner a.bufs.data D :=
    owner_setInode h.consistent.owned hi haddrs htype
  have halloc : ∀ j, Allocated (superOf (a.setInode ip i din).bufs.data) (update D i din) j ↔
      Allocated (superOf a.bufs.data) D j := fun j => by
    rw [hs]
    exact allocated_update htype
  refine ⟨⟨⟨hfit.geo, hfit.owned, fun j hj => ?_, hfit.cached, hfit.unique⟩, fun j hj => ?_⟩,
    h.entries.of_frame FsState.frame_setInode, fun e j he => ?_⟩
  · rw [hs] at hj
    rw [FsState.setInode_data, dinodeAt_putInode]
    split
    · next hji => rw [hji, update_self]
    · next hji => rw [update_of_ne hji, h.consistent.disk j hj]
  · have hfull := h.consistent.full j ((halloc j).1 hj)
    have hsz : (update D i din j).size = (D j).size := by
      rcases eq_or_ne j i with rfl | hne
      · rw [update_self, hsize]
      · rw [update_of_ne hne]
    rw [Full, hown, hsz]
    exact hfull
  · exact (halloc j).2 (h.live e j (FsState.frame_setInode.opens_iff.1 he))

theorem NoLeak.setInode (h : NoLeak a D) (hs : Intact a D) (hip : a.Opens ip i)
    (haddrs : din.addrs = (D i).addrs) (htype : din.type = (D i).type) :
    NoLeak (a.setInode ip i din) (update D i din) := by
  have hi := (hs.live ip i hip).2.1
  have hfit : Fit ⟨fun _ => True, True⟩ a ⟨D, ∅, 0⟩ := hs.fit ∅ (Nat.zero_le _) ⟨trivial, trivial⟩
  rw [NoLeak, owner_setInode hs.consistent.owned hi haddrs htype, FsState.setInode_data,
    used_congr hfit.logStart_le superOf_putInode fun x hx _ => Disk.putInode_of_ge hi hx]
  exact h

end

end

/-! ## The start -/

theorem Disk.Consistent.intact {d : Disk} (h : d.Consistent) :
    Intact (MCertikos.mounted d) (dinodeAt d) :=
  ⟨h.mounted, entries_mounted, fun _ _ he => absurd (mounted_valid.symm.trans he.valid) nofun⟩

end MCertikos
