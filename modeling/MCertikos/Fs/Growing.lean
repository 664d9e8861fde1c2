import MCertikos.Fs.Alloc
import MCertikos.Fs.Pointers

/-!
# Inodes that grow

What `bmap` does to a volume: it finds the block of a part of the contents of an inode, or
allocates it, with an indirect block if there is none. A thread that writes works with a budget:
the sectors that it may log and the number of blocks that it may still allocate. A new block moves
from the second to the first. If there are few enough of both, the transaction fits into the log.
-/

namespace MCertikos

open Program BitField Function

/-! ## Inodes in memory and on disk -/

/-- The entry `ip` of the inode cache has a valid copy of the inode `i`. -/
structure FsState.Opens {B : Type} (a : FsState B) (ip i : Nat) : Prop where
  ref : 0 < (a.inode ip).ref
  valid : (a.inode ip).valid = true
  inum : (a.inode ip).inum = i

/-- What a thread knows about a volume: the inodes, as they are in memory, or else on disk; the
sectors that it may log; and the number of blocks that it may allocate. -/
structure Ghost where
  D : Nat → Dinode
  U : Finset Nat
  m : Nat

/-- The log has room for what the thread may do. -/
structure Ghost.Fits (g : Ghost) (a : FsState Vol) : Prop where
  distinct : a.log.Distinct
  sectors : a.log.sectors ⊆ g.U
  card : g.U.card + g.m ≤ 7
  size : 9 ≤ a.log.size
  single : (superOf a.bufs.data).size.toNat ≤ bpb
  bitmap : (superOf a.bufs.data).bitmapStart ∈ g.U

/-- The volume is as the thread knows it: the blocks are owned by the inodes; no two entries of the
inode cache in use are for one inode; and the blocks that it may allocate are there. If it is to
have enough space in the log, it is as in `Fits`. -/
structure Fit (A : Allow) (a : FsState Vol) (g : Ghost) : Prop where
  geo : Geometry a.bufs.data a.log
  owned : Owned a.bufs.data g.D
  cached : ∀ e i, a.Opens e i → (a.inode e).din = g.D i
  unique : ∀ e e', 0 < (a.inode e).ref → 0 < (a.inode e').ref → (a.inode e).inum =
    (a.inode e').inum → e = e'
  spare : g.m ≤ spare a.bufs.data
  budget : A.Lax ∨ g.Fits a

/-- What the functions that change the contents of one inode leave alone. -/
structure FsState.Frame (ip : Nat) (a a' : FsState Vol) : Prop where
  inode : ∀ e ≠ ip, a'.inode e = a.inode e
  entry : ∃ din, a'.inode ip = { a.inode ip with din }
  file : a'.file = a.file
  openfiles : a'.openfiles = a.openfiles
  cwd : a'.cwd = a.cwd
  start : a'.log.start = a.log.start
  size : a'.log.size = a.log.size
  busy : a'.log.busy = a.log.busy
  held : a'.bufs.held = a.bufs.held

section
variable {A : Allow} {a a' a'' : FsState Vol} {g g' g'' : Ghost} {ip i x : Nat}

namespace FsState.Frame

theorem refl : a.Frame ip a := ⟨fun _ _ => rfl, ⟨_, rfl⟩, rfl, rfl, rfl, rfl, rfl, rfl, rfl⟩

theorem trans (h : a.Frame ip a') (h' : a'.Frame ip a'') : a.Frame ip a'' where
  inode e he := (h'.inode e he).trans (h.inode e he)
  entry := by
    obtain ⟨din, hd⟩ := h.entry
    obtain ⟨din', hd'⟩ := h'.entry
    exact ⟨din', by rw [hd', hd]⟩
  file := h'.file.trans h.file
  openfiles := h'.openfiles.trans h.openfiles
  cwd := h'.cwd.trans h.cwd
  start := h'.start.trans h.start
  size := h'.size.trans h.size
  busy := h'.busy.trans h.busy
  held := h'.held.trans h.held

/-- A sector is logged. -/
theorem store {v : Block} : a.Frame ip (a.store x v) :=
  ⟨fun _ _ => rfl, ⟨_, rfl⟩, rfl, rfl, rfl, rfl, rfl, rfl, rfl⟩

/-- The inode is changed in memory. -/
theorem setDin {din : Dinode} : a.Frame ip { a with inode := a.inode.setDin ip din } :=
  ⟨fun _ he => update_of_ne he _ _, ⟨din, update_self _ _ _⟩, rfl, rfl, rfl, rfl, rfl,
    rfl, rfl⟩

/-- The identity of the entries of the inode cache. -/
theorem same (h : a.Frame ip a') (e : Nat) : (a'.inode e).ref = (a.inode e).ref ∧
    (a'.inode e).valid = (a.inode e).valid ∧ (a'.inode e).inum = (a.inode e).inum := by
  rcases eq_or_ne e ip with rfl | hne
  · obtain ⟨din, hd⟩ := h.entry
    rw [hd]
    exact ⟨rfl, rfl, rfl⟩
  · rw [h.inode e hne]
    exact ⟨rfl, rfl, rfl⟩

theorem opens_iff (h : a.Frame ip a') {e : Nat} : a'.Opens e i ↔ a.Opens e i := by
  obtain ⟨href, hvalid, hinum⟩ := h.same e
  constructor
  · rintro ⟨h1, h2, h3⟩
    exact ⟨href ▸ h1, hvalid ▸ h2, hinum ▸ h3⟩
  · rintro ⟨h1, h2, h3⟩
    exact ⟨href ▸ h1, hvalid ▸ h2, hinum ▸ h3⟩

end FsState.Frame

theorem Geometry.congr {d d' : Disk} {l l' : Log} (h : Geometry d l) (hs : superOf d' = superOf d)
    (hstart : l'.start = l.start) (hsize : l'.size = l.size) : Geometry d' l' :=
  ⟨by rw [hs, hstart]; exact h.start, by rw [hs, hstart, hsize]; exact h.size,
    by rw [hs, hstart]; exact h.fits⟩

/-- A sector that may be logged is logged. -/
theorem Ghost.Fits.store (h : g.Fits a) (hx : x ∈ g.U) {v : Block}
    (hs : superOf (a.store x v).bufs.data = superOf a.bufs.data) : g.Fits (a.store x v) where
  distinct := h.distinct.record
  sectors := by
    have : (a.store x v).log.sectors = insert x a.log.sectors := Log.sectors_record
    rw [this]
    exact Finset.insert_subset hx h.sectors
  card := h.card
  size := h.size
  single := by rw [hs]; exact h.single
  bitmap := by rw [hs]; exact h.bitmap

/-- Enough room for one more sector. -/
theorem Ghost.room (h : A.Lax ∨ g.Fits a) (hheld : a.bufs.held.card ≤ 1) : A.Room a := by
  refine h.imp id fun hf => ?_
  have hcard := Finset.card_le_card hf.sectors
  rw [hf.distinct.card_sectors] at hcard
  have := hf.card
  have := hf.size
  exact ⟨by omega, by omega, hheld⟩

namespace Fit

/-- The log is behind the data blocks. -/
theorem logStart_le (h : Fit A a g) :
    (superOf a.bufs.data).logStart ≤ (superOf a.bufs.data).size.toNat := by
  rw [← h.geo.start, ← h.geo.size]
  omega

theorem dataStart_le (h : Fit A a g) :
    (superOf a.bufs.data).dataStart ≤ (superOf a.bufs.data).size.toNat := by
  have := h.geo.fits
  have := h.geo.size
  omega

theorem home_of_lt (h : Fit A a g) (hx : x < (superOf a.bufs.data).logStart) :
    ¬ InLog a.log.start a.log.size x := fun hin => by
  have := hin.1
  rw [h.geo.start] at this
  omega

theorem home_of_lt_dataStart (h : Fit A a g) (hx : x < (superOf a.bufs.data).dataStart) :
    ¬ InLog a.log.start a.log.size x := by
  refine h.home_of_lt (hx.trans_le ?_)
  rw [← h.geo.start]
  exact h.geo.fits

theorem room (h : Fit A a g) (hheld : a.bufs.held.card ≤ 1) : A.Room a := Ghost.room h.budget hheld

/-- A change of the inode `i`, of which the entry `ip` is the copy in memory. -/
theorem of_frame (h : Fit A a g) (hip : a.Opens ip i) (hf : a.Frame ip a')
    (hs : superOf a'.bufs.data = superOf a.bufs.data) (hother : ∀ j ≠ i, g'.D j = g.D j)
    (hdin : (a'.inode ip).din = g'.D i) (howned : Owned a'.bufs.data g'.D)
    (hspare : g'.m ≤ MCertikos.spare a'.bufs.data) (hbudget : A.Lax ∨ g'.Fits a') :
    Fit A a' g' where
  geo := h.geo.congr hs hf.start hf.size
  owned := howned
  cached e j he := by
    rcases eq_or_ne e ip with rfl | hne
    · obtain rfl : i = j := (hip.inum.symm.trans (hf.same e).2.2.symm).trans he.inum
      exact hdin
    · have he' := hf.opens_iff.1 he
      have hji : j ≠ i := fun hji => hne (h.unique e ip he'.ref hip.ref (by
        rw [he'.inum, hip.inum, hji]))
      rw [hf.inode e hne, hother j hji]
      exact h.cached e j he'
  unique e e' hr hr' hi := by
    rw [(hf.same e).1] at hr
    rw [(hf.same e').1] at hr'
    rw [(hf.same e).2.2, (hf.same e').2.2] at hi
    exact h.unique e e' hr hr' hi
  spare := hspare
  budget := hbudget

end Fit

/-! ## Allocation within the budget -/

/-- The single bitmap block. -/
theorem bblock_single {d : Disk} {f : Nat} (hsingle : (superOf d).size.toNat ≤ bpb)
    (hf : f < (superOf d).size.toNat) :
    bblock f (superOf d).ninodes.toNat = (superOf d).bitmapStart := by
  rw [bblock, Superblock.bitmapStart, ipb, Nat.div_eq_of_lt (hf.trans_le hsingle)]
  omega

/-- A block that is allocated is taken from the budget. -/
theorem Ghost.Fits.alloc {f : Nat} {D : Nat → Dinode} {U : Finset Nat} {m : Nat}
    (h : Ghost.Fits ⟨D, U, m + 1⟩ a) (hf : (superOf a.bufs.data).InData f)
    (hsize : f < (superOf a.bufs.data).size.toNat) :
    Ghost.Fits ⟨D, insert f U, m⟩ (a.alloc f) := by
  have hbb := bblock_single h.single hsize
  have hs : superOf (a.alloc f).bufs.data = superOf a.bufs.data := superOf_alloc hf.1
  refine ⟨h.distinct.record.record, ?_, ?_, h.size, by rw [hs]; exact h.single, ?_⟩
  · have : (a.alloc f).log.sectors =
      insert f (insert (bblock f (superOf a.bufs.data).ninodes.toNat)
        a.log.sectors) := by
      rw [← Log.sectors_record, ← Log.sectors_record]
      rfl
    rw [this, hbb]
    exact Finset.insert_subset_insert f (Finset.insert_subset h.bitmap h.sectors)
  · have hle := Finset.card_insert_le f U
    have := h.card
    dsimp only at this ⊢
    omega
  · rw [hs]
    exact Finset.mem_insert_of_mem h.bitmap

/-- `block_alloc` takes a block out of the budget. -/
theorem vwp_blockAlloc_fit {pid m : Nat} {D : Nat → Dinode} {U : Finset Nat}
    {Q : Nat → FsState Vol → Prop} (h : Fit A a ⟨D, U, m + 1⟩) (hbusy : a.log.busy = true)
    (hheld : ∀ x ∈ a.bufs.held, (superOf a.bufs.data).dataStart ≤ x ∧ ¬ Free a.bufs.data x)
    (hcard : a.bufs.held.card ≤ 1)
    (hQ : ∀ f rest, frees a.bufs.data = f :: rest → (superOf a.bufs.data).InData f →
      Free a.bufs.data f → Q f (a.alloc f)) : vwp A pid blockAlloc Q a := by
  obtain ⟨f, rest, hr, hin, hfree⟩ := exists_spare h.owned ((Nat.succ_pos m).trans_le h.spare)
  refine vwp_blockAlloc ⟨h.geo, hbusy, hheld⟩ hr hin (h.room hcard) (fun v => ?_)
    (hQ f rest hr hin hfree)
  refine h.budget.imp id fun hf => ?_
  have hsize : f < (superOf a.bufs.data).size.toNat := hin.2.trans_le h.logStart_le
  have hsub : insert (bblock f (superOf a.bufs.data).ninodes.toNat) a.log.sectors ⊆ U := by
    rw [bblock_single hf.single hsize]
    exact Finset.insert_subset hf.bitmap hf.sectors
  have hle := Finset.card_le_card hsub
  rw [← Log.sectors_record, hf.distinct.record.card_sectors] at hle
  have := hf.card
  have := hf.size
  dsimp only at *
  exact ⟨by simp only [FsState.store]; omega, by
    simp only [FsState.store, Log.record_size]; omega, hcard⟩

/-! ## Growth within the budget -/

/-- The inode `i` has got the blocks that the budget has lost, at pointers in `K`. -/
structure Grown (A : Allow) (ip i : Nat) (K : Finset Nat) (a : FsState Vol) (g : Ghost)
    (a' : FsState Vol) (g' : Ghost) : Prop where
  fit : Fit A a' g'
  frame : a.Frame ip a'
  le : g'.m ≤ g.m
  grows : Grows i K (g.m - g'.m) a.bufs.data g.D a'.bufs.data g'.D
  sub : g.U ⊆ g'.U
  new : ∀ s b, owner a.bufs.data g.D s = none → owner a'.bufs.data g'.D s = some b → b ∈ g'.U

namespace Grown

variable {K L : Finset Nat}

theorem refl (h : Fit A a g) : Grown A ip i K a g a g where
  fit := h
  frame := .refl
  le := le_rfl
  grows := by
    rw [Nat.sub_self]
    exact .refl
  sub := subset_rfl
  new s b hn hs := absurd (hn.symm.trans hs) nofun

theorem mono (h : Grown A ip i K a g a' g') (hK : K ⊆ L) : Grown A ip i L a g a' g' :=
  { h with grows := h.grows.mono hK }

theorem trans (h : Grown A ip i K a g a' g') (h' : Grown A ip i K a' g' a'' g'') :
    Grown A ip i K a g a'' g'' where
  fit := h'.fit
  frame := h.frame.trans h'.frame
  le := h'.le.trans h.le
  grows := by
    have hsub : g.m - g''.m = (g.m - g'.m) + (g'.m - g''.m) := by
      have := h.le
      have := h'.le
      omega
    rw [hsub]
    exact h.grows.trans h'.grows
  sub := h.sub.trans h'.sub
  new s b hn hs := by
    cases hmid : owner a'.bufs.data g'.D s with
    | none => exact h'.new s b hmid hs
    | some b' =>
      obtain rfl := Option.some.inj ((h'.grows.kept s b' hmid).symm.trans hs)
      exact h'.sub (h.new s b' hn hmid)

/-- One block is linked. -/
theorem of_linked {k f m : Nat} {D D' : Nat → Dinode} {U : Finset Nat} {rest : List Nat}
    (h : Fit A a ⟨D, U, m + 1⟩) (hip : a.Opens ip i) (hf : a.Frame ip a')
    (hl : Linked i k f a.bufs.data D a'.bufs.data D') (hr : frees a.bufs.data = f :: rest)
    (hin : (superOf a.bufs.data).InData f) (hdin : (a'.inode ip).din = D' i)
    (hbudget : A.Lax ∨ Ghost.Fits ⟨D', insert f U, m⟩ a') :
    Grown A ip i {k} a ⟨D, U, m + 1⟩ a' ⟨D', insert f U, m⟩ where
  fit := by
    refine h.of_frame hip hf hl.super hl.other hdin (hl.owned h.owned) ?_ hbudget
    have := hl.spare hr hin
    have := h.spare
    dsimp only at *
    omega
  frame := hf
  le := Nat.le_succ m
  grows := by
    rw [show m + 1 - m = 1 by omega]
    exact .of_linked hl hr hin
  sub := Finset.subset_insert f U
  new s b hn hs := by
    rw [hl.owner] at hs
    rcases eq_or_ne s (i, k) with rfl | hne
    · rw [update_self] at hs
      cases hs
      exact Finset.mem_insert_self _ _
    · rw [update_of_ne hne] at hs
      exact absurd (hn.symm.trans hs) nofun

end Grown

/-- A block of the inode is free of the log and in use. -/
theorem Fit.owned_block (h : Fit A a g) {s : Nat × Nat} {b : Nat}
    (hs : owner a.bufs.data g.D s = some b) :
    ¬ InLog a.log.start a.log.size b ∧ (superOf a.bufs.data).dataStart ≤ b ∧
    ¬ Free a.bufs.data b :=
  ⟨h.home_of_lt (h.owned.inData hs).1.2, (h.owned.inData hs).1.1, (h.owned.inData hs).2⟩

section
variable {pid bn k : Nat} {Q : Nat → FsState Vol → Prop}

section
variable (h : Fit A a g) (hip : a.Opens ip i) (hi : Allocated (superOf a.bufs.data) g.D i)
  (hbusy : a.log.busy = true) (hheld : a.bufs.held = ∅) {Q : Nat → FsState Vol → Prop}
include h hip hi hbusy hheld

/-- A missing direct pointer, or that of the indirect block, is filled. -/
theorem vwp_linkAddr (hk : k ≤ nDirect) (h0 : (g.D i).addr k = 0) (hm : 0 < g.m)
    (hQ : ∀ f a' g', Grown A ip i {k} a g a' g' → owner a'.bufs.data g'.D (i, k) = some f →
      Q f a') : vwp A pid (do
      let addr ← blockAlloc
      setDinode ip ((g.D i).setAddr k (BitVec.ofNat 32 addr))
      return addr) Q a := by
  obtain ⟨D, U, m⟩ := g
  obtain ⟨m, rfl⟩ : ∃ n, m = n + 1 := ⟨m - 1, by dsimp only at hm; omega⟩
  refine vwp_bind (vwp_blockAlloc_fit h hbusy (by simp [hheld]) (by simp [hheld])
    fun f rest hr hin hfree => vwp_bind (vwp_setDinode (vwp_pure ?_)))
  have hl := linked_setAddr h.owned hi hk h.logStart_le hin hfree h0
  refine hQ f _ ⟨update D i ((D i).setAddr k (BitVec.ofNat 32 f)), insert f U, m⟩
    (.of_linked h hip (.trans (.trans .store .store) .setDin) hl hr hin ?_ ?_) ?_
  · simp [InodeCache.setDin]
  · refine h.budget.imp id fun hf => ?_
    obtain ⟨h1, h2, h3, h4, h5, h6⟩ := hf.alloc hin (hin.2.trans_le h.logStart_le)
    exact ⟨h1, h2, h3, h4, h5, h6⟩
  · exact congrFun hl.owner (i, k) |>.trans (update_self _ _ _)

theorem vwp_indirectBlock (hm : missing a.bufs.data g.D i {nDirect} ≤ g.m)
    (hQ : ∀ x a' g', Grown A ip i {nDirect} a g a' g' → owner a'.bufs.data g'.D (i, nDirect) =
      some x → Q x a') :
    vwp A pid (indirectBlock ip) Q a := by
  refine vwp_bind (vwp_readInode ?_)
  rw [h.cached ip i hip]
  refine vwp_ite (fun h0 => ?_) fun hne => ?_
  · have hnone : owner a.bufs.data g.D (i, nDirect) = none := by
      rw [owner_eq_none hi nDirect_lt_nSlots, ptr_of_le le_rfl, h0]
      rfl
    refine vwp_linkAddr h hip hi hbusy hheld le_rfl h0 (hm.trans_lt' ?_) hQ
    rw [missing, Finset.filter_true_of_mem (by simpa using hnone)]
    exact Nat.one_pos
  · exact vwp_pure (hQ _ a g (.refl h) (owner_indirect hi hne))

end

theorem Fit.hold (h : Fit A a g) : Fit A (a.hold x) g :=
  ⟨h.geo, h.owned, fun e j he => h.cached e j ⟨he.ref, he.valid, he.inum⟩, h.unique, h.spare,
    h.budget.imp id fun hf => ⟨hf.distinct, hf.sectors, hf.card, hf.size, hf.single, hf.bitmap⟩⟩

theorem FsState.release_alloc_hold {f : Nat} (hx : x ∉ a.bufs.held) :
    ((a.hold x).alloc f).release x = a.alloc f := by
  simp only [hold, alloc, store, release, Finset.erase_insert hx]

theorem FsState.release_store_alloc_hold {f : Nat} {v : Block} (hx : x ∉ a.bufs.held) :
    (((a.hold x).alloc f).store x v).release x = (a.alloc f).store x v := by
  simp only [hold, alloc, store, release, Finset.erase_insert hx]

/-- The entry of the indirect block `x` for the pointer `k`. -/
theorem vwp_indirectEntry (h : Fit A a g) (hip : a.Opens ip i) (hbusy : a.log.busy = true)
    (hheld : a.bufs.held = ∅) (hk : nDirect < k) (hks : k < nSlots)
    (hx : owner a.bufs.data g.D (i, nDirect) = some x) (hU : x ∈ g.U)
    (hm : missing a.bufs.data g.D i {k} ≤ g.m)
    (hQ : ∀ b a' g', Grown A ip i {k} a g a' g' →
      owner a'.bufs.data g'.D (i, k) = some b → Q b a') :
    vwp A pid (indirectEntry x (k - nDirect - 1)) Q a := by
  obtain ⟨hhome, hge, hused⟩ := h.owned_block hx
  obtain ⟨hi, -, hxi, hx0⟩ := owner_eq_some.1 hx
  have hind : (g.D i).addr nDirect ≠ 0 := fun he => hx0 (by
    rw [← hxi, ptr_of_le le_rfl, he]
    rfl)
  have hptr : ptr a.bufs.data (g.D i) k =
      (get (a.bufs.data x) (32 * (k - nDirect - 1)) 32).toNat := by
    rw [ptr_of_gt hk hind, ← ptr_of_le le_rfl (d := a.bufs.data), hxi]
  have hnot : x ∉ a.bufs.held := by simp [hheld]
  refine vwp_bind (vwp_bufcacheRead (h.room (by simp [hheld])).reads hnot
    hhome (vwp_ite (fun h0 => ?_) fun hne => ?_))
  · have hnone : owner a.bufs.data g.D (i, k) = none := by
      rw [owner_eq_none hi hks, hptr, h0]
      rfl
    obtain ⟨D, U, m⟩ := g
    obtain ⟨m, rfl⟩ : ∃ n, m = n + 1 := by
      have : 0 < m := hm.trans_lt' (by
        rw [missing, Finset.filter_true_of_mem (by simpa using hnone)]
        exact Nat.one_pos)
      exact ⟨m - 1, by omega⟩
    refine vwp_bind (vwp_blockAlloc_fit h.hold hbusy ?_ (by simp [FsState.hold, hheld])
      fun f rest hr hin hfree => ?_)
    · intro y hy
      obtain rfl : y = x := by simpa [FsState.hold, hheld] using hy
      exact ⟨hge, hused⟩
    have hsize := hin.2.trans_le h.logStart_le
    have hl := linked_putEntry h.owned hi hk hks h.logStart_le hin hfree hx h0
    have hbudget : A.Lax ∨ Ghost.Fits ⟨D, insert f U, m⟩ (a.alloc f) :=
      h.budget.imp id fun hf => hf.alloc hin hsize
    have hsuper : superOf (a.alloc f).bufs.data = superOf a.bufs.data := superOf_alloc hin.1
    refine vwp_store hbusy (by simp [FsState.alloc, FsState.store, FsState.hold]) ?_ ?_
    · rw [FsState.release_alloc_hold hnot]
      refine hbudget.imp id fun hf => ?_
      have hcard := Finset.card_le_card hf.sectors
      rw [hf.distinct.card_sectors] at hcard
      have := hf.card
      have := hf.size
      dsimp only at *
      exact ⟨by omega, by omega, by simp [FsState.alloc, FsState.store, hheld]⟩
    · rw [FsState.release_store_alloc_hold hnot]
      refine vwp_pure (hQ f _ ⟨D, insert f U, m⟩
        (.of_linked h hip (.trans (.trans .store .store) .store) hl hr hin (h.cached ip i hip)
          (hbudget.imp id fun hf => hf.store
        (Finset.mem_insert_of_mem hU) ?_)) ?_)
      · exact congrFun hl.owner (i, k) |>.trans (update_self _ _ _)
      · rw [hsuper, ← hl.super]
        rfl
  · refine vwp_bind (vwp_bufcacheRelease (Finset.mem_insert_self _ _) ?_)
    rw [FsState.release_hold hnot]
    refine vwp_pure (hQ _ a g (.refl h) (owner_eq_some.2 ⟨hi, hks, hptr, fun he => hne ?_⟩))
    exact BitVec.eq_of_toNat_eq he

/-- The pointers that `bmap` uses for a block of the contents. -/
def slotsOf (bn : Nat) : Finset Nat := if bn < nDirect then {bn} else {nDirect, bn + 1}

theorem slotOf_mem_slotsOf : slotOf bn ∈ slotsOf bn := by
  rw [slotOf, slotsOf]
  split <;> simp

theorem missing_mono {d : Disk} {D : Nat → Dinode} {K L : Finset Nat} (h : K ⊆ L) :
    missing d D i K ≤ missing d D i L :=
  Finset.card_le_card (Finset.filter_subset_filter _ h)

/-- `bmap` finds or allocates a block. -/
theorem vwp_bmap (h : Fit A a g) (hip : a.Opens ip i) (hi : Allocated (superOf a.bufs.data) g.D i)
    (hbusy : a.log.busy = true) (hheld : a.bufs.held = ∅) (hbn : bn < maxFile)
    (hm : missing a.bufs.data g.D i (slotsOf bn) ≤ g.m)
    (hU : nDirect ∈ slotsOf bn → ∀ x, owner a.bufs.data g.D (i, nDirect) = some x → x ∈ g.U)
    (hQ : ∀ b a' g', Grown A ip i (slotsOf bn) a g a' g' →
      owner a'.bufs.data g'.D (i, slotOf bn) = some b → Q b a') :
    vwp A pid (bmap ip bn) Q a := by
  have hslot := slotOf_lt hbn
  refine vwp_ite (fun hlt => ?_) fun hge => vwp_ite (fun hlt => ?_) fun hge' => ?_
  · rw [slotOf, if_pos hlt] at hQ hslot
    rw [slotsOf, if_pos hlt] at hQ hm
    refine vwp_bind (vwp_readInode ?_)
    rw [h.cached ip i hip]
    refine vwp_ite (fun h0 => ?_) fun hne => vwp_pure (hQ _ a g (.refl h) ?_)
    · have hnone : owner a.bufs.data g.D (i, bn) = none := by
        rw [owner_eq_none hi hslot, ptr_of_le hlt.le, h0]
        rfl
      refine vwp_linkAddr h hip hi hbusy hheld hlt.le h0 (hm.trans_lt' ?_) hQ
      rw [missing, Finset.filter_true_of_mem (by simpa using hnone)]
      exact Nat.one_pos
    · exact owner_eq_some.2 ⟨hi, hslot, ptr_of_le hlt.le, fun he => hne (BitVec.eq_of_toNat_eq he)⟩
  · rw [slotOf, if_neg hge] at hQ hslot
    rw [slotsOf, if_neg hge] at hQ hm hU
    have hmem : nDirect ∈ ({nDirect, bn + 1} : Finset Nat) := Finset.mem_insert_self _ _
    have hsub : {nDirect} ⊆ ({nDirect, bn + 1} : Finset Nat) := by simp
    have hsub' : {bn + 1} ⊆ ({nDirect, bn + 1} : Finset Nat) := by simp
    refine vwp_bind (vwp_indirectBlock h hip hi hbusy hheld ((missing_mono hsub).trans hm)
      fun x a₁ g₁ hg hx => ?_)
    have hxU : x ∈ g₁.U := by
      cases hold : owner a.bufs.data g.D (i, nDirect) with
      | none => exact hg.new _ x hold hx
      | some y =>
        obtain rfl := Option.some.inj ((hg.grows.kept _ y hold).symm.trans hx)
        exact hg.sub (hU hmem y hold)
    have hm₁ : missing a₁.bufs.data g₁.D i {bn + 1} ≤ g₁.m := by
      have hle := missing_mono (i := i) (d := a₁.bufs.data) (D := g₁.D) hsub'
      have := hg.grows.missing _ hsub
      have := hg.le
      omega
    rw [show bn - nDirect = bn + 1 - nDirect - 1 by omega]
    refine vwp_indirectEntry hg.fit (hg.frame.opens_iff.2 hip) (by rw [hg.frame.busy, hbusy])
      (by rw [hg.frame.held, hheld]) (by omega) hslot hx hxU hm₁ fun b a₂ g₂ hg' hb => ?_
    exact hQ b a₂ g₂ ((hg.mono hsub).trans (hg'.mono hsub')) hb
  · rw [show maxFile = nDirect + nIndirect from rfl] at hbn
    omega

end

end

end MCertikos
