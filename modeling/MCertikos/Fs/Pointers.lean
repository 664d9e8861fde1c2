import MCertikos.Fs.Layout

/-!
# Pointers to blocks

How the pointers of the inodes change. The inodes are given by a table `D`, which for an inode in
memory may differ from the inode on disk. A block is allocated and stored in a pointer (`Linked`),
directly or as an entry of an indirect block, and several such steps let an inode grow (`Extends`).
While its contents are not written, the bytes of all inodes (`byteAt`) stay as they are, since a
new block is zero and so is a byte without a block (`Grows`).
-/

namespace MCertikos

open BitField Ownership Function

section
variable {d d' : Disk} {D D' : Nat → Dinode} {din : Dinode} {i j k b f x bn o : Nat}
  {s : Nat × Nat} {v : Block}

/-! ## Single pointers -/

theorem ptr_of_le (hk : k ≤ nDirect) : ptr d din k = (din.addr k).toNat := if_pos hk

theorem ptr_of_gt (hk : nDirect < k) (hind : din.addr nDirect ≠ 0) :
    ptr d din k = (get (d (din.addr nDirect).toNat) (32 * (k - nDirect - 1)) 32).toNat := by
  rw [ptr, if_neg (Nat.not_le.2 hk), if_neg hind]

theorem ptr_of_no_indirect (hk : nDirect < k) (hind : din.addr nDirect = 0) : ptr d din k = 0 := by
  rw [ptr, if_neg (Nat.not_le.2 hk), if_pos hind]

/-- Pointers depend on the indirect block only. -/
theorem ptr_congr (h : din.addr nDirect ≠ 0 →
    d' (din.addr nDirect).toNat = d (din.addr nDirect).toNat) :
    ptr d' din k = ptr d din k := by
  by_cases hind : din.addr nDirect = 0
  · rw [ptr, ptr, if_pos hind, if_pos hind]
  · rw [ptr, ptr, h hind]

theorem owner_eq_some : owner d D (i, k) = some b ↔
    Allocated (superOf d) D i ∧ k < nSlots ∧ ptr d (D i) k = b ∧ b ≠ 0 := by
  rw [owner, Option.ite_none_right_eq_some, Option.some.injEq]
  constructor
  · rintro ⟨⟨hA, hk, hne⟩, rfl⟩
    exact ⟨hA, hk, rfl, hne⟩
  · rintro ⟨hA, hk, rfl, hne⟩
    exact ⟨⟨hA, hk, hne⟩, rfl⟩

theorem owner_eq_none (hA : Allocated (superOf d) D i) (hk : k < nSlots) :
    owner d D (i, k) = none ↔ ptr d (D i) k = 0 := by
  rw [owner, ite_eq_right_iff]
  constructor
  · intro h
    by_contra hne
    exact absurd (h ⟨hA, hk, hne⟩) nofun
  · intro h ⟨_, _, hne⟩
    exact absurd h hne

theorem nDirect_lt_nSlots : nDirect < nSlots := by decide

/-- The indirect block of an inode. -/
theorem owner_indirect (hA : Allocated (superOf d) D i) (hind : (D i).addr nDirect ≠ 0) :
    owner d D (i, nDirect) = some ((D i).addr nDirect).toNat := by
  refine owner_eq_some.2 ⟨hA, nDirect_lt_nSlots, ptr_of_le le_rfl, fun h0 => hind ?_⟩
  exact BitVec.eq_of_toNat_eq h0

/-- Owners depend on the indirect blocks only. -/
theorem owner_congr (hs : superOf d' = superOf d)
    (h : ∀ i x, owner d D (i, nDirect) = some x → d' x = d x) : owner d' D = owner d D := by
  funext s
  obtain ⟨i, k⟩ := s
  by_cases hA : Allocated (superOf d) D i
  · have hptr : ptr d' (D i) k = ptr d (D i) k :=
      ptr_congr fun hind => h i _ (owner_indirect hA hind)
    rw [owner, owner, hs, hptr]
  · rw [owner, owner, hs, if_neg fun h => hA h.1, if_neg fun h => hA h.1]

/-! ## Blocks in use -/

/-- Blocks in use depend on the bitmap only. -/
theorem used_congr (hfits : (superOf d).logStart ≤ (superOf d).size.toNat)
    (hs : superOf d' = superOf d) (h : ∀ x, (superOf d).bitmapStart ≤ x →
      x < (superOf d).dataStart → d' x = d x) :
    used d' = used d := by
  ext b
  rw [used, used, Set.mem_ofPred_eq, Set.mem_ofPred_eq, hs]
  exact and_congr_right fun hin => not_congr (free_congr hs h (hin.2.trans_le hfits))

/-- So does ownership, besides the indirect blocks. -/
theorem Owned.congr (ho : Owned d D) (hfits : (superOf d).logStart ≤ (superOf d).size.toNat)
    (hdata : (superOf d).dataStart ≤ (superOf d).size.toNat) (hs : superOf d' = superOf d)
    (h : ∀ x, (superOf d).bitmapStart ≤ x → x < (superOf d).dataStart → d' x = d x)
    (hown : owner d' D' = owner d D) : Owned d' D' := by
  refine ⟨?_, fun b hb hfree => ?_⟩
  · rw [hown, used_congr hfits hs h]
    exact ho.once
  · rw [hs] at hb
    exact ho.reserved b hb ((free_congr hs h (hb.trans_le hdata)).1 hfree)

/-- A block that an inode owns. -/
theorem Owned.inData (h : Owned d D) (hs : owner d D s = some b) :
    (superOf d).InData b ∧ ¬ Free d b := h.once.used s b hs

theorem Owned.ne_of_free (h : Owned d D) (hs : owner d D s = some b) (hf : Free d f) :
    b ≠ f := fun he => (h.inData hs).2 (he ▸ hf)

/-- Two pointers to one block are the same. -/
theorem Owned.eq (h : Owned d D) {t : Nat × Nat} (hs : owner d D s = some b)
    (ht : owner d D t = some b) :
    s = t := h.once.once s t b hs ht

/-- The inodes on disk. -/
theorem owner_onDisk (h : ∀ i < (superOf d).ninodes.toNat, dinodeAt d i = D i) :
    owner d (dinodeAt d) = owner d D := by
  funext s
  obtain ⟨i, k⟩ := s
  rcases Nat.lt_or_ge i (superOf d).ninodes.toNat with hi | hi
  · exact if_congr (by rw [Allocated, Allocated, h i hi]) (by rw [h i hi]) rfl
  · rw [owner, owner, if_neg fun hc => ?_, if_neg fun hc => ?_]
    · exact absurd hc.1.2.1 (Nat.not_lt.2 hi)
    · exact absurd hc.1.2.1 (Nat.not_lt.2 hi)

/-- A block that is not in front of the data blocks is changed. -/
theorem update_of_lt (hx : (superOf d).dataStart ≤ x) {y : Nat} (hy : y < (superOf d).dataStart) :
    update d x v y = d y := update_of_ne (by omega) _ _

/-- A block that is not in front of the data blocks and is no indirect block is changed. -/
theorem owner_update (hx : (superOf d).dataStart ≤ x)
    (hno : ∀ i, owner d D (i, nDirect) ≠ some x) :
    owner (update d x v) D = owner d D := by
  refine owner_congr (superOf_congr fun y hy =>
    update_of_lt hx (hy.trans bitmapStart_lt_dataStart)) fun i y hy =>
      update_of_ne (fun he => hno i ?_) _ _
  rw [← he]
  exact hy

/-- A block is allocated. -/
theorem owner_alloc (h : Owned d D) (hf : (superOf d).InData f)
    (hsize : f < (superOf d).size.toNat) (hfree : Free d f) : owner (d.alloc f) D = owner d D := by
  refine owner_congr (superOf_alloc hf.1) fun i y hy => ?_
  exact Disk.alloc_of_ge hsize (h.inData hy).1.1 (h.ne_of_free hy hfree)

/-! ## Stores to pointers -/

theorem allocated_update {v : Dinode} {sb : Superblock} (hv : v.type = (D i).type) :
    Allocated sb (update D i v) j ↔ Allocated sb D j := by
  rw [Allocated, Allocated]
  rcases eq_or_ne j i with rfl | hne
  · rw [update_self, hv]
  · rw [update_of_ne hne]

theorem Dinode.type_setAddr {v : BitVec 32} : (din.setAddr k v).type = din.type := rfl

/-- A change of the pointer number `k` of the inode `i`, and of no other one. -/
theorem owner_eq_update {n : Nat} (hs : superOf d' = superOf d)
    (hA : ∀ j, Allocated (superOf d) D' j ↔ Allocated (superOf d) D j)
    (hi : Allocated (superOf d) D i) (hk : k < nSlots) (hn : n ≠ 0) (hnew : ptr d' (D' i) k = n)
    (hsame : ∀ j l, Allocated (superOf d) D j → (j, l) ≠ (i, k) →
      ptr d' (D' j) l = ptr d (D j) l) :
    owner d' D' = update (owner d D) (i, k) (some n) := by
  funext s
  obtain ⟨j, l⟩ := s
  rcases eq_or_ne (j, l) (i, k) with he | hne
  · cases he
    rw [update_self]
    exact owner_eq_some.2 ⟨hs ▸ (hA i).2 hi, hk, hnew, hn⟩
  · rw [update_of_ne hne]
    by_cases hj : Allocated (superOf d) D j
    · rw [owner, owner, hs, hsame j l hj hne]
      simp only [hA j]
    · rw [owner, owner, hs, if_neg fun h => hj ((hA j).1 h.1), if_neg fun h => hj h.1]

/-- A direct pointer, or that of the indirect block, is set. -/
theorem owner_setAddr {v : BitVec 32} (hi : Allocated (superOf d) D i)
    (hk : k ≤ nDirect) (hv : v ≠ 0) (hind : k = nDirect → (D i).addr nDirect = 0 ∧ d v.toNat = 0) :
    owner d (update D i ((D i).setAddr k v)) =
      update (owner d D) (i, k) (some v.toNat) := by
  refine owner_eq_update rfl (fun j => allocated_update Dinode.type_setAddr) hi
    (hk.trans_lt nDirect_lt_nSlots) (fun h0 => hv (BitVec.eq_of_toNat_eq h0)) ?_
    fun j l hj hne => ?_
  · rw [update_self, ptr_of_le hk, Dinode.addr_setAddr_self hk]
  · rcases eq_or_ne j i with rfl | hji
    · have hlk : l ≠ k := fun he => hne (by rw [he])
      rw [update_self]
      by_cases hl : l ≤ nDirect
      · rw [ptr_of_le hl, ptr_of_le hl, Dinode.addr_setAddr_of_ne hlk]
      have hl' : nDirect < l := Nat.not_le.1 hl
      rcases eq_or_ne k nDirect with rfl | hkd
      · -- The new indirect block is zero.
        obtain ⟨h0, hzero⟩ := hind rfl
        rw [ptr_of_no_indirect hl' h0,
          ptr_of_gt hl' (by rw [Dinode.addr_setAddr_self le_rfl]; exact hv),
          Dinode.addr_setAddr_self le_rfl, hzero]
        simp [BitField.get]
      · rw [ptr, ptr, Dinode.addr_setAddr_of_ne hkd.symm, if_neg hl, if_neg hl]
    · rw [update_of_ne hji]

/-- An entry of an indirect block is set. -/
theorem owner_putEntry {v : BitVec 32} (h : Owned d D) (hi : Allocated (superOf d) D i)
    (hk : nDirect < k) (hks : k < nSlots) (hv : v ≠ 0) (hx : owner d D (i, nDirect) = some x) :
    owner (update d x (put (d x) (32 * (k - nDirect - 1)) v)) D =
      update (owner d D) (i, k) (some v.toNat) := by
  have hge := (h.inData hx).1.1
  have hxi : ((D i).addr nDirect).toNat = x := (owner_eq_some.1 hx).2.2.1
  have hind : (D i).addr nDirect ≠ 0 :=
    fun h0 => (owner_eq_some.1 hx).2.2.2 (by rw [← hxi, h0]; rfl)
  have hlt : 32 * (k - nDirect - 1) + 32 ≤ 4096 := by
    rw [nDirect] at hk ⊢
    rw [show nSlots = 141 from rfl] at hks
    omega
  refine owner_eq_update
    (superOf_congr fun y hy => update_of_lt hge (hy.trans bitmapStart_lt_dataStart))
    (fun _ => Iff.rfl) hi hks (fun h0 => hv (BitVec.eq_of_toNat_eq h0)) ?_ fun j l hj hne => ?_
  · rw [ptr_of_gt hk hind, hxi, update_self, get_put_self _ _ hlt]
  · rcases eq_or_ne j i with rfl | hji
    · by_cases hl : l ≤ nDirect
      · rw [ptr_of_le hl, ptr_of_le hl]
      have hl' : nDirect < l := Nat.not_le.1 hl
      have hlk : l ≠ k := fun he => hne (by rw [he])
      rw [ptr_of_gt hl' hind, ptr_of_gt hl' hind, hxi, update_self,
        get_put_of_disjoint _ _ (by omega)]
    · refine ptr_congr fun hindj => update_of_ne (fun he => hji ?_) _ _
      have hxj := owner_indirect hj hindj
      rw [he] at hxj
      exact congrArg Prod.fst (h.eq hxj hx)

/-! ## Growth -/

/-- The number of a data block as a pointer. -/
theorem ofNat_of_inData (hf : (superOf d).InData f)
    (hfits : (superOf d).logStart ≤ (superOf d).size.toNat) :
    (BitVec.ofNat 32 f).toNat = f ∧ BitVec.ofNat 32 f ≠ 0 := by
  have hlt : f < 2 ^ 32 := (hf.2.trans_le hfits).trans (superOf d).size.isLt
  have hval : (BitVec.ofNat 32 f).toNat = f := by rw [BitVec.toNat_ofNat, Nat.mod_eq_of_lt hlt]
  have hpos : 1 < (superOf d).dataStart := one_lt_bitmapStart.trans bitmapStart_lt_dataStart
  refine ⟨hval, fun he => ?_⟩
  have h0 : f = 0 := by rw [← hval, he]; rfl
  have := hf.1
  omega

/-- A block `f` that was free is now in the pointer `k` of the inode `i`. -/
structure Linked (i k f : Nat) (d : Disk) (D : Nat → Dinode) (d' : Disk)
    (D' : Nat → Dinode) : Prop where
  below : ∀ x < (superOf d).bitmapStart, d' x = d x
  other : ∀ j ≠ i, D' j = D j
  fields : ∃ addrs, D' i = { D i with addrs }
  empty : owner d D (i, k) = none
  fresh : f ∉ used d
  owner : owner d' D' = Function.update (MCertikos.owner d D) (i, k) (some f)
  used : used d' = insert f (MCertikos.used d)
  data : ∀ s b, MCertikos.owner d D s = some b → s.2 ≠ nDirect → d' b = d b
  zero : d' f = 0
  reserved : ∀ b < (superOf d).dataStart, ¬ Free d' b
  rest : ∀ rest, frees d = f :: rest → frees d' = rest

/-- A free data block is linked directly, or as the indirect block. -/
theorem linked_setAddr (h : Owned d D) (hi : Allocated (superOf d) D i) (hk : k ≤ nDirect)
    (hfits : (superOf d).logStart ≤ (superOf d).size.toNat) (hf : (superOf d).InData f)
    (hfree : Free d f) (h0 : (D i).addr k = 0) :
    Linked i k f d D (d.alloc f) (update D i ((D i).setAddr k (BitVec.ofNat 32 f))) := by
  have hsize : f < (superOf d).size.toNat := hf.2.trans_le hfits
  obtain ⟨hval, hne⟩ := ofNat_of_inData hf hfits
  refine ⟨fun x hx => Disk.alloc_of_lt hf.1 hx, fun j hj => update_of_ne hj _ _, ?_, ?_,
    fun hu => hu.2 hfree, ?_, used_alloc hf hfits, fun s b hs _ => ?_, Disk.alloc_self,
    fun b hb hfb => ?_, fun rest hr => ?_⟩
  · exact ⟨_, update_self _ _ _⟩
  · rw [owner_eq_none hi (hk.trans_lt nDirect_lt_nSlots), ptr_of_le hk, h0]
    rfl
  · have hown := owner_alloc h hf hsize hfree
    rw [owner_setAddr (by rwa [superOf_alloc hf.1]) hk hne, hown, hval]
    rintro rfl
    rw [hval]
    exact ⟨h0, Disk.alloc_self⟩
  · exact Disk.alloc_of_ge hsize (h.inData hs).1.1 (h.ne_of_free hs hfree)
  · rw [free_alloc hf.1 (by have := hf.1; omega)] at hfb
    exact h.reserved b hb hfb.2
  · exact frees_alloc hf.1 hr

/-- A free data block is linked as an entry of the indirect block `x`. -/
theorem linked_putEntry (h : Owned d D) (hi : Allocated (superOf d) D i) (hk : nDirect < k)
    (hks : k < nSlots) (hfits : (superOf d).logStart ≤ (superOf d).size.toNat)
    (hf : (superOf d).InData f) (hfree : Free d f) (hx : owner d D (i, nDirect) = some x)
    (h0 : get (d x) (32 * (k - nDirect - 1)) 32 = 0) :
    Linked i k f d D (update (d.alloc f) x
      (put (d x) (32 * (k - nDirect - 1)) (BitVec.ofNat 32 f))) D := by
  have hsize : f < (superOf d).size.toNat := hf.2.trans_le hfits
  obtain ⟨hval, hne⟩ := ofNat_of_inData hf hfits
  have hxin := (h.inData hx).1
  have hxf : x ≠ f := h.ne_of_free hx hfree
  have hxd : d.alloc f x = d x := Disk.alloc_of_ge hsize hxin.1 hxf
  have hsuper : superOf (d.alloc f) = superOf d := superOf_alloc hf.1
  have hown := owner_alloc h hf hsize hfree
  have hused : used (d.alloc f) = insert f (used d) := used_alloc hf hfits
  have hres : ∀ b < (superOf d).dataStart, ¬ Free (d.alloc f) b := fun b hb hfb => by
    rw [free_alloc hf.1 (by have := hf.1; omega)] at hfb
    exact h.reserved b hb hfb.2
  have hb : Owned (d.alloc f) D := ⟨by
    rw [hown, hused]
    exact h.once.mono (Set.subset_insert _ _), by rwa [hsuper]⟩
  have hdata : ∀ y < (superOf (d.alloc f)).dataStart, update (d.alloc f) x
      (put (d x) (32 * (k - nDirect - 1)) (BitVec.ofNat 32 f)) y = d.alloc f y := fun y hy =>
    update_of_lt (by rw [hsuper]; exact hxin.1) hy
  have hsuper' := superOf_congr fun y hy => hdata y (hy.trans bitmapStart_lt_dataStart)
  have hfree' : ∀ c < (superOf d).size.toNat, (Free (update (d.alloc f) x
      (put (d x) (32 * (k - nDirect - 1)) (BitVec.ofNat 32 f))) c ↔ Free (d.alloc f) c) :=
      fun c hc =>
    free_congr hsuper' (fun y _ hy => hdata y hy) (by rwa [hsuper])
  refine ⟨fun y hy => ?_, fun _ _ => rfl, ⟨(D i).addrs, rfl⟩, ?_, fun hu => hu.2 hfree, ?_, ?_,
    fun s b hs hsn => ?_, ?_, fun b hb' hfb => ?_, fun rest hr => ?_⟩
  · rw [hdata y (by rw [hsuper]; exact hy.trans bitmapStart_lt_dataStart),
      Disk.alloc_of_lt hf.1 hy]
  · have hxi := (owner_eq_some.1 hx).2.2
    have hind : (D i).addr nDirect ≠ 0 := fun he => hxi.2 (by
      rw [← hxi.1, ptr_of_le le_rfl, he]
      rfl)
    rw [owner_eq_none hi hks, ptr_of_gt hk hind, ← ptr_of_le le_rfl (d := d), hxi.1, h0]
    rfl
  · have := owner_putEntry hb (by rwa [hsuper]) hk hks hne (hown ▸ hx)
    rwa [hxd, hown, hval] at this
  · rw [used_congr (by rwa [hsuper]) hsuper' fun y _ hy => hdata y hy, hused]
  · have hbx : b ≠ x := fun he => hsn (congrArg Prod.snd (h.eq hs (he ▸ hx)))
    rw [update_of_ne hbx]
    exact Disk.alloc_of_ge hsize (h.inData hs).1.1 (h.ne_of_free hs hfree)
  · rw [update_of_ne hxf.symm, Disk.alloc_self]
  · exact hres b hb' ((hfree' b (by have := hxin.1; have := hxin.2; omega)).1 hfb)
  · rw [frees_congr hsuper' fun c hc => hfree' c (by rwa [hsuper] at hc), frees_alloc hf.1 hr]

theorem Linked.super (h : Linked i k f d D d' D') : superOf d' = superOf d := superOf_congr h.below

theorem Linked.owned (h : Linked i k f d D d' D') (ho : Owned d D) : Owned d' D' := by
  refine ⟨?_, by rw [h.super]; exact h.reserved⟩
  rw [h.owner, h.used]
  exact ho.once.take h.fresh

/-- The number of free data blocks. -/
def spare (d : Disk) : Nat := (frees d).countP fun b => b < (superOf d).logStart

/-- The first free block is a data block, if there is a free data block and all blocks before these
are in use. -/
theorem first_free {c : Nat} (hres : ∀ b < (superOf d).dataStart, ¬ Free d b) (hc : c ∈ frees d)
    (hlt : c < (superOf d).logStart) : ∃ f rest, frees d = f :: rest ∧ (superOf d).InData f ∧
    Free d f := by
  cases hfr : frees d with
  | nil =>
    rw [hfr] at hc
    cases hc
  | cons f rest =>
    have hfree : Free d f := (mem_frees.1 (hfr ▸ List.mem_cons_self)).2
    have hle : f ≤ c := Nat.not_lt.1 fun hcf => notFree_of_lt hfr hcf (mem_frees.1 hc).2
    exact ⟨f, rest, rfl, ⟨Nat.not_lt.1 fun hb => hres f hb hfree, hle.trans_lt hlt⟩, hfree⟩

theorem exists_spare (h : Owned d D) (hs : 0 < spare d) :
    ∃ f rest, frees d = f :: rest ∧ (superOf d).InData f ∧ Free d f := by
  obtain ⟨c, hc, hlt⟩ := List.countP_pos_iff.1 hs
  exact first_free h.reserved hc (of_decide_eq_true hlt)

/-- Free blocks depend on the bitmap only. -/
theorem spare_congr (hs : superOf d' = superOf d)
    (h : ∀ x, (superOf d).bitmapStart ≤ x → x < (superOf d).dataStart → d' x = d x) :
    spare d' = spare d := by
  rw [spare, spare, hs, frees_congr hs fun c hc => free_congr hs h hc]

theorem Linked.spare (h : Linked i k f d D d' D') {rest : List Nat} (hr : frees d = f :: rest)
    (hf : (superOf d).InData f) : spare d' + 1 = MCertikos.spare d := by
  have hlt : f < (superOf d).logStart := hf.2
  rw [MCertikos.spare, MCertikos.spare, h.rest rest hr, hr, h.super]
  simp [hlt]

/-- The number of missing blocks among the pointers `K` of an inode. -/
def missing (d : Disk) (D : Nat → Dinode) (i : Nat) (K : Finset Nat) : Nat :=
  (K.filter fun k => owner d D (i, k) = none).card

theorem Linked.missing (h : Linked i k f d D d' D') {K : Finset Nat} (hk : k ∈ K) :
    missing d' D' i K + 1 = MCertikos.missing d D i K := by
  have hfilter : (K.filter fun l => MCertikos.owner d' D' (i, l) = none) =
      (K.filter fun l => MCertikos.owner d D (i, l) = none).erase k := by
    ext l
    rw [h.owner, Finset.mem_erase, Finset.mem_filter, Finset.mem_filter]
    rcases eq_or_ne l k with rfl | hne
    · simp
    · rw [update_of_ne fun he => hne (congrArg Prod.snd he)]
      simp [hne]
  rw [MCertikos.missing, MCertikos.missing, hfilter]
  exact Finset.card_erase_add_one (Finset.mem_filter.2 ⟨hk, h.empty⟩)

/-- The inode `i` has got `c` more blocks, at pointers in `K`, and all inodes have kept theirs. -/
structure Extends (i : Nat) (K : Finset Nat) (c : Nat) (d : Disk) (D : Nat → Dinode) (d' : Disk)
    (D' : Nat → Dinode) : Prop where
  below : ∀ x < (superOf d).bitmapStart, d' x = d x
  other : ∀ j ≠ i, D' j = D j
  fields : ∃ addrs, D' i = { D i with addrs }
  kept : ∀ s b, owner d D s = some b → owner d' D' s = some b
  new : ∀ s b, owner d D s = none → owner d' D' s = some b → s.1 = i ∧ s.2 ∈ K
  missing : ∀ L, K ⊆ L → missing d' D' i L + c = MCertikos.missing d D i L
  spare : spare d' + c = MCertikos.spare d
  same : c = 0 → D' = D
  tight : Tight (owner d D) (used d) → Tight (owner d' D') (used d')

namespace Extends

variable {K L : Finset Nat} {c e : Nat} {d'' : Disk} {D'' : Nat → Dinode}

theorem refl : Extends i K 0 d D d D :=
  ⟨fun _ _ => rfl, fun _ _ => rfl, ⟨_, rfl⟩, fun _ _ hs => hs,
    fun _ _ hn hs => absurd (hn.symm.trans hs) nofun, fun _ _ => rfl, rfl, fun _ => rfl, id⟩

theorem super (h : Extends i K c d D d' D') : superOf d' = superOf d := superOf_congr h.below

theorem mono (h : Extends i K c d D d' D') (hK : K ⊆ L) : Extends i L c d D d' D' :=
  { h with
    new := fun s b hn hs => (h.new s b hn hs).imp id (@hK _)
    missing := fun M hM => h.missing M (hK.trans hM) }

theorem of_linked (h : Linked i k f d D d' D') {rest : List Nat} (hr : frees d = f :: rest)
    (hf : (superOf d).InData f) : Extends i {k} 1 d D d' D' where
  below := h.below
  other := h.other
  fields := h.fields
  kept s b hs := by
    have hne : s ≠ (i, k) := fun he => by
      rw [he, h.empty] at hs
      cases hs
    rw [h.owner, update_of_ne hne]
    exact hs
  new s b hn hs := by
    rw [h.owner] at hs
    rcases eq_or_ne s (i, k) with rfl | hne
    · exact ⟨rfl, Finset.mem_singleton_self k⟩
    · rw [update_of_ne hne] at hs
      exact absurd (hn.symm.trans hs) nofun
  missing L hL := h.missing (hL (Finset.mem_singleton_self k))
  spare := h.spare hr hf
  same := nofun
  tight ht := by
    rw [h.owner, h.used]
    exact ht.take h.empty

theorem trans (h : Extends i K c d D d' D') (h' : Extends i K e d' D' d'' D'') :
    Extends i K (c + e) d D d'' D'' where
  below x hx := (h'.below x (by rwa [h.super])).trans (h.below x hx)
  other j hj := (h'.other j hj).trans (h.other j hj)
  fields := by
    obtain ⟨addrs, ha⟩ := h.fields
    obtain ⟨addrs', ha'⟩ := h'.fields
    exact ⟨addrs', by rw [ha', ha]⟩
  kept s b hs := h'.kept s b (h.kept s b hs)
  new s b hn hs := by
    cases hmid : owner d' D' s with
    | none => exact h'.new s b hmid hs
    | some b' => exact h.new s b' hn hmid
  missing L hL := by
    have := h.missing L hL
    have := h'.missing L hL
    omega
  spare := by
    have := h.spare
    have := h'.spare
    omega
  same h0 := (h'.same (by omega)).trans (h.same (by omega))
  tight ht := h'.tight (h.tight ht)

theorem allocated (h : Extends i K c d D d' D') :
    Allocated (superOf d') D' j ↔ Allocated (superOf d) D j := by
  rw [h.super, Allocated, Allocated]
  rcases eq_or_ne j i with rfl | hne
  · obtain ⟨addrs, ha⟩ := h.fields
    rw [ha]
  · rw [h.other j hne]

theorem dinodeAt (h : Extends i K c d D d' D') (hj : j < (superOf d).ninodes.toNat) :
    dinodeAt d' j = MCertikos.dinodeAt d j := dinodeAt_congr h.below hj

end Extends

/-- The contents stay as they are, and the new blocks are zero. -/
structure Grows (i : Nat) (K : Finset Nat) (c : Nat) (d : Disk) (D : Nat → Dinode) (d' : Disk)
    (D' : Nat → Dinode) : Prop extends Extends i K c d D d' D' where
  data : ∀ s b, owner d D s = some b → s.2 ≠ nDirect → d' b = d b
  zero : ∀ s b, owner d D s = none → owner d' D' s = some b → s.2 ≠ nDirect → d' b = 0

namespace Grows

variable {K L : Finset Nat} {c e : Nat} {d'' : Disk} {D'' : Nat → Dinode}

theorem refl : Grows i K 0 d D d D :=
  { Extends.refl with
    data := fun _ _ _ _ => rfl
    zero := fun _ _ hn hs => absurd (hn.symm.trans hs) nofun }

theorem mono (h : Grows i K c d D d' D') (hK : K ⊆ L) : Grows i L c d D d' D' :=
  { h.toExtends.mono hK with
    data := h.data
    zero := h.zero }

theorem of_linked (h : Linked i k f d D d' D') {rest : List Nat} (hr : frees d = f :: rest)
    (hf : (superOf d).InData f) : Grows i {k} 1 d D d' D' :=
  { Extends.of_linked h hr hf with
    data := h.data
    zero := fun s b hn hs _ => by
      obtain ⟨hi, hk⟩ := (Extends.of_linked h hr hf).new s b hn hs
      obtain rfl : s = (i, k) := Prod.ext hi (Finset.mem_singleton.1 hk)
      rw [h.owner, update_self] at hs
      cases hs
      exact h.zero }

theorem trans (h : Grows i K c d D d' D') (h' : Grows i K e d' D' d'' D'') :
    Grows i K (c + e) d D d'' D'' :=
  { h.toExtends.trans h'.toExtends with
    data := fun s b hs hne => (h'.data s b (h.kept s b hs) hne).trans (h.data s b hs hne)
    zero := fun s b hn hs hne => by
      cases hmid : owner d' D' s with
      | none => exact h'.zero s b hmid hs hne
      | some b' =>
        obtain rfl := Option.some.inj ((h'.kept s b' hmid).symm.trans hs)
        exact (h'.data s b' hmid hne).trans (h.zero s b' hn hmid hne) }

end Grows

/-! ## Bytes -/

/-- The byte at the offset `o` of an inode; it is zero where there is no block. -/
def byteAt (d : Disk) (din : Dinode) (o : Nat) : Byte :=
  if blockAt d din (o / bSize) = 0 then 0
  else get (d (blockAt d din (o / bSize))) (8 * (o % bSize)) 8

theorem slotOf_lt (h : bn < maxFile) : slotOf bn < nSlots := by
  rw [show maxFile = 140 from rfl] at h
  rw [slotOf, show nSlots = 141 from rfl]
  split <;> omega

theorem slotOf_ne : slotOf bn ≠ nDirect := by
  rw [slotOf]
  split <;> omega

theorem slotOf_inj {bn' : Nat} (h : slotOf bn = slotOf bn') : bn = bn' := by
  rw [slotOf, slotOf] at h
  split at h <;> split at h <;> omega

theorem div_bSize_lt (h : o < maxFile * bSize) : o / bSize < maxFile :=
  Nat.div_lt_of_lt_mul (Nat.mul_comm maxFile bSize ▸ h)

theorem byteAt_of_none (hj : Allocated (superOf d) D j) (ho : o < maxFile * bSize)
    (hn : owner d D (j, slotOf (o / bSize)) = none) : byteAt d (D j) o = 0 :=
  if_pos ((owner_eq_none hj (slotOf_lt (div_bSize_lt ho))).1 hn)

theorem byteAt_of_some (hs : owner d D (j, slotOf (o / bSize)) = some b) :
    byteAt d (D j) o = get (d b) (8 * (o % bSize)) 8 := by
  obtain ⟨-, -, rfl, hne⟩ := owner_eq_some.1 hs
  exact if_neg hne

/-- Growth changes no byte. -/
theorem Grows.byteAt {K : Finset Nat} {c : Nat} (h : Grows i K c d D d' D')
    (hj : Allocated (superOf d) D j) (ho : o < maxFile * bSize) :
    byteAt d' (D' j) o = MCertikos.byteAt d (D j) o := by
  have hj' := h.allocated.2 hj
  cases hs : owner d D (j, slotOf (o / bSize)) with
  | some b =>
    rw [byteAt_of_some hs, byteAt_of_some (h.kept _ b hs), h.data _ b hs slotOf_ne]
  | none =>
    rw [byteAt_of_none hj ho hs]
    cases hs' : owner d' D' (j, slotOf (o / bSize)) with
    | none => exact byteAt_of_none hj' ho hs'
    | some b =>
      rw [byteAt_of_some hs', h.zero _ b hs hs' slotOf_ne]
      simp [BitField.get]

/-- A block of the inode `i` is changed. -/
theorem byteAt_update (h : Owned d D) (hj : Allocated (superOf d) D j)
    (hb : owner d D (i, slotOf bn) = some b) (ho : o < maxFile * bSize) :
    byteAt (update d b v) (D j) o =
      if j = i ∧ o / bSize = bn then get v (8 * (o % bSize)) 8 else byteAt d (D j) o := by
  have hge := (h.inData hb).1.1
  have hno : ∀ l, owner d D (l, nDirect) ≠ some b := fun l hl =>
    slotOf_ne (congrArg Prod.snd (h.eq hb hl))
  have hown := owner_update (v := v) hge hno
  have hsuper : superOf (update d b v) = superOf d :=
    superOf_congr fun y hy => update_of_lt hge (hy.trans bitmapStart_lt_dataStart)
  have hj' : Allocated (superOf (update d b v)) D j := hsuper ▸ hj
  cases hs : owner d D (j, slotOf (o / bSize)) with
  | none =>
    rw [byteAt_of_none hj' ho (hown ▸ hs), byteAt_of_none hj ho hs, if_neg]
    rintro ⟨rfl, rfl⟩
    exact absurd (hs.symm.trans hb) nofun
  | some c =>
    rw [byteAt_of_some (hown ▸ hs : owner (update d b v) D _ = some c), byteAt_of_some hs]
    split
    · next he =>
      obtain ⟨rfl, rfl⟩ := he
      obtain rfl := Option.some.inj (hs.symm.trans hb)
      rw [update_self]
    · next he =>
      have hcb : c ≠ b := fun hcb => by
        have heq := h.eq (hcb ▸ hs) hb
        exact he ⟨congrArg Prod.fst heq, slotOf_inj (congrArg Prod.snd heq)⟩
      rw [update_of_ne hcb]

/-- A block of the contents is changed. -/
theorem Owned.update (h : Owned d D) (hfits : (superOf d).logStart ≤ (superOf d).size.toNat)
    (hdata : (superOf d).dataStart ≤ (superOf d).size.toNat)
    (hb : owner d D (i, slotOf bn) = some b) :
    Owned (Function.update d b v) D ∧ owner (Function.update d b v) D = owner d D := by
  have hge := (h.inData hb).1.1
  have hno : ∀ l, owner d D (l, nDirect) ≠ some b := fun l hl =>
    slotOf_ne (congrArg Prod.snd (h.eq hb hl))
  have hown := owner_update (v := v) hge hno
  have hsuper : superOf (Function.update d b v) = superOf d :=
    superOf_congr fun y hy => update_of_lt hge (hy.trans bitmapStart_lt_dataStart)
  exact ⟨h.congr hfits hdata hsuper (fun y _ hy => update_of_lt hge hy) hown, hown⟩

/-! ## Other changes -/

/-- Owners depend on the pointers and types of the inodes. -/
theorem owner_fields (h : ∀ j, (D' j).addrs = (D j).addrs ∧ (D' j).type = (D j).type) :
    owner d D' = owner d D := by
  funext s
  obtain ⟨j, k⟩ := s
  have haddr : ∀ l, (D' j).addr l = (D j).addr l :=
    fun l => by rw [Dinode.addr, (h j).1, Dinode.addr]
  have hptr : ptr d (D' j) k = ptr d (D j) k := by
    rw [ptr, ptr, haddr, haddr]
  exact if_congr (by rw [Allocated, Allocated, (h j).2, hptr]) (by rw [hptr]) rfl

/-- The other fields of one inode are changed. -/
theorem owner_setFields {i : Nat} {din : Dinode} (haddrs : din.addrs = (D i).addrs)
    (htype : din.type = (D i).type) : owner d (Function.update D i din) = owner d D :=
  owner_fields fun j => by
    rcases eq_or_ne j i with rfl | hne
    · rw [update_self]
      exact ⟨haddrs, htype⟩
    · rw [update_of_ne hne]
      exact ⟨rfl, rfl⟩

/-- Bytes depend on the blocks that the inode owns and on their contents. -/
theorem byteAt_congr (hj : Allocated (superOf d) D j) (hj' : Allocated (superOf d') D' j)
    (hown : ∀ k, owner d' D' (j, k) = owner d D (j, k))
    (hdata : ∀ k b, owner d D (j, k) = some b → d' b = d b) (ho : o < maxFile * bSize) :
    byteAt d' (D' j) o = byteAt d (D j) o := by
  have hslot := hown (slotOf (o / bSize))
  cases hs : owner d D (j, slotOf (o / bSize)) with
  | none => rw [byteAt_of_none hj ho hs, byteAt_of_none hj' ho (hslot.trans hs)]
  | some b => rw [byteAt_of_some hs, byteAt_of_some (hslot.trans hs), hdata _ b hs]

/-- The disk after an inode is written. -/
def Disk.putInode (d : Disk) (i : Nat) (din : Dinode) : Disk :=
  Function.update d (iblock i) (putDinode (d (iblock i)) (i % ipb) din)

theorem Disk.putInode_of_ne {y : Nat} (h : y ≠ iblock i) : d.putInode i din y = d y :=
  update_of_ne h _ _

@[simp] theorem superOf_putInode : superOf (d.putInode i din) = superOf d := by
  rw [superOf, Disk.putInode_of_ne one_lt_iblock.ne, superOf]

theorem dinodeAt_putInode : dinodeAt (d.putInode i din) j = if j = i then
    din else dinodeAt d j := by
  have hmod : i % ipb < ipb := Nat.mod_lt _ (by decide)
  rw [dinodeAt, dinodeAt]
  by_cases hblock : iblock j = iblock i
  · rw [hblock, Disk.putInode, update_self]
    split
    · next hji => rw [hji, getDinode_putDinode_self hmod]
    · next hji =>
      refine getDinode_putDinode_of_ne fun he => hji ?_
      rw [iblock, iblock, ipb] at hblock
      rw [ipb] at he
      omega
  · rw [Disk.putInode_of_ne hblock, if_neg fun hji => hblock (by rw [hji])]

/-- A block behind the inodes. -/
theorem Disk.putInode_of_ge {y : Nat} (hi : i < (superOf d).ninodes.toNat)
    (hy : (superOf d).bitmapStart ≤ y) : d.putInode i din y = d y :=
  putInode_of_ne ((iblock_lt hi).trans_le hy).ne'

theorem owner_putInode (h : Owned d D) (hi : i < (superOf d).ninodes.toNat)
    (hown : owner d D' = owner d D) : owner (d.putInode i din) D' = owner d D := by
  refine (owner_congr superOf_putInode fun _ _ hy => Disk.putInode_of_ge hi ?_).trans hown
  rw [hown] at hy
  exact bitmapStart_lt_dataStart.le.trans (h.inData hy).1.1

end

end MCertikos
