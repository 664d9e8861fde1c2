import MCertikos.Fs.Growing
import Mathlib.Order.Interval.Finset.Nat

/-!
# The contents of an inode

What `inode_read`, `inode_write` and `inode_update` do to a volume. The contents of an inode are
the bytes below its size. `inode_read` returns a part of them; `inode_write` replaces a part of
them and may extend them, and leaves all other bytes alone, of this inode and of the others
(`Written`).
-/

namespace MCertikos

open Program BitField Ownership Function

variable {off : Nat}

/-! ## Bytes of a block -/

/-- A byte of a block into which bytes are copied. -/
theorem get_putBytes (b : Block) (o : Nat) (vs : List Byte) (h : o + vs.length ≤ bSize) {t : Nat} :
    get (putBytes b o vs) (8 * t) 8 =
      if o ≤ t ∧ t < o + vs.length then vs.getD (t - o) 0 else get b (8 * t) 8 := by
  induction vs generalizing b o with
  | nil =>
    rw [putBytes, if_neg (by simp)]
  | cons v vs ih =>
    rw [List.length_cons] at h ⊢
    rw [show bSize = 512 from rfl] at ih h
    rw [putBytes, ih _ _ (by omega)]
    by_cases hlt : o + 1 ≤ t ∧ t < o + 1 + vs.length
    · rw [if_pos hlt, if_pos (by omega), show t - o = t - (o + 1) + 1 by
        omega, List.getD_cons_succ]
    · rw [if_neg hlt]
      rcases eq_or_ne t o with rfl | hne
      · rw [if_pos (by omega), Nat.sub_self, List.getD_cons_zero, get_put_self _ _ (by omega)]
      · rw [if_neg (by omega), get_put_of_disjoint _ _ (by omega)]

/-- The offsets of the bytes in one block. -/
theorem div_mod_add {t n : Nat} (ht : t < min n (bSize - off % bSize)) :
    (off + t) / bSize = off / bSize ∧ (off + t) % bSize = off % bSize + t := by
  rw [show bSize = 512 from rfl] at *
  omega

/-- The pointers of the blocks with the `n` bytes at `off`. -/
def slotsIn (off n : Nat) : Finset Nat :=
  ((Finset.Ico off (off + n)).image (· / bSize)).biUnion slotsOf

theorem slotsOf_subset_slotsIn {n o : Nat} (h1 : off ≤ o) (h2 : o < off + n) :
    slotsOf (o / bSize) ⊆ slotsIn off n :=
  Finset.subset_biUnion_of_mem slotsOf (Finset.mem_image_of_mem _ (Finset.mem_Ico.2 ⟨h1, h2⟩))

theorem slotsIn_subset {n off' n' : Nat} (h1 : off ≤ off') (h2 : off' + n' ≤ off + n) :
    slotsIn off' n' ⊆ slotsIn off n :=
  Finset.biUnion_subset_biUnion_of_subset_left _ (Finset.image_subset_image
    (Finset.Ico_subset_Ico h1 h2))

/-- The bytes at `off` in two parts. -/
theorem slotsIn_add {n m : Nat} : slotsIn off (n + m) = slotsIn off n ∪ slotsIn (off + n) m := by
  rw [slotsIn, slotsIn, slotsIn, ← Finset.union_biUnion, ← Finset.image_union,
    Finset.Ico_union_Ico_eq_Ico (Nat.le_add_right _ _) (Nat.le_add_right _ _), Nat.add_assoc]

section
variable {A A' : Allow} {pid ip i bn b off : Nat} {a a' a'' : FsState Vol} {g g' g'' : Ghost}
  {Q : Option (List Byte) → FsState Vol → Prop} {src : List Byte} {din : Dinode}

/-! ## Reading -/

/-- `bmap` finds a block that is there. -/
theorem vwp_bmap_found {Q : Nat → FsState Vol → Prop} (h : Fit A' a g) (hip : a.Opens ip i)
    (hroom : A.Reads a) (hheld : a.bufs.held = ∅) (hbn : bn < maxFile)
    (hb : owner a.bufs.data g.D (i, slotOf bn) = some b) (hQ : Q b a) :
    vwp A pid (bmap ip bn) Q a := by
  obtain ⟨hi, -, hptr, hb0⟩ := owner_eq_some.1 hb
  refine vwp_ite (fun hlt => ?_) fun hge => vwp_ite (fun hlt => ?_) fun hge' => ?_
  · rw [slotOf, if_pos hlt, ptr_of_le hlt.le] at hptr
    refine vwp_bind (vwp_readInode ?_)
    rw [h.cached ip i hip]
    refine vwp_ite (fun h0 => absurd ?_ hb0) fun _ => vwp_pure ?_
    · rw [← hptr, h0]
      rfl
    · rwa [hptr]
  · rw [slotOf, if_neg hge] at hptr
    have hind : (g.D i).addr nDirect ≠ 0 := fun he => hb0 (by
      rw [← hptr, ptr_of_no_indirect (by omega) he])
    obtain ⟨hhome, -, -⟩ := h.owned_block (owner_indirect hi hind)
    have hnot : ((g.D i).addr nDirect).toNat ∉ a.bufs.held := by simp [hheld]
    rw [ptr_of_gt (by omega) hind, show bn + 1 - nDirect - 1 = bn - nDirect by omega] at hptr
    refine vwp_bind (vwp_bind (vwp_readInode ?_))
    rw [h.cached ip i hip]
    refine vwp_ite (fun h0 => absurd h0 hind) fun _ => vwp_pure ?_
    refine vwp_bind (vwp_bufcacheRead hroom hnot hhome (vwp_ite (fun h0 => ?_)
      fun _ => vwp_bind (vwp_bufcacheRelease (Finset.mem_insert_self _ _) (vwp_pure ?_))))
    · refine absurd ?_ hb0
      rw [← hptr, h0]
      rfl
    · rwa [FsState.release_hold hnot, hptr]
  · rw [show maxFile = nDirect + nIndirect from rfl] at hbn
    omega

/-- The loop of `inode_read` returns the bytes. -/
theorem vwp_inodeReadFrom {Q : List Byte → FsState Vol → Prop} {turns n : Nat} (h : Fit A' a g)
    (hip : a.Opens ip i) (hroom : A.Reads a) (hheld : a.bufs.held = ∅)
    (hmax : off + n ≤ maxFile * bSize) (hturns : n ≤ turns)
    (hfull : ∀ o, off ≤ o → o < off + n → owner a.bufs.data g.D (i, slotOf (o / bSize)) ≠ none)
    (hQ : Q ((List.range n).map fun t => byteAt a.bufs.data (g.D i) (off + t)) a) :
    vwp A pid (inodeReadFrom ip turns off n) Q a := by
  induction turns generalizing off n Q with
  | zero =>
    obtain rfl : n = 0 := by omega
    exact vwp_pure hQ
  | succ turns ih =>
    refine vwp_ite (fun hn => ?_) fun hn => ?_
    · subst hn
      exact vwp_pure hQ
    obtain ⟨b, hb⟩ := Option.ne_none_iff_exists'.1 (hfull off le_rfl (by omega))
    obtain ⟨hhome, -, -⟩ := h.owned_block hb
    have hpos : 0 < min n (bSize - off % bSize) := by
      rw [show bSize = 512 from rfl]
      omega
    refine vwp_bind (vwp_bmap_found h hip hroom hheld (div_bSize_lt (by omega)) hb ?_)
    refine vwp_peek hroom (by simp [hheld]) hhome ?_
    refine vwp_bind (ih (n := n - min n (bSize - off % bSize)) (by omega) (by omega)
      (fun o h1 h2 => hfull o (by omega) (by omega)) (vwp_pure ?_))
    have hbytes : getBytes (a.bufs.data b) (off % bSize) (min n (bSize - off % bSize)) =
        (List.range (min n (bSize - off % bSize))).map
          fun t => byteAt a.bufs.data (g.D i) (off + t) := by
      refine List.map_congr_left fun t ht => ?_
      obtain ⟨hdiv, hmod⟩ := div_mod_add (List.mem_range.1 ht)
      rw [byteAt_of_some (by rwa [hdiv]), hmod]
    have hsplit : (List.range n).map (fun t => byteAt a.bufs.data (g.D i) (off + t)) =
        (List.range (min n (bSize - off % bSize))).map
            (fun t => byteAt a.bufs.data (g.D i) (off + t)) ++
          (List.range (n - min n (bSize - off % bSize))).map
            fun t => byteAt a.bufs.data (g.D i) (off + min n (bSize - off % bSize) + t) := by
      obtain ⟨r, hr⟩ : ∃ r, n = min n (bSize - off % bSize) + r :=
        ⟨n - min n (bSize - off % bSize), by omega⟩
      rw [show n - min n (bSize - off % bSize) = r by omega]
      conv_lhs => rw [hr, List.range_add, List.map_append, List.map_map]
      simp only [Function.comp_def, Nat.add_assoc]
    rw [hbytes, ← hsplit]
    exact hQ

/-- Every block below the size is there. -/
def Full (d : Disk) (D : Nat → Dinode) (i : Nat) : Prop :=
  (D i).size.toNat ≤ maxFile * bSize ∧
    ∀ o < (D i).size.toNat, owner d D (i, slotOf (o / bSize)) ≠ none

section
variable {off n : BitVec 32} (h : Fit A' a g) (hip : a.Opens ip i) (hroom : A.Reads a)
  (hheld : a.bufs.held = ∅) (htype : (g.D i).type ≠ tDev)
  (hbad : (g.D i).size.toNat < off.toNat ∨ 2 ^ 32 ≤ off.toNat + n.toNat → Q none a)
  (hok : off.toNat ≤ (g.D i).size.toNat → off.toNat + n.toNat < 2 ^ 32 →
    Q (some ((List.range (min n.toNat ((g.D i).size.toNat - off.toNat))).map
      fun t => byteAt a.bufs.data (g.D i) (off.toNat + t))) a)
include h hip hroom hheld htype hbad hok

/-- `inode_read` fails behind the end and on overflow, and otherwise returns the bytes up to the
end, if their blocks are there. -/
theorem vwp_inodeRead_part (hmax : (g.D i).size.toNat ≤ maxFile * bSize)
    (hfull : ∀ o, off.toNat ≤ o → o < off.toNat + n.toNat → o < (g.D i).size.toNat →
      owner a.bufs.data g.D (i, slotOf (o / bSize)) ≠ none) :
    vwp A pid (inodeRead ip off n) Q a := by
  refine vwp_bind (vwp_readInode ?_)
  rw [h.cached ip i hip]
  have hover : off + n < off ↔ 2 ^ 32 ≤ off.toNat + n.toNat := by
    rw [BitVec.lt_def, BitVec.toNat_add]
    omega
  refine vwp_ite (fun ht => absurd ht htype) fun _ =>
    vwp_ite (fun hc => vwp_pure (hbad ?_)) fun hc => ?_
  · rwa [BitVec.lt_def, hover] at hc
  · rw [BitVec.lt_def, hover, not_or, Nat.not_lt, Nat.not_le] at hc
    obtain ⟨hoff, hsum⟩ := hc
    have hmin : (if (g.D i).size < off + n then (g.D i).size - off else n).toNat =
        min n.toNat ((g.D i).size.toNat - off.toNat) := by
      have hadd : (off + n).toNat = off.toNat + n.toNat := by
        rw [BitVec.toNat_add]
        omega
      split
      · next hlt =>
        rw [BitVec.lt_def, hadd] at hlt
        rw [BitVec.toNat_sub_of_le (BitVec.le_def.2 hoff)]
        omega
      · next hlt =>
        rw [BitVec.lt_def, hadd] at hlt
        omega
    refine vwp_bind (vwp_inodeReadFrom h hip hroom hheld ?_
      le_rfl (fun o h1 h2 => hfull o h1 ?_ ?_) (vwp_pure ?_))
    · rw [hmin]
      omega
    · rw [hmin] at h2
      omega
    · rw [hmin] at h2
      omega
    · rw [hmin]
      exact hok hoff hsum

theorem vwp_inodeRead (hfull : Full a.bufs.data g.D i) : vwp A pid (inodeRead ip off n) Q a :=
  vwp_inodeRead_part h hip hroom hheld htype hbad hok hfull.1 fun o _ _ ho => hfull.2 o ho

end

/-! ## Writing -/

/-- A part of the contents of the inode `i` is replaced, without a change of its size; this takes
`c` new blocks. -/
structure Stored (i off : Nat) (src : List Byte) (c : Nat) (d : Disk)
    (D : Nat → Dinode) (d' : Disk) (D' : Nat → Dinode) : Prop where
  shape : Extends i (slotsIn off src.length) c d D d' D'
  full : ∀ o, off ≤ o → o < off + src.length → owner d' D' (i, slotOf (o / bSize)) ≠ none
  bytes : ∀ j, Allocated (superOf d) D j → ∀ o < maxFile * bSize,
    byteAt d' (D' j) o =
      if j = i ∧ off ≤ o ∧ o < off + src.length then src.getD (o - off) 0 else byteAt d (D j) o

section
variable {d d' d'' : Disk} {D D' D'' : Nat → Dinode} {c c' off n : Nat}
  {src : List Byte} {v : Block}

theorem Stored.nil : Stored i off [] 0 d D d D where
  shape := .refl
  full o h1 h2 := by
    rw [List.length_nil] at h2
    omega
  bytes j _ o _ := by
    rw [List.length_nil, if_neg (by omega)]

/-- A block is mapped and written, and then the rest is. -/
theorem Stored.turn (hn : n = min src.length (bSize - off % bSize)) (hpos : 0 < src.length)
    (hfits : (superOf d').logStart ≤ (superOf d').size.toNat)
    (hdata : (superOf d').dataStart ≤ (superOf d').size.toNat) (ho : Owned d' D')
    (hg : Grows i (slotsOf (off / bSize)) c d D d' D')
    (hb : owner d' D' (i, slotOf (off / bSize)) = some b)
    (hv : v = putBytes (d' b) (off % bSize) (src.take n))
    (h : Stored i (off + n) (src.drop n) c' (update d' b v) D' d'' D'') :
    Stored i off src (c + c') d D d'' D'' := by
  have hbs : bSize = 512 := rfl
  have hmod : off % bSize < bSize := Nat.mod_lt _ (by decide)
  have hnpos : 0 < n := by omega
  have hnle : n ≤ src.length := by omega
  have hdrop : (src.drop n).length = src.length - n := List.length_drop
  obtain ⟨howned, hown⟩ := ho.update (v := v) hfits hdata hb
  have hge := (ho.inData hb).1.1
  have hbelow : ∀ y < (superOf d').dataStart, update d' b v y = d' y :=
    fun y hy => update_of_lt hge hy
  have hs : superOf (update d' b v) = superOf d' :=
    superOf_congr fun y hy => hbelow y (hy.trans bitmapStart_lt_dataStart)
  have hsub : slotsOf (off / bSize) ⊆ slotsIn off src.length :=
    slotsOf_subset_slotsIn le_rfl (by omega)
  have hsub' : slotsIn (off + n) (src.drop n).length ⊆ slotsIn off src.length :=
    slotsIn_subset (by omega) (by rw [hdrop]; omega)
  -- The write to the block changes no pointer.
  have hstore : Extends i (slotsIn off src.length) 0 d' D' (update d' b v) D' :=
    ⟨fun y hy => hbelow y (hy.trans bitmapStart_lt_dataStart), fun _ _ => rfl, ⟨_, rfl⟩,
      fun s c hs => hown ▸ hs, fun s c hn' hs =>
      absurd (hn'.symm.trans ((congrFun hown s).symm.trans hs)) (by simp), fun L _ => by
      rw [missing, missing, hown, Nat.add_zero], by
      rw [spare_congr hs fun y _ hy => hbelow y hy, Nat.add_zero], fun _ => rfl, fun ht => by
      rwa [hown, used_congr hfits hs fun y _ hy => hbelow y hy]⟩
  refine ⟨?_, fun o h1 h2 => ?_, fun j hj o ho' => ?_⟩
  · rw [← Nat.zero_add c']
    exact (hg.toExtends.mono hsub).trans (hstore.trans (h.shape.mono hsub'))
  · rcases Nat.lt_or_ge o (off + n) with hlt | hge'
    · obtain ⟨t, rfl⟩ : ∃ t, o = off + t := ⟨o - off, by omega⟩
      rw [(div_mod_add (n := src.length) (by omega)).1, h.shape.kept _ b (hown ▸ hb)]
      exact Option.some_ne_none b
    · exact h.full o hge' (by rw [hdrop]; omega)
  · have hj' : Allocated (superOf d') D' j := hg.allocated.2 hj
    have hj'' : Allocated (superOf (update d' b v)) D' j := hstore.allocated.2 hj'
    rw [h.bytes j hj'' o ho', byteAt_update ho hj' hb ho', ← hg.byteAt hj ho', hdrop]
    by_cases hlate : j = i ∧ off + n ≤ o ∧ o < off + n + (src.length - n)
    · rw [if_pos hlate, if_pos ⟨hlate.1, by omega, by omega⟩, List.getD_eq_getElem?_getD,
        List.getElem?_drop, show n + (o - (off + n)) = o - off by
        omega, ← List.getD_eq_getElem?_getD]
    rw [if_neg hlate]
    by_cases hblock : j = i ∧ o / bSize = off / bSize
    · obtain ⟨rfl, hdiv⟩ := hblock
      have ho'' := Nat.div_add_mod o bSize
      have hoff' := Nat.div_add_mod off bSize
      have hmod' : o % bSize < bSize := Nat.mod_lt _ (by decide)
      rw [hdiv] at ho''
      rw [if_pos ⟨rfl, hdiv⟩, hv, get_putBytes _ _ _ (by rw [List.length_take]; omega),
        List.length_take, byteAt_of_some (by rwa [hdiv])]
      by_cases hin : off ≤ o ∧ o < off + n
      · rw [if_pos (by omega), if_pos (by omega), List.getD_eq_getElem?_getD,
          List.getElem?_take_of_lt (by omega), show o % bSize - off % bSize = o - off by omega,
          ← List.getD_eq_getElem?_getD]
      · rw [if_neg (by omega), if_neg (by omega)]
    · rw [if_neg hblock, if_neg]
      rintro ⟨rfl, h1, h2⟩
      have hlt : o - off < min src.length (bSize - off % bSize) := by omega
      have hdiv := (div_mod_add hlt).1
      rw [show off + (o - off) = o by omega] at hdiv
      exact hblock ⟨rfl, hdiv⟩

end

/-- A thread replaces a part of the contents of the inode `i`, without a change of its size. -/
structure Wrote (A : Allow) (ip i off : Nat) (src : List Byte) (a : FsState Vol) (g : Ghost)
    (a' : FsState Vol) (g' : Ghost) : Prop where
  fit : Fit A a' g'
  frame : a.Frame ip a'
  le : g'.m ≤ g.m
  shape : Extends i (slotsIn off src.length) (g.m - g'.m) a.bufs.data g.D a'.bufs.data g'.D
  sub : g.U ⊆ g'.U
  new : ∀ s b, owner a.bufs.data g.D s = none → owner a'.bufs.data g'.D s = some b → b ∈ g'.U
  full : ∀ o, off ≤ o → o < off + src.length →
    owner a'.bufs.data g'.D (i, slotOf (o / bSize)) ≠ none
  bytes : ∀ j, Allocated (superOf a.bufs.data) g.D j → ∀ o < maxFile * bSize,
    byteAt a'.bufs.data (g'.D j) o =
      if j = i ∧ off ≤ o ∧ o < off + src.length then src.getD (o - off) 0
      else byteAt a.bufs.data (g.D j) o

/-- A block of the contents is changed and logged. -/
theorem Fit.store (h : Fit A a g) {v : Block} (hb : owner a.bufs.data g.D (i, slotOf bn) = some b)
    (hU : b ∈ g.U) : Fit A (a.store b v) g := by
  obtain ⟨howned, hown⟩ := h.owned.update (v := v) h.logStart_le h.dataStart_le hb
  have hge := (h.owned.inData hb).1.1
  have hbelow : ∀ y < (superOf a.bufs.data).dataStart, update a.bufs.data b v y = a.bufs.data y :=
    fun y hy => update_of_lt hge hy
  have hs : superOf (update a.bufs.data b v) = superOf a.bufs.data :=
    superOf_congr fun y hy => hbelow y (hy.trans bitmapStart_lt_dataStart)
  exact ⟨h.geo.congr hs rfl rfl, howned, fun e j he =>
    h.cached e j ⟨he.ref, he.valid, he.inum⟩, h.unique,
      h.spare.trans_eq (spare_congr hs fun y _ hy => hbelow y hy).symm, h.budget.imp id fun hf =>
      hf.store hU hs⟩

theorem Wrote.refl (h : Fit A a g) : Wrote A ip i off [] a g a g where
  fit := h
  frame := .refl
  le := le_rfl
  shape := by
    rw [Nat.sub_self]
    exact .refl
  sub := subset_rfl
  new s b hn hs := absurd (hn.symm.trans hs) nofun
  full := Stored.nil.full
  bytes := Stored.nil.bytes

theorem Wrote.stored (h : Wrote A ip i off src a g a' g') :
    Stored i off src (g.m - g'.m) a.bufs.data g.D a'.bufs.data g'.D :=
  ⟨h.shape, h.full, h.bytes⟩

/-- One turn of the loop of `inode_write`: the block is mapped and written, and then the rest
is. -/
theorem Wrote.turn {n : Nat} {v : Block} (hn : n = min src.length (bSize - off % bSize))
    (hpos : 0 < src.length) (hg : Grown A ip i (slotsOf (off / bSize)) a g a' g')
    (hb : owner a'.bufs.data g'.D (i, slotOf (off / bSize)) = some b)
    (hv : v = putBytes (a'.bufs.data b) (off % bSize) (src.take n))
    (h : Wrote A ip i (off + n) (src.drop n) (a'.store b v) g' a'' g'') :
    Wrote A ip i off src a g a'' g'' := by
  obtain ⟨hshape, hfull, hbytes⟩ :
      Stored i off src (g.m - g'.m + (g'.m - g''.m)) a.bufs.data g.D a''.bufs.data g''.D :=
    .turn hn hpos hg.fit.logStart_le hg.fit.dataStart_le hg.fit.owned hg.grows hb hv h.stored
  have hsum : g.m - g''.m = g.m - g'.m + (g'.m - g''.m) := by
    have := hg.le
    have := h.le
    omega
  refine ⟨h.fit, (hg.frame.trans .store).trans h.frame, h.le.trans hg.le, hsum ▸ hshape,
    hg.sub.trans h.sub, fun s c hn' hs => ?_, hfull, hbytes⟩
  have hown : owner (a'.store b v).bufs.data g'.D = owner a'.bufs.data g'.D :=
    (hg.fit.owned.update hg.fit.logStart_le hg.fit.dataStart_le hb).2
  cases hmid : owner a'.bufs.data g'.D s with
  | none => exact h.new s c (hown ▸ hmid) hs
  | some c' =>
    obtain rfl := Option.some.inj ((h.shape.kept s c' (hown ▸ hmid)).symm.trans hs)
    exact h.sub (hg.new s c' hn' hmid)

/-- The loop of `inode_write`. -/
theorem vwp_inodeWriteFrom {Q : Unit → FsState Vol → Prop} {turns : Nat} (h : Fit A a g)
    (hip : a.Opens ip i) (hi : Allocated (superOf a.bufs.data) g.D i) (hbusy : a.log.busy = true)
    (hheld : a.bufs.held = ∅) (hmax : off + src.length ≤ maxFile * bSize)
    (hturns : src.length ≤ turns) (hm : missing a.bufs.data g.D i (slotsIn off src.length) ≤ g.m)
    (hU : ∀ k ∈ slotsIn off src.length, ∀ b, owner a.bufs.data g.D (i, k) = some b → b ∈ g.U)
    (hQ : ∀ a' g', Wrote A ip i off src a g a' g' → Q () a') :
    vwp A pid (inodeWriteFrom ip turns off src) Q a := by
  induction turns generalizing off src a g Q with
  | zero =>
    obtain rfl : src = [] := List.length_eq_zero_iff.1 (by omega)
    exact vwp_pure (hQ a g (.refl h))
  | succ turns ih =>
    refine vwp_ite (fun hn => ?_) fun hn => ?_
    · obtain rfl : src = [] := List.length_eq_zero_iff.1 hn
      exact vwp_pure (hQ a g (.refl h))
    have hpos : 0 < src.length := Nat.pos_of_ne_zero hn
    have hsub : slotsOf (off / bSize) ⊆ slotsIn off src.length :=
      slotsOf_subset_slotsIn le_rfl (by omega)
    refine vwp_bind (vwp_bmap h hip hi hbusy hheld (div_bSize_lt (by omega))
      ((missing_mono hsub).trans hm) (fun hmem x hx => hU _ (hsub hmem) x hx)
      fun b a₁ g₁ hg hb => ?_)
    have hip₁ := hg.frame.opens_iff.2 hip
    have hi₁ := hg.grows.allocated.2 hi
    have hheld₁ : a₁.bufs.held = ∅ := by rw [hg.frame.held, hheld]
    have hbusy₁ : a₁.log.busy = true := by rw [hg.frame.busy, hbusy]
    have hU₁ : ∀ k ∈ slotsIn off src.length, ∀ b, owner a₁.bufs.data g₁.D (i, k) = some b →
        b ∈ g₁.U := by
      intro k hk c hc
      cases hold : owner a.bufs.data g.D (i, k) with
      | none => exact hg.new _ c hold hc
      | some c' =>
        obtain rfl := Option.some.inj ((hg.grows.kept _ c' hold).symm.trans hc)
        exact hg.sub (hU k hk c' hold)
    have hbU : b ∈ g₁.U := hU₁ _ (hsub slotOf_mem_slotsOf) b hb
    obtain ⟨hhome, -, -⟩ := hg.fit.owned_block hb
    refine vwp_update (f := fun data => putBytes data (off % bSize) (src.take (min src.length
      (bSize - off % bSize)))) hbusy₁ (hg.fit.room (by simp [hheld₁]))
      (by simp [hheld₁]) hhome rfl ?_
    obtain ⟨howned, hown⟩ := hg.fit.owned.update hg.fit.logStart_le hg.fit.dataStart_le hb
      (v := putBytes (a₁.bufs.data b) (off % bSize)
        (src.take (min src.length (bSize - off % bSize))))
    have hs : superOf (a₁.store b (putBytes (a₁.bufs.data b) (off % bSize)
        (src.take (min src.length (bSize - off % bSize))))).bufs.data = superOf a₁.bufs.data :=
      superOf_congr fun y hy => update_of_lt (hg.fit.owned.inData hb).1.1
        (hy.trans bitmapStart_lt_dataStart)
    have hdrop : (src.drop (min src.length (bSize - off % bSize))).length =
        src.length - min src.length (bSize - off % bSize) := List.length_drop
    have hnpos : 0 < min src.length (bSize - off % bSize) := by
      rw [show bSize = 512 from rfl]
      omega
    have hsub' : slotsIn (off + min src.length (bSize - off % bSize))
        (src.drop (min src.length (bSize - off % bSize))).length ⊆ slotsIn off src.length :=
      slotsIn_subset (by omega) (by rw [hdrop]; omega)
    refine ih (hg.fit.store hb hbU) ⟨hip₁.ref, hip₁.valid, hip₁.inum⟩
      (by rw [hs]; exact hi₁) hbusy₁ hheld₁ (by rw [hdrop]; omega) (by rw [hdrop]; omega) ?_
      (fun k hk c hc => ?_) fun a₂ g₂ hw => hQ a₂ g₂ (.turn rfl hpos hg hb rfl hw)
    · have hle := missing_mono (i := i) (d := a₁.bufs.data) (D := g₁.D) hsub'
      have := hg.grows.missing _ hsub
      have := hg.le
      rw [missing, show owner (a₁.store b _).bufs.data g₁.D = owner a₁.bufs.data g₁.D from hown]
      rw [missing] at hle
      omega
    · rw [show owner (a₁.store b _).bufs.data g₁.D = owner a₁.bufs.data g₁.D from hown] at hc
      exact hU₁ k (hsub' hk) c hc

/-! ## Changes of the inode itself -/

/-- The inode is written to disk. -/
def FsState.putInode (a : FsState Vol) (i : Nat) (din : Dinode) : FsState Vol :=
  a.store (iblock i) (putDinode (a.bufs.data (iblock i)) (i % ipb) din)

@[simp] theorem FsState.putInode_data :
    (a.putInode i din).bufs.data = a.bufs.data.putInode i din := rfl

theorem Fit.putInode (h : Fit A a g) (hi : i < (superOf a.bufs.data).ninodes.toNat)
    (hU : iblock i ∈ g.U) :
    Fit A (a.putInode i din) g := by
  have hs : superOf (a.putInode i din).bufs.data = superOf a.bufs.data := superOf_putInode
  have hdata : ∀ y, (superOf a.bufs.data).bitmapStart ≤ y → y < (superOf a.bufs.data).dataStart →
      (a.putInode i din).bufs.data y = a.bufs.data y := fun y hy _ => Disk.putInode_of_ge hi hy
  exact ⟨h.geo.congr hs rfl rfl, h.owned.congr h.logStart_le h.dataStart_le hs hdata
      (owner_putInode h.owned hi rfl), fun e j he =>
      h.cached e j ⟨he.ref, he.valid, he.inum⟩, h.unique,
    h.spare.trans_eq (spare_congr hs hdata).symm, h.budget.imp id fun hf => hf.store hU hs⟩

/-- `inode_update`. -/
theorem vwp_inodeUpdate {Q : Unit → FsState Vol → Prop} (h : Fit A a g) (hip : a.Opens ip i)
    (hi : i < (superOf a.bufs.data).ninodes.toNat) (hbusy : a.log.busy = true)
    (hheld : a.bufs.held = ∅) (hQ : Q () (a.putInode i (g.D i))) :
    vwp A pid (inodeUpdate ip) Q a := by
  have hlt := (iblock_lt hi).trans bitmapStart_lt_dataStart
  refine vwp_bind (vwp_readInode ?_)
  rw [h.cached ip i hip, hip.inum]
  exact vwp_update (k := pure ()) hbusy (h.room (by simp [hheld])) (by simp [hheld])
    (h.home_of_lt_dataStart hlt) (fun data => putDinode data (i % ipb) (g.D i)) rfl (vwp_pure hQ)

/-- The inode is changed in memory, but for its pointers and its type. -/
theorem Fit.setDin (h : Fit A a g) (hip : a.Opens ip i) (haddrs : din.addrs = (g.D i).addrs)
    (htype : din.type = (g.D i).type) :
    Fit A { a with inode := a.inode.setDin ip din } { g with D := update g.D i din } := by
  have hown : owner a.bufs.data (update g.D i din) = owner a.bufs.data g.D :=
    owner_setFields haddrs htype
  refine h.of_frame hip .setDin rfl (fun j hj => update_of_ne hj _ _) ?_
    (h.owned.congr h.logStart_le h.dataStart_le rfl (fun _ _ _ => rfl) hown) h.spare
    (h.budget.imp id fun hf => ⟨hf.distinct, hf.sectors, hf.card, hf.size, hf.single, hf.bitmap⟩)
  simp [InodeCache.setDin]

/-! ## `inode_write` -/

/-- The size after `n` bytes were written at `off`. -/
def Dinode.sizeAfter (din : Dinode) (off n : BitVec 32) : BitVec 32 :=
  if din.size < off + n then off + n else din.size

/-- A part of the contents of the inode `i` is replaced or appended. -/
structure Written (A : Allow) (ip i : Nat) (off : BitVec 32) (src : List Byte)
    (a : FsState Vol) (g : Ghost) (a' : FsState Vol) (g' : Ghost) : Prop where
  fit : Fit A a' g'
  frame : a.Frame ip a'
  super : superOf a'.bufs.data = superOf a.bufs.data
  le : g'.m ≤ g.m
  spare : spare a'.bufs.data + (g.m - g'.m) = spare a.bufs.data
  need : g.m - g'.m ≤ missing a.bufs.data g.D i (slotsIn off.toNat src.length)
  sub : g.U ⊆ g'.U
  other : ∀ j ≠ i, g'.D j = g.D j
  fields : ∃ addrs, g'.D i =
    { g.D i with size := (g.D i).sizeAfter off (BitVec.ofNat 32 src.length), addrs }
  disk : ∀ j, j ≠ i → j < (superOf a.bufs.data).ninodes.toNat →
    dinodeAt a'.bufs.data j = dinodeAt a.bufs.data j
  saved : dinodeAt a.bufs.data i = g.D i → dinodeAt a'.bufs.data i = g'.D i
  kept : ∀ s b, owner a.bufs.data g.D s = some b → owner a'.bufs.data g'.D s = some b
  new : ∀ s b, owner a.bufs.data g.D s = none → owner a'.bufs.data g'.D s = some b →
    s.1 = i ∧ s.2 ∈ slotsIn off.toNat src.length ∧ b ∈ g'.U
  full : Full a'.bufs.data g'.D i
  bytes : ∀ j, Allocated (superOf a.bufs.data) g.D j → ∀ o < maxFile * bSize,
    byteAt a'.bufs.data (g'.D j) o =
      if j = i ∧ off.toNat ≤ o ∧ o < off.toNat + src.length then src.getD (o - off.toNat) 0
      else byteAt a.bufs.data (g.D j) o
  tight : Tight (owner a.bufs.data g.D) (used a.bufs.data) →
    Tight (owner a'.bufs.data g'.D) (used a'.bufs.data)

section
variable {off : BitVec 32} {src : List Byte}

theorem toNat_add_ofNat {n : Nat} (h : off.toNat + n < 2 ^ 32) :
    (off + BitVec.ofNat 32 n).toNat = off.toNat + n := by
  rw [BitVec.toNat_add, BitVec.toNat_ofNat, Nat.mod_eq_of_lt (show n < 2 ^ 32 by omega),
    Nat.mod_eq_of_lt h]

/-- The bytes that `Full` speaks of are there after a write at or before the end. -/
theorem Wrote.full_size (h : Wrote A ip i off.toNat src a g a' g') (hfull : Full a.bufs.data g.D i)
    (hoff : off.toNat ≤ (g.D i).size.toNat) :
    ∀ o < max (g.D i).size.toNat (off.toNat + src.length),
      owner a'.bufs.data g'.D (i, slotOf (o / bSize)) ≠ none := by
  intro o ho
  rcases Nat.lt_or_ge o (g.D i).size.toNat with hlt | hge
  · obtain ⟨b, hb⟩ := Option.ne_none_iff_exists'.1 (hfull.2 o hlt)
    rw [h.shape.kept _ b hb]
    exact nofun
  · exact h.full o (by omega) (by omega)

theorem Wrote.missing_le (h : Wrote A ip i off.toNat src a g a' g') :
    g.m - g'.m ≤ missing a.bufs.data g.D i (slotsIn off.toNat src.length) := by
  have := h.shape.missing _ subset_rfl
  omega

/-- If the blocks of a part of the contents are there, no pointer for it is missing. -/
theorem missing_slotsIn {d : Disk} {D : Nat → Dinode} {o n : Nat} (hi : Allocated (superOf d) D i)
    (hmax : o + n ≤ maxFile * bSize)
    (h : ∀ o', o ≤ o' → o' < o + n → owner d D (i, slotOf (o' / bSize)) ≠ none) :
    missing d D i (slotsIn o n) = 0 := by
  rw [missing, Finset.card_eq_zero, Finset.filter_eq_empty_iff]
  intro k hk hnone
  obtain ⟨bn, hbn, hk⟩ := Finset.mem_biUnion.1 hk
  obtain ⟨o', ho, rfl⟩ := Finset.mem_image.1 hbn
  rw [Finset.mem_Ico] at ho
  have hsome := h o' ho.1 ho.2
  have hlt : o' / bSize < maxFile := div_bSize_lt (by omega)
  -- The pointer is that of the block, or that of the indirect block which holds it.
  rw [slotsOf] at hk
  rw [slotOf] at hsome
  split at hk
  · next hlt =>
    rw [if_pos hlt] at hsome
    rw [Finset.mem_singleton.1 hk] at hnone
    exact hsome hnone
  · next hge =>
    rw [if_neg hge] at hsome
    rcases Finset.mem_insert.1 hk with rfl | hk
    · rw [owner_eq_none hi nDirect_lt_nSlots, ptr_of_le le_rfl] at hnone
      refine hsome ((owner_eq_none hi ?_).2 (ptr_of_no_indirect (by omega) ?_))
      · have := slotOf_lt hlt
        rwa [slotOf, if_neg hge] at this
      · exact BitVec.eq_of_toNat_eq hnone
    · rw [Finset.mem_singleton.1 hk] at hnone
      exact hsome hnone

/-- No block is missing below the size. -/
theorem Full.missing_eq_zero (h : Full a.bufs.data g.D i)
    (hi : Allocated (superOf a.bufs.data) g.D i) {n : Nat}
    (hn : off.toNat + n ≤ (g.D i).size.toNat) :
    missing a.bufs.data g.D i (slotsIn off.toNat n) = 0 :=
  missing_slotsIn hi (hn.trans h.1) fun o' _ h2 => h.2 o' (by omega)

/-- A write inside of the contents. -/
theorem Wrote.written (h : Wrote A ip i off.toNat src a g a' g') (hfull : Full a.bufs.data g.D i)
    (hi : Allocated (superOf a.bufs.data) g.D i)
    (hn : off.toNat + src.length ≤ (g.D i).size.toNat) : Written A ip i off src a g a' g' := by
  have hzero : g.m - g'.m = 0 := by
    have := h.missing_le
    rw [hfull.missing_eq_zero hi hn] at this
    omega
  have hD : g'.D = g.D := h.shape.same hzero
  have hsize : (g.D i).sizeAfter off (BitVec.ofNat 32 src.length) = (g.D i).size := by
    rw [Dinode.sizeAfter, if_neg]
    rw [BitVec.lt_def, toNat_add_ofNat (hn.trans_lt (g.D i).size.isLt)]
    omega
  refine ⟨h.fit, h.frame, h.shape.super, h.le, h.shape.spare, h.missing_le, h.sub,
    h.shape.other, ?_, fun j _ hj => h.shape.dinodeAt hj, fun hd => ?_, h.shape.kept,
    fun s b hn' hs => ?_, ⟨?_, ?_⟩, h.bytes, h.shape.tight⟩
  · exact ⟨(g.D i).addrs, by rw [hD, hsize]⟩
  · rw [h.shape.dinodeAt hi.2.1, hD, hd]
  · obtain ⟨h1, h2⟩ := h.shape.new s b hn' hs
    exact ⟨h1, h2, h.new s b hn' hs⟩
  · rw [hD]
    exact hfull.1
  · intro o ho
    rw [hD] at ho
    exact h.full_size hfull (by omega) o (by omega)

/-- A write that ends behind the contents. -/
theorem Wrote.extended (h : Wrote A ip i off.toNat src a g a' g') (hfull : Full a.bufs.data g.D i)
    (hip : a.Opens ip i) (hi : Allocated (superOf a.bufs.data) g.D i) (hU : iblock i ∈ g.U)
    (hoff : off.toNat ≤ (g.D i).size.toNat) (hmax : off.toNat + src.length ≤ maxFile * bSize)
    (hn : (g.D i).size.toNat < off.toNat + src.length) {din : Dinode}
    (hdin : din = { g'.D i with size := off + BitVec.ofNat 32 src.length }) :
    Written A ip i off src a g
      (FsState.putInode { a' with inode := a'.inode.setDin ip din } i din)
      { g' with D := update g'.D i din } := by
  have hlt : off.toNat + src.length < 2 ^ 32 := hmax.trans_lt (by decide)
  have hip' := h.frame.opens_iff.2 hip
  have hi' : Allocated (superOf a'.bufs.data) g'.D i := h.shape.allocated.2 hi
  have haddrs : din.addrs = (g'.D i).addrs := by rw [hdin]
  have htype : din.type = (g'.D i).type := by rw [hdin]
  have hset := h.fit.setDin hip' haddrs htype
  have hfit : Fit A (FsState.putInode { a' with inode := a'.inode.setDin ip din } i din)
      { g' with D := update g'.D i din } := hset.putInode hi'.2.1 (h.sub hU)
  have hown' : owner (a'.bufs.data.putInode i din) (update g'.D i din) =
      owner a'.bufs.data g'.D :=
    owner_putInode h.fit.owned hi'.2.1 (owner_setFields haddrs htype)
  have hsize : (g.D i).sizeAfter off (BitVec.ofNat 32 src.length) =
      off + BitVec.ofNat 32 src.length := by
    rw [Dinode.sizeAfter, if_pos]
    rw [BitVec.lt_def, toNat_add_ofNat hlt]
    omega
  have hsuper : superOf (a'.bufs.data.putInode i din) = superOf a.bufs.data :=
    superOf_putInode.trans h.shape.super
  have hspare : spare (a'.bufs.data.putInode i din) = spare a'.bufs.data :=
    spare_congr superOf_putInode fun y hy _ => Disk.putInode_of_ge hi'.2.1 hy
  refine ⟨hfit, (h.frame.trans .setDin).trans .store, hsuper, h.le, ?_, h.missing_le, h.sub,
    fun j hj => ?_, ?_, fun j hj hlt' => ?_, fun _ => ?_, fun s b hs => ?_, fun s b hn' hs => ?_,
    ⟨?_, fun o ho => ?_⟩, fun j hj o ho => ?_, fun ht => ?_⟩
  · exact (congrArg (· + (g.m - g'.m)) hspare).trans h.shape.spare
  · exact (update_of_ne hj _ _).trans (h.shape.other j hj)
  · obtain ⟨addrs, ha⟩ := h.shape.fields
    exact ⟨addrs, (update_self _ _ _).trans (by rw [hdin, ha, hsize])⟩
  · exact (dinodeAt_putInode.trans (if_neg hj)).trans (h.shape.dinodeAt hlt')
  · exact (dinodeAt_putInode.trans (if_pos rfl)).trans (update_self i din g'.D).symm
  · exact hown' ▸ h.shape.kept s b hs
  · have hs' : owner a'.bufs.data g'.D s = some b := hown' ▸ hs
    obtain ⟨h1, h2⟩ := h.shape.new s b hn' hs'
    exact ⟨h1, h2, h.new s b hn' hs'⟩
  · simp only [update_self, hdin]
    rw [toNat_add_ofNat hlt]
    exact hmax
  · simp only [update_self, hdin] at ho
    rw [toNat_add_ofNat hlt] at ho
    exact hown' ▸ h.full_size hfull hoff o (by omega)
  · have hj' : Allocated (superOf a'.bufs.data) g'.D j := h.shape.allocated.2 hj
    have hj'' : Allocated (superOf (a'.bufs.data.putInode i din)) (update g'.D i din) j := by
      rw [superOf_putInode, allocated_update htype]
      exact hj'
    rw [← h.bytes j hj o ho]
    exact byteAt_congr hj' hj'' (fun _ => congrFun hown' _)
      (fun s b hs => Disk.putInode_of_ge
        hi'.2.1 (bitmapStart_lt_dataStart.le.trans (h.fit.owned.inData hs).1.1)) ho
  · show Tight (owner (a'.bufs.data.putInode i din) (update g'.D i din))
      (used (a'.bufs.data.putInode i din))
    rw [hown', used_congr h.fit.logStart_le superOf_putInode fun y hy _ =>
      Disk.putInode_of_ge hi'.2.1 hy]
    exact h.shape.tight ht

/-- `inode_write` fails behind the end, on overflow and beyond the maximal size; otherwise it
writes all bytes. -/
theorem vwp_inodeWrite {Q : Option Nat → FsState Vol → Prop} (h : Fit A a g) (hip : a.Opens ip i)
    (hi : Allocated (superOf a.bufs.data) g.D i) (hbusy : a.log.busy = true)
    (hheld : a.bufs.held = ∅) (htype : (g.D i).type ≠ tDev) (hfull : Full a.bufs.data g.D i)
    (hlen : src.length < 2 ^ 32) (hm : off.toNat + src.length ≤ maxFile * bSize →
      missing a.bufs.data g.D i (slotsIn off.toNat src.length) ≤ g.m)
    (hU : ∀ k ∈ slotsIn off.toNat src.length, ∀ b, owner a.bufs.data g.D (i, k) = some b → b ∈ g.U)
    (hUi : iblock i ∈ g.U)
    (hbad : (g.D i).size.toNat < off.toNat ∨ 2 ^ 32 ≤ off.toNat + src.length ∨
      maxFile * bSize < off.toNat + src.length → Q none a)
    (hok : off.toNat ≤ (g.D i).size.toNat → off.toNat + src.length ≤ maxFile * bSize →
      ∀ a' g', Written A ip i off src a g a' g' → Q (some src.length) a') :
    vwp A pid (inodeWrite ip src off) Q a := by
  have hval : (BitVec.ofNat 32 src.length).toNat = src.length := by
    rw [BitVec.toNat_ofNat, Nat.mod_eq_of_lt hlen]
  have hover : off + BitVec.ofNat 32 src.length < off ↔ 2 ^ 32 ≤ off.toNat + src.length := by
    rw [BitVec.lt_def, BitVec.toNat_add, hval]
    omega
  have hbig : maxFile * bSize = 71680 := rfl
  refine vwp_bind (vwp_readInode ?_)
  rw [h.cached ip i hip]
  refine vwp_ite (fun ht => absurd ht htype) fun _ =>
    vwp_ite (fun hc => vwp_pure (hbad ?_)) fun hc => ?_
  · rw [BitVec.lt_def, hover] at hc
    exact hc.imp id .inl
  rw [BitVec.lt_def, hover, not_or, Nat.not_lt, Nat.not_le] at hc
  obtain ⟨hoff, hsum⟩ := hc
  have hadd := toNat_add_ofNat hsum
  have hcmp : BitVec.ofNat 32 (maxFile * bSize) < off + BitVec.ofNat 32 src.length ↔
      maxFile * bSize < off.toNat + src.length := by
    rw [BitVec.lt_def, hadd, hbig]
    rfl
  refine vwp_ite (fun hc => vwp_pure (hbad (.inr (.inr (hcmp.1 hc))))) fun hc => ?_
  rw [hcmp, Nat.not_lt] at hc
  refine vwp_bind (vwp_inodeWriteFrom h hip hi hbusy hheld hc le_rfl (hm hc) hU fun a' g' hw => ?_)
  have hip' := hw.frame.opens_iff.2 hip
  have hi' : Allocated (superOf a'.bufs.data) g'.D i := hw.shape.allocated.2 hi
  have hsize : (g'.D i).size = (g.D i).size := by
    obtain ⟨addrs, ha⟩ := hw.shape.fields
    rw [ha]
  refine vwp_bind (vwp_readInode ?_)
  rw [hw.fit.cached ip i hip']
  refine vwp_ite (fun hgrow => ?_) fun hgrow =>
    vwp_pure (hok hoff hc a' g' (hw.written hfull hi ?_))
  · have hlt : (g.D i).size.toNat < off.toNat + src.length := by
      have := hgrow.2
      rwa [hsize, BitVec.lt_def, hadd] at this
    refine vwp_bind (vwp_setDinode (vwp_bind ?_))
    have hset : Fit A
        { a' with inode :=
          a'.inode.setDin ip { g'.D i with size := off + BitVec.ofNat 32 src.length } }
        { g' with D := update g'.D i { g'.D i with size := off + BitVec.ofNat 32 src.length } } :=
      hw.fit.setDin hip' rfl rfl
    refine vwp_inodeUpdate hset ⟨?_, ?_, ?_⟩ hi'.2.1 (hw.frame.busy.trans hbusy)
      (hw.frame.held.trans hheld) ?_
    · simpa [InodeCache.setDin] using hip'.ref
    · simpa [InodeCache.setDin] using hip'.valid
    · simpa [InodeCache.setDin] using hip'.inum
    · simp only [update_self]
      exact vwp_pure (hok hoff hc _ _ (hw.extended hfull hip hi hUi hoff hc hlt rfl))
  · rw [not_and, hsize, BitVec.lt_def, BitVec.lt_def, hadd, hval, Nat.not_lt] at hgrow
    rcases Nat.eq_zero_or_pos src.length with h0 | hpos
    · omega
    · exact hgrow hpos

end

end

end MCertikos
