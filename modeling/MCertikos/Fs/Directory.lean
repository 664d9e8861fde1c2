import MCertikos.Fs.ByteArray
import MCertikos.Fs.Handles
import MCertikos.Fs.Path

/-!
# Directories on a volume

A directory is a file of entries of 16 bytes. `dirent` is an entry and `nDirents` their number.
`dir_lookup` goes through them until it finds a live one with the name; `dir_link` writes an entry
at the first free one, or behind the last one (`EntrySet`).
-/

namespace MCertikos

open Program BitField

/-! ## Entries -/

/-- The number of entries of a directory. -/
def nDirents (din : Dinode) : Nat := din.size.toNat / Dirent.size

/-- The entry number `k` of a directory. -/
def dirent (d : Disk) (din : Dinode) (k : Nat) : Dirent :=
  .ofBytes (((contents d din).drop (Dirent.size * k)).take Dirent.size)

/-- The entry is in use and has the name. -/
def Dirent.Names (de : Dirent) (name : List Byte) : Prop := dirNamecmp de.name name ∧ de.inum ≠ 0

instance (de : Dirent) (name : List Byte) : Decidable (de.Names name) :=
  inferInstanceAs (Decidable (_ ∧ _))

/-- `k` is the first number below `n` with the property, or `n`. -/
structure IsFirst (P : Nat → Prop) (n k : Nat) : Prop where
  le : k ≤ n
  hit : k < n → P k
  miss : ∀ j < k, ¬ P j

/-- The size is a multiple of that of an entry, and within the bounds of a file. -/
structure DirSize (din : Dinode) : Prop where
  whole : din.size.toNat = Dirent.size * nDirents din
  le : din.size.toNat ≤ maxFile * bSize

section
variable {d : Disk} {din : Dinode} {de : Dirent} {k n : Nat} {name : List Byte}

theorem Dirent.length_toBytes (h : de.name.length = dirSiz) : de.toBytes.length = Dirent.size := by
  rw [toBytes, List.length_cons, List.length_cons, h]
  rfl

theorem Dirent.ofBytes_toBytes (h : de.name.length = dirSiz) : Dirent.ofBytes de.toBytes = de := by
  have hinum : get de.inum 8 8 ++ get de.inum 0 8 = de.inum := by
    refine BitVec.eq_of_getLsbD_eq fun i hi => ?_
    rw [BitVec.getLsbD_append, getLsbD_get, getLsbD_get]
    by_cases hlt : i < 8
    · simp [hlt]
    · simp [hlt, show i - 8 < 8 by omega, show 8 + (i - 8) = i by omega]
  have hname : de.name.take dirSiz = de.name := List.take_of_length_le h.le
  cases de
  simp only [ofBytes, toBytes] at hinum hname ⊢
  simp [hinum, hname]

theorem length_cstr_le : (cstr name).length ≤ dirSiz :=
  (List.takeWhile_sublist _).length_le.trans (List.length_take_le _ _)

theorem length_padName : (padName name).length = dirSiz := by
  have hle : (cstr name).length ≤ dirSiz := length_cstr_le
  rw [padName, List.length_append, List.length_replicate]
  omega

theorem DirSize.entryOffsets (h : DirSize din) :
    entryOffsets din.size.toNat = (List.range' 0 (nDirents din)).map (Dirent.size * ·) := by
  have hdiv : (Dirent.size * nDirents din + Dirent.size - 1) / Dirent.size = nDirents din := by
    rw [Dirent.size]
    omega
  rw [MCertikos.entryOffsets, h.whole, hdiv, List.range_eq_range']

theorem DirSize.entry_le (h : DirSize din) (hk : k < nDirents din) :
    Dirent.size * k + Dirent.size ≤ din.size.toNat := by
  have : Dirent.size * (k + 1) ≤ Dirent.size * nDirents din := Nat.mul_le_mul_left _ hk
  rw [h.whole]
  rw [Nat.mul_add] at this
  omega

theorem toNat_ofNat_of_lt {w m : Nat} (h : m < 2 ^ w) : (BitVec.ofNat w m).toNat = m := by
  rw [BitVec.toNat_ofNat, Nat.mod_eq_of_lt h]

/-- The bytes of an entry. -/
theorem dirent_bytes (hk : Dirent.size * k + Dirent.size ≤ din.size.toNat) :
    dirent d din k = .ofBytes ((List.range Dirent.size).map fun t =>
      byteAt d din (Dirent.size * k + t)) := by
  rw [dirent, take_drop_contents, Nat.min_eq_left (by omega)]

end

/-! ## Reading entries -/

section
variable {A A' : Allow} {pid dp i k m : Nat} {a : FsState Vol} {g : Ghost}
  {Q : Option (Nat × Nat) → FsState Vol → Prop} {name : List Byte}

/-- The directory `i` is open at `dp`, and its entries can be read. -/
structure Lists (A : Allow) (a : FsState Vol) (g : Ghost) (dp i : Nat) : Prop where
  opens : a.Opens dp i
  reads : A.Reads a
  held : a.bufs.held = ∅
  type : (g.D i).type = tDir
  full : Full a.bufs.data g.D i
  size : DirSize (g.D i)

theorem Lists.notDev (h : Lists A a g dp i) : (g.D i).type ≠ tDev := by
  rw [h.type]
  decide

/-- The directory `i` is open at `dp`, and its first `m` entries can be read. -/
structure ListsTo (A : Allow) (a : FsState Vol) (g : Ghost) (dp i m : Nat) : Prop where
  opens : a.Opens dp i
  reads : A.Reads a
  held : a.bufs.held = ∅
  type : (g.D i).type = tDir
  size : DirSize (g.D i)
  blocks : ∀ k < m, k < nDirents (g.D i) →
    owner a.bufs.data g.D (i, slotOf (Dirent.size * k / bSize)) ≠ none

theorem Lists.listsTo (h : Lists A a g dp i) : ListsTo A a g dp i (nDirents (g.D i)) := by
  refine ⟨h.opens, h.reads, h.held, h.type, h.size, fun k hk _ => h.full.2 _ ?_⟩
  have := h.size.entry_le hk
  rw [Dirent.size] at this ⊢
  omega

/-- An entry that is read. -/
theorem vwp_inodeRead_entry {Q : Option (List Byte) → FsState Vol → Prop} (h : Fit A' a g)
    (hl : ListsTo A a g dp i m) (hm : k < m) (hk : k < nDirents (g.D i))
    (hQ : ∀ bs : List Byte, bs.length = Dirent.size →
      Dirent.ofBytes bs = dirent a.bufs.data (g.D i) k →
      Q (some bs) a) :
    vwp A pid (inodeRead dp (BitVec.ofNat 32 (Dirent.size * k)) (BitVec.ofNat 32 Dirent.size))
      Q a := by
  have hend := hl.size.entry_le hk
  have hmax : maxFile * bSize < 2 ^ 32 := by decide
  have hle := hl.size.le
  have hoff : (BitVec.ofNat 32 (Dirent.size * k)).toNat = Dirent.size * k :=
    toNat_ofNat_of_lt (by omega)
  have hn : (BitVec.ofNat 32 Dirent.size).toNat = Dirent.size := rfl
  have htype : (g.D i).type ≠ tDev := by
    rw [hl.type]
    decide
  refine vwp_inodeRead_part h hl.opens hl.reads hl.held htype (fun hbad => ?_)
    (fun _ _ => hQ _ ?_ ?_) hle fun o h1 h2 _ => ?_
  · rw [hoff, hn] at hbad
    omega
  · rw [hoff, hn, Nat.min_eq_left (by omega), List.length_map, List.length_range]
  · rw [hoff, hn, Nat.min_eq_left (by omega), ← dirent_bytes hend]
  · -- An entry is in one block.
    have hdiv : o / bSize = Dirent.size * k / bSize := by
      rw [hoff] at h1 h2
      rw [hn] at h2
      rw [Dirent.size] at h1 h2 ⊢
      rw [show bSize = 512 from rfl]
      omega
    rw [hdiv]
    exact hl.blocks k hm hk

theorem vwp_readDirent {Q : Dirent → FsState Vol → Prop} (h : Fit A' a g)
    (hl : ListsTo A a g dp i m) (hm : k < m) (hk : k < nDirents (g.D i))
    (hQ : Q (dirent a.bufs.data (g.D i) k) a) :
    vwp A pid (readDirent dp (Dirent.size * k)) Q a := by
  refine vwp_bind (vwp_inodeRead_entry h hl hm hk fun bs hlen hde => ?_)
  dsimp only
  rw [if_pos hlen, hde]
  exact vwp_pure hQ

/-- The loop of `dir_lookup` from the entry `k` on. It has to read all entries, unless it finds the
name in the first `m` of them. -/
theorem vwp_dirLookupFrom (h : Fit A' a g) {n : Nat} (hl : ListsTo A a g dp i m) (he : Entries a)
    (hfull : A.panic .getNoInodes ∨ ∃ e < nInode, (a.inode e).ref = 0)
    (hn : k + n = nDirents (g.D i))
    (hm : k + n ≤ m ∨ ∃ j, k ≤ j ∧ j < k + n ∧ j < m ∧ (dirent a.bufs.data (g.D i) j).Names name)
    (hmiss : (∀ j, k ≤ j → j < k + n → ¬ (dirent a.bufs.data (g.D i) j).Names name) → Q none a)
    (hhit : ∀ j, k ≤ j → j < k + n → (dirent a.bufs.data (g.D i) j).Names name →
      (∀ l, k ≤ l → l < j → ¬ (dirent a.bufs.data (g.D i) l).Names name) →
      ∀ ip x, Gets a (dirent a.bufs.data (g.D i) j).inum.toNat ip x →
        Q (some (ip, Dirent.size * j)) (a.setEntry ip x)) :
    vwp A pid (dirLookupFrom dp name ((List.range' k n).map (Dirent.size * ·))) Q a := by
  induction n generalizing k with
  | zero => exact vwp_pure (hmiss fun j h1 h2 => by omega)
  | succ n ih =>
    rw [List.range'_succ, List.map_cons, dirLookupFrom]
    have hkm : k < m := by
      rcases hm with hm | ⟨j, h1, -, h3, -⟩ <;> omega
    refine vwp_bind (vwp_readDirent h hl hkm (by omega) (vwp_ite (fun hnames => ?_) fun hno => ?_))
    · refine vwp_bind (vwp_readInode (vwp_bind ?_))
      rw [he.dev dp hl.opens.ref]
      refine vwp_inodeGet he (hfull.imp id fun ⟨e, hlt, h0⟩ => ⟨e, hlt, .inl h0⟩)
        fun ip x hg => vwp_pure ?_
      exact hhit k le_rfl (by omega) hnames (fun l h1 h2 => by omega) ip x hg
    · refine ih (by omega) ?_ (fun hall => hmiss fun j h1 h2 => ?_) fun j h1 h2 hj hbefore => ?_
      · refine hm.imp (fun hm => by omega) fun ⟨j, h1, h2, h3, hj⟩ => ⟨j, ?_, by omega, h3, hj⟩
        exact Nat.lt_of_le_of_ne h1 fun hkj => hno (hkj ▸ hj)
      · rcases Nat.eq_or_lt_of_le h1 with rfl | hlt
        · exact hno
        · exact hall j hlt (by omega)
      · refine hhit j (by omega) (by omega) hj fun l h3 h4 => ?_
        rcases Nat.eq_or_lt_of_le h3 with rfl | hlt
        · exact hno
        · exact hbefore l hlt h4

/-- `dir_lookup` gives the inode of the first live entry with the name. -/
theorem vwp_dirLookup (h : Fit A' a g) (hl : ListsTo A a g dp i m) (he : Entries a)
    (hfull : A.panic .getNoInodes ∨ ∃ e < nInode, (a.inode e).ref = 0)
    (hm : nDirents (g.D i) ≤ m ∨ ∃ j < nDirents (g.D i), j < m ∧
      (dirent a.bufs.data (g.D i) j).Names name)
    (hmiss : (∀ j < nDirents (g.D i), ¬ (dirent a.bufs.data (g.D i) j).Names name) → Q none a)
    (hhit : ∀ k < nDirents (g.D i), (dirent a.bufs.data (g.D i) k).Names name →
      (∀ j < k, ¬ (dirent a.bufs.data (g.D i) j).Names name) →
      ∀ ip x, Gets a (dirent a.bufs.data (g.D i) k).inum.toNat ip x →
        Q (some (ip, Dirent.size * k)) (a.setEntry ip x)) :
    vwp A pid (dirLookup dp name) Q a := by
  refine vwp_bind (vwp_readInode ?_)
  rw [h.cached dp i hl.opens]
  refine vwp_ite (fun hne => absurd hl.type hne) fun _ => ?_
  rw [hl.size.entryOffsets]
  refine vwp_dirLookupFrom h hl he hfull (Nat.zero_add _) ?_ (fun hall => hmiss fun j hj => ?_)
    fun k _ hk hnames hbefore => hhit k (by omega) hnames fun j hj => hbefore j (Nat.zero_le _) hj
  · exact hm.imp (fun hm => by omega) fun ⟨j, h1, h2, hj⟩ => ⟨j, Nat.zero_le _, by omega, h2, hj⟩
  · exact hall j (Nat.zero_le _) (by omega)

/-- The loop of `dir_link` finds the first free entry. -/
theorem vwp_freeEntryFrom {Q : Nat → FsState Vol → Prop} (h : Fit A' a g)
    (hl : Lists A a g dp i) {n : Nat} (hn : k + n = nDirents (g.D i))
    (hbefore : ∀ j < k, (dirent a.bufs.data (g.D i) j).inum ≠ 0)
    (hQ : ∀ j, IsFirst (fun j => (dirent a.bufs.data (g.D i) j).inum = 0) (nDirents (g.D i)) j →
      Q (Dirent.size * j) a) :
    vwp A pid (freeEntryFrom dp (Dirent.size * nDirents (g.D i))
      ((List.range' k n).map (Dirent.size * ·)))
      Q a := by
  induction n generalizing k with
  | zero =>
    obtain rfl : k = nDirents (g.D i) := hn
    exact vwp_pure (hQ _ ⟨le_rfl, fun hlt => absurd hlt (Nat.lt_irrefl _), hbefore⟩)
  | succ n ih =>
    rw [List.range'_succ, List.map_cons, freeEntryFrom]
    refine vwp_bind (vwp_readDirent h hl.listsTo (by omega) (by omega)
      (vwp_ite (fun h0 => vwp_pure ?_) fun hne => ?_))
    · exact hQ k ⟨by omega, fun _ => h0, hbefore⟩
    · refine ih (by omega) fun j hj => ?_
      rcases Nat.lt_succ_iff_lt_or_eq.1 hj with hlt | rfl
      · exact hbefore j hlt
      · exact hne

end

/-! ## Writing entries -/

/-- The entry number `k` of the directory `i` is written. -/
structure EntrySet (i k : Nat) (de : Dirent) (d : Disk) (D : Nat → Dinode) (d' : Disk)
    (D' : Nat → Dinode) : Prop where
  size : DirSize (D' i)
  count : nDirents (D' i) = max (nDirents (D i)) (k + 1)
  entry : ∀ j < nDirents (D' i), dirent d' (D' i) j = if j = k then de else dirent d (D i) j

section
variable {A A' : Allow} {pid dp i k : Nat} {a a' : FsState Vol} {g g' : Ghost} {de : Dirent}

/-- An entry is in one block. -/
theorem slotsIn_entry : slotsIn (Dirent.size * k) Dirent.size =
    slotsOf (Dirent.size * k / bSize) := by
  have himage : (Finset.Ico (Dirent.size * k) (Dirent.size * k + Dirent.size)).image (· / bSize) =
      {Dirent.size * k / bSize} := by
    ext b
    simp only [Finset.mem_image, Finset.mem_Ico, Finset.mem_singleton, Dirent.size, bSize]
    constructor
    · rintro ⟨o, ho, rfl⟩
      omega
    · rintro rfl
      exact ⟨16 * k, ⟨le_rfl, by omega⟩, rfl⟩
  rw [slotsIn, himage, Finset.singleton_biUnion]

/-- Writing the bytes of an entry sets the entry. -/
theorem Written.entrySet {off : BitVec 32} (h : Written A dp i off de.toBytes a g a' g')
    (hi : Allocated (superOf a.bufs.data) g.D i) (hsize : DirSize (g.D i))
    (hoff : off.toNat = Dirent.size * k) (hk : k ≤ nDirents (g.D i))
    (hname : de.name.length = dirSiz) (hmax : Dirent.size * k + Dirent.size ≤ maxFile * bSize) :
    EntrySet i k de a.bufs.data g.D a'.bufs.data g'.D := by
  have hlen := Dirent.length_toBytes hname
  have hsize' : (g'.D i).size.toNat = Dirent.size * max (nDirents (g.D i)) (k + 1) := by
    rw [h.size_toNat (by rw [hoff, hlen]; exact hmax), hoff, hlen, hsize.whole,
      ← Nat.mul_max_mul_left, Nat.mul_add, Nat.mul_one]
  have hcount : nDirents (g'.D i) = max (nDirents (g.D i)) (k + 1) := by
    rw [nDirents, hsize', Nat.mul_div_cancel_left _ (by decide)]
  refine ⟨⟨by rw [hcount, hsize'], ?_⟩, hcount, fun j hj => ?_⟩
  · exact h.full.1
  have hend : Dirent.size * j + Dirent.size ≤ (g'.D i).size.toNat := by
    have : Dirent.size * (j + 1) ≤ Dirent.size * max (nDirents (g.D i)) (k + 1) :=
      Nat.mul_le_mul_left _ (hcount ▸ hj)
    rw [Nat.mul_add] at this
    omega
  have hlt : ∀ t < Dirent.size, Dirent.size * j + t < maxFile * bSize := fun t ht => by
    have := h.full.1
    omega
  rw [dirent_bytes hend]
  by_cases hjk : j = k
  · subst hjk
    rw [if_pos rfl]
    have hbytes : (List.range Dirent.size).map
      (fun t => byteAt a'.bufs.data (g'.D i) (Dirent.size * j + t)) =
        de.toBytes := by
      refine List.ext_getElem (by rw [List.length_map, List.length_range, hlen]) fun t h1 h2 => ?_
      rw [List.length_map, List.length_range] at h1
      rw [List.getElem_map, List.getElem_range, h.bytes i hi _ (hlt t h1), hoff, hlen,
        if_pos ⟨rfl, by omega, by omega⟩, Nat.add_sub_cancel_left, List.getD_eq_getElem?_getD,
        List.getElem?_eq_getElem h2, Option.getD_some]
    rw [hbytes, Dirent.ofBytes_toBytes hname]
  · rw [if_neg hjk, dirent_bytes (hsize.entry_le (by omega))]
    refine congrArg Dirent.ofBytes (List.map_congr_left fun t ht => ?_)
    rw [List.mem_range] at ht
    rw [h.bytes i hi _ (hlt t ht), hoff, hlen, if_neg]
    rintro ⟨-, h1, h2⟩
    rw [Dirent.size] at h1 h2 ht
    omega

/-- A write of an entry, at most behind the last one. It fails if the directory is full. -/
theorem vwp_writeDirent {Q : Option Nat → FsState Vol → Prop} (h : Fit A a g)
    (hl : Lists A a g dp i) (hi : Allocated (superOf a.bufs.data) g.D i)
    (hbusy : a.log.busy = true) (hk : k ≤ nDirents (g.D i)) (hname : de.name.length = dirSiz)
    (hm : Dirent.size * k + Dirent.size ≤ maxFile * bSize →
      missing a.bufs.data g.D i (slotsOf (Dirent.size * k / bSize)) ≤ g.m)
    (hU : ∀ s ∈ slotsOf (Dirent.size * k / bSize), ∀ b,
      owner a.bufs.data g.D (i, s) = some b → b ∈ g.U)
    (hUi : iblock i ∈ g.U)
    (hbig : maxFile * bSize < Dirent.size * k + Dirent.size → Q none a)
    (hok : Dirent.size * k + Dirent.size ≤ maxFile * bSize →
      ∀ a' g', Written A dp i (BitVec.ofNat 32 (Dirent.size * k)) de.toBytes a g a' g' →
        EntrySet i k de a.bufs.data g.D a'.bufs.data g'.D → Q (some Dirent.size) a') :
    vwp A pid (inodeWrite dp de.toBytes (BitVec.ofNat 32 (Dirent.size * k))) Q a := by
  have hlen := Dirent.length_toBytes hname
  have hmax : maxFile * bSize + Dirent.size < 2 ^ 32 := by decide
  have hle : Dirent.size * k ≤ (g.D i).size.toNat := by
    rw [hl.size.whole]
    exact Nat.mul_le_mul_left _ hk
  have hle' := hl.size.le
  have hoff : (BitVec.ofNat 32 (Dirent.size * k)).toNat = Dirent.size * k :=
    toNat_ofNat_of_lt (by omega)
  refine vwp_inodeWrite h hl.opens hi hbusy hl.held hl.notDev
    hl.full (by rw [hlen]; decide) ?_ ?_ hUi (fun hbad => ?_) fun _ hmax' a' g' hw => ?_
  · rw [hoff, hlen, slotsIn_entry]
    exact hm
  · rw [hoff, hlen, slotsIn_entry]
    exact hU
  · rw [hoff, hlen] at hbad
    exact hbig (by omega)
  · rw [hoff, hlen] at hmax'
    rw [hlen]
    exact hok hmax' a' g' hw (hw.entrySet hi hl.size hoff hk hname hmax')

/-- `dir_link` fails if the name is there, and otherwise writes the first free entry. -/
theorem vwp_dirLink {Q : Bool → FsState Vol → Prop} {name : List Byte} {inum : Nat} (h : Fit A a g)
    (hl : Lists A a g dp i) (he : Entries a) (hi : Allocated (superOf a.bufs.data) g.D i)
    (hbusy : a.log.busy = true) (hcache : A.panic .getNoInodes ∨ ∃ e < nInode, (a.inode e).ref = 0)
    (hUi : iblock i ∈ g.U)
    (hroom : ∀ k, IsFirst (fun j => (dirent a.bufs.data (g.D i) j).inum = 0) (nDirents (g.D i)) k →
      (∀ s ∈ slotsOf (Dirent.size * k / bSize),
        ∀ b, owner a.bufs.data g.D (i, s) = some b → b ∈ g.U) ∧
      (maxFile * bSize < Dirent.size * k + Dirent.size → A.panic .dirAssert) ∧
      (Dirent.size * k + Dirent.size ≤ maxFile * bSize →
        missing a.bufs.data g.D i (slotsOf (Dirent.size * k / bSize)) ≤ g.m))
    (hhit : ∀ k < nDirents (g.D i), (dirent a.bufs.data (g.D i) k).Names name → ∀ a',
      a.Same a' → Q false a')
    (hmiss : (∀ j < nDirents (g.D i), ¬ (dirent a.bufs.data (g.D i) j).Names name) → ∀ k,
      IsFirst (fun j => (dirent a.bufs.data (g.D i) j).inum = 0) (nDirents (g.D i)) k → ∀ a' g',
      Written A dp i (BitVec.ofNat 32 (Dirent.size * k))
        (Dirent.toBytes { inum := BitVec.ofNat 16 inum, name := padName name }) a g a' g' →
      EntrySet i k { inum := BitVec.ofNat 16 inum, name := padName name } a.bufs.data g.D
      a'.bufs.data g'.D → Q true a') :
    vwp A pid (dirLink dp name inum) Q a := by
  refine vwp_bind (vwp_dirLookup h hl.listsTo he hcache (.inl le_rfl) (fun hno => ?_)
    fun k hk hnames _ ip x hg => ?_)
  · refine vwp_bind (vwp_readInode ?_)
    rw [h.cached dp i hl.opens, hl.size.entryOffsets]
    dsimp only
    rw [List.length_map, List.length_range']
    refine vwp_bind (vwp_freeEntryFrom h hl (Nat.zero_add _) nofun fun k hfirst => ?_)
    obtain ⟨hU, hfull, hm⟩ := hroom k hfirst
    refine vwp_bind (vwp_writeDirent h hl hi hbusy hfirst.le length_padName hm hU
      hUi (fun hbig => ?_) fun hmax a' g' hw hset => ?_)
    · exact vwp_ite (fun _ => vwp_bind (vwp_kernPanic (hfull hbig))) fun hne => absurd nofun hne
    · exact vwp_ite (fun hne => absurd rfl hne) fun _ =>
        vwp_pure (hmiss hno k hfirst a' g' hw hset)
  · exact vwp_bind (vwp_inodePut_got hg fun a' hs => vwp_pure (hhit k hk hnames a' hs))

end

end MCertikos
