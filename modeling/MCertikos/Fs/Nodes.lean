import MCertikos.Fs.Intact
import MCertikos.Fs.PathWalk

/-!
# Inodes as nodes

What the system calls show of an inode is its type, the number of its links and its contents: a
`Node`. `nodesOf` gives the nodes of a file system, with nothing for the inodes that are free. Each
operation on inodes changes one node: `inode_write` replaces a part of the contents, the
assignments to fields change the number of links, and inodes come and go with `inode_alloc` and
`inode_put`.
-/

namespace MCertikos

open Program Ownership Function

/-! ## Nodes -/

/-- An inode as the system calls show it. -/
structure Node where
  type : BitVec 16
  nlink : BitVec 16
  bytes : List Byte

namespace Node

variable (n : Node) (k : Nat) (de : Dirent) (name : List Byte)

/-- The number of entries, for a directory. -/
def count : Nat := n.bytes.length / Dirent.size

/-- The entries of a directory. -/
def entry : Dirent := .ofBytes ((n.bytes.drop (Dirent.size * k)).take Dirent.size)

/-- The first entry with the name. -/
def find : Option Nat := (List.range n.count).find? fun k => (n.entry k).Names name

/-- The inode that has the name. -/
def lookup : Option Nat := (n.find name).map fun k => (n.entry k).inum.toNat

/-- The first entry that is free, or the number of entries. -/
def free : Nat := ((List.range n.count).find? fun k => (n.entry k).inum = 0).getD n.count

/-- The contents are entries. -/
def Whole : Prop := n.bytes.length = Dirent.size * n.count

/-- The directory with another entry. -/
def setEntry : Node := { n with bytes := spliceAt n.bytes (Dirent.size * k) de.toBytes }

end Node

/-! ### Entries -/

/-- The elements of a list with a part replaced. -/
theorem getElem?_spliceAt {l src : List Byte} {off o : Nat} (h : off ≤ l.length) :
    (spliceAt l off src)[o]? =
      if o < off then l[o]? else if o < off + src.length then src[o - off]? else l[o]? := by
  have hlen : (l.take off).length = off := List.length_take_of_le h
  rw [spliceAt, List.append_assoc]
  split
  · next hlt => rw [List.getElem?_append_left (by omega), List.getElem?_take_of_lt hlt]
  · next hge =>
    rw [List.getElem?_append_right (by omega), hlen]
    split
    · next hlt => rw [List.getElem?_append_left (by omega)]
    · next hlt =>
      rw [List.getElem?_append_right (by omega), List.getElem?_drop]
      congr 1
      omega

theorem length_spliceAt {c src : List Byte} {off : Nat} (h : off ≤ c.length) :
    (spliceAt c off src).length = max c.length (off + src.length) := by
  simp only [spliceAt, List.length_append, List.length_take, List.length_drop]
  omega

namespace Node

variable {n : Node} {j k : Nat} {de : Dirent} {name : List Byte}

theorem find_eq_some : n.find name = some k ↔
    k < n.count ∧ (n.entry k).Names name ∧ ∀ j < k, ¬ (n.entry j).Names name := by
  simp only [find, List.find?_range_eq_some, decide_eq_true_eq, Bool.not_eq_eq_eq_not,
    Bool.not_true, decide_eq_false_iff_not, List.mem_range]
  tauto

theorem find_eq_none : n.find name = none ↔ ∀ j < n.count, ¬ (n.entry j).Names name := by
  simp [find, List.find?_eq_none]

theorem isFirst_free : IsFirst (fun k => (n.entry k).inum = 0) n.count n.free := by
  rw [free]
  cases hfind : (List.range n.count).find? fun k => (n.entry k).inum = 0 with
  | none =>
    refine ⟨le_rfl, fun h => absurd h (lt_irrefl _), fun j hj => ?_⟩
    simpa using List.find?_eq_none.1 hfind j (List.mem_range.2 hj)
  | some k =>
    obtain ⟨hzero, hk, hbefore⟩ := List.find?_range_eq_some.1 hfind
    exact ⟨(List.mem_range.1 hk).le, fun _ => of_decide_eq_true hzero, fun j hj => by
      simpa using hbefore j hj⟩

section
variable (hn : n.Whole) (hk : k ≤ n.count) (hde : de.name.length = dirSiz)
include hn hk

theorem setEntry_off : Dirent.size * k ≤ n.bytes.length := hn ▸ Nat.mul_le_mul_left _ hk

include hde

theorem length_setEntry : (n.setEntry k de).bytes.length = Dirent.size * max n.count (k + 1) := by
  rw [setEntry, length_spliceAt (setEntry_off hn hk), Dirent.length_toBytes hde, hn, Dirent.size]
  omega

theorem count_setEntry : (n.setEntry k de).count = max n.count (k + 1) := by
  rw [count, length_setEntry hn hk hde, Nat.mul_div_cancel_left _ (by decide)]

theorem whole_setEntry : (n.setEntry k de).Whole := by
  rw [Whole, length_setEntry hn hk hde, count_setEntry hn hk hde]

/-- One entry is changed. -/
theorem entry_setEntry : (n.setEntry k de).entry j = if j = k then de else n.entry j := by
  have hlen := Dirent.length_toBytes hde
  have hoff := setEntry_off hn hk
  have hpart : ∀ {l : List Byte} {t : Nat}, ((l.drop (Dirent.size * j)).take Dirent.size)[t]? =
      if t < Dirent.size then l[Dirent.size * j + t]? else none := fun {l t} => by
    rw [List.getElem?_take, List.getElem?_drop]
  rw [entry, entry, setEntry]
  split
  · next hjk =>
    subst hjk
    refine (congrArg Dirent.ofBytes (List.ext_getElem? fun t => ?_)).trans
      (Dirent.ofBytes_toBytes hde)
    rw [hpart, getElem?_spliceAt hoff, hlen]
    split
    · next ht =>
      rw [if_neg (by omega), if_pos (by omega)]
      congr 1
      omega
    · next ht => exact (List.getElem?_eq_none (by omega)).symm
  · next hjk =>
    refine congrArg Dirent.ofBytes (List.ext_getElem? fun t => ?_)
    rw [hpart, hpart]
    refine ite_congr rfl (fun ht => ?_) fun _ => rfl
    rw [getElem?_spliceAt hoff, hlen]
    split
    · rfl
    · rw [Dirent.size] at *
      rw [if_neg (by omega)]

/-- A name is not found if neither the new entry nor another one has it. -/
theorem find_setEntry_eq_none (hnames : ¬ de.Names name)
    (hother : ∀ j < n.count, j ≠ k → ¬ (n.entry j).Names name) :
    (n.setEntry k de).find name = none := by
  refine find_eq_none.2 fun j hj => ?_
  rw [count_setEntry hn hk hde] at hj
  rw [entry_setEntry hn hk hde]
  split
  · exact hnames
  · next hne => exact hother j (by omega) hne

end

end Node

/-! ## The nodes of a file system -/

/-- What the system calls show of an inode. -/
def nodeOf (d : Disk) (din : Dinode) : Node := ⟨din.type, din.nlink, contents d din⟩

/-- The nodes of a file system. -/
def nodesOf (d : Disk) (D : Nat → Dinode) (i : Nat) : Option Node :=
  if Allocated (superOf d) D i then some (nodeOf d (D i)) else none

section
variable {d d' : Disk} {din : Dinode} {D D' : Nat → Dinode} {i j : Nat} {n : Node}

theorem nodesOf_eq_some : nodesOf d D i = some n ↔ Allocated (superOf d) D i ∧
    nodeOf d (D i) = n := by
  rw [nodesOf, Option.ite_none_right_eq_some, Option.some_inj]

theorem nodesOf_eq_none : nodesOf d D i = none ↔ ¬ Allocated (superOf d) D i := by
  simp [nodesOf]

theorem nodeOf_length : (nodeOf d din).bytes.length = din.size.toNat := length_contents

theorem nodeOf_count : (nodeOf d din).count = nDirents din := by
  rw [Node.count, nodeOf_length, nDirents]

theorem nodeOf_entry {k : Nat} : (nodeOf d din).entry k = dirent d din k := rfl

theorem nodeOf_lookup {name : List Byte} : (nodeOf d din).lookup name = lookupName d din name := by
  rw [Node.lookup, Node.find, nodeOf_count, lookupName]
  rfl

theorem nodeOf_whole (hmax : din.size.toNat ≤ maxFile * bSize) :
    (nodeOf d din).Whole ↔ DirSize din := by
  rw [Node.Whole, nodeOf_length, nodeOf_count]
  exact ⟨fun h => ⟨h, hmax⟩, fun h => h.whole⟩

/-- An inode that stays, with its blocks, has the same node. -/
theorem nodesOf_congr (hsuper : superOf d' = superOf d) (hD : D' j = D j)
    (hc : Allocated (superOf d) D j → contents d' (D' j) = contents d (D j)) :
    nodesOf d' D' j = nodesOf d D j := by
  have halloc : Allocated (superOf d') D' j ↔ Allocated (superOf d) D j := by
    rw [Allocated, Allocated, hsuper, hD]
  refine ite_congr (propext halloc) (fun hj => ?_) fun _ => rfl
  rw [nodeOf, nodeOf, hc hj, hD]

/-- One node is changed. -/
theorem nodesOf_update {x : Option Node} (hself : nodesOf d' D' i = x)
    (hother : ∀ j ≠ i, nodesOf d' D' j = nodesOf d D j) :
    nodesOf d' D' = update (nodesOf d D) i x := by
  funext j
  rcases eq_or_ne j i with rfl | hne
  · rw [hself, update_self]
  · rw [hother j hne, update_of_ne hne]

end

/-! ## What the operations do to the nodes -/

section
variable {A : Allow} {ip i : Nat} {a a' : FsState Vol} {g g' : Ghost} {D D' : Nat → Dinode}
  {off : BitVec 32} {src : List Byte} {n : Node}

/-- A part of the contents is replaced. -/
theorem Written.nodes (h : Written A ip i off src a g a' g') (hc : Consistent a g.D)
    (hn : nodesOf a.bufs.data g.D i = some n) (hoff : off.toNat ≤ n.bytes.length)
    (hmax : off.toNat + src.length ≤ maxFile * bSize) :
    nodesOf a'.bufs.data g'.D =
      update (nodesOf a.bufs.data g.D)
      i (some { n with bytes := spliceAt n.bytes off.toNat src }) := by
  obtain ⟨hi, rfl⟩ := nodesOf_eq_some.1 hn
  rw [nodeOf_length] at hoff
  refine nodesOf_update (nodesOf_eq_some.2 ⟨h.allocated_iff.2 hi, ?_⟩) fun j hne =>
    nodesOf_congr h.super (h.other j hne) fun hj => h.contents_other hne hj (hc.full j hj)
  obtain ⟨addrs, hd⟩ := h.fields
  rw [nodeOf, h.contents_self hi (hc.full i hi) hoff hmax, hd]
  rfl

/-- The number of links is changed. -/
theorem FsState.nodes_setInode {din : Dinode} (h : Consistent a D)
    (hn : nodesOf a.bufs.data D i = some n) (haddrs : din.addrs = (D i).addrs)
    (htype : din.type = (D i).type) (hsize : din.size = (D i).size) :
    nodesOf (a.setInode ip i din).bufs.data (update D i din) =
      update (nodesOf a.bufs.data D) i (some { n with nlink := din.nlink }) := by
  obtain ⟨hi, rfl⟩ := nodesOf_eq_some.1 hn
  have hsuper : superOf (a.setInode ip i din).bufs.data = superOf a.bufs.data := superOf_putInode
  have hown : owner (a.setInode ip i din).bufs.data (update D i din) = owner a.bufs.data D :=
    owner_setInode h.owned hi.2.1 haddrs htype
  have halloc : ∀ j, Allocated (superOf a.bufs.data) D j →
      Allocated (superOf (a.setInode ip i din).bufs.data) (update D i din) j := fun j hj => by
    rw [hsuper]
    exact (allocated_update htype).2 hj
  have hcont : ∀ j, Allocated (superOf a.bufs.data) D j →
      contents (a.setInode ip i din).bufs.data (update D i din j) =
      contents a.bufs.data (D j) := by
    intro j hj
    refine contents_congr hj (halloc j hj) (fun _ => congrFun hown _)
      (fun k b hb => ?_) ?_ (h.full j hj)
    · exact Disk.putInode_of_ge hi.2.1 (bitmapStart_lt_dataStart.le.trans (h.owned.inData hb).1.1)
    · rcases eq_or_ne j i with rfl | hne
      · rw [update_self, hsize]
      · rw [update_of_ne hne]
  refine nodesOf_update (nodesOf_eq_some.2 ⟨halloc i hi, ?_⟩) fun j hne =>
    nodesOf_congr hsuper (update_of_ne hne _ _) (hcont j)
  rw [nodeOf, hcont i hi, update_self, htype]
  rfl

/-- A node is gone. -/
theorem Reclaimed.nodes (h : Reclaimed A ip i a g a' D') (hc : Consistent a g.D) :
    nodesOf a'.bufs.data D' = update (nodesOf a.bufs.data g.D) i none := by
  refine nodesOf_update (nodesOf_eq_none.2 fun hi => (h.allocated_iff.1 hi).1 rfl) fun j hne =>
    nodesOf_congr h.super (h.other j hne) fun hj => ?_
  refine contents_congr hj (h.allocated_iff.2 ⟨hne, hj⟩) (h.owner_other hne)
    (fun k b hb => h.data _ b hb) ?_ (hc.full j hj)
  rw [h.other j hne]

/-- A node is there, with no links and no contents. -/
theorem FsState.nodes_alloc {type : BitVec 16} (h : Consistent a D) (hpos : 0 < i)
    (hi : i < (superOf a.bufs.data).ninodes.toNat) (h0 : (D i).type = 0) (htype : type ≠ 0) :
    nodesOf (a.putInode i (.fresh type)).bufs.data (update D i (.fresh type)) =
      update (nodesOf a.bufs.data D) i (some ⟨type, 0, []⟩) := by
  have hsuper : superOf (a.putInode i (.fresh type)).bufs.data = superOf a.bufs.data :=
    superOf_putInode
  refine nodesOf_update (nodesOf_eq_some.2 ⟨?_, ?_⟩) fun j hne =>
    nodesOf_congr hsuper (update_of_ne hne _ _) fun hj => ?_
  · rw [Allocated, hsuper, update_self]
    exact ⟨hpos, hi, htype⟩
  · rw [nodeOf, update_self]
    rfl
  · have hj' : Allocated (superOf (a.putInode i (.fresh type)).bufs.data)
        (update D i (.fresh type)) j := by
      rw [Allocated, hsuper, update_of_ne hne]
      exact hj
    have hown : ∀ k, owner (a.putInode i (.fresh type)).bufs.data
      (update D i (.fresh type)) (j, k) =
        owner a.bufs.data D (j, k) := fun k => congrFun (owner_fresh h.owned hi h0) _
    refine contents_congr hj hj' hown (fun k b hb => ?_) (by rw [update_of_ne hne]) (h.full j hj)
    exact Disk.putInode_of_ge hi (bitmapStart_lt_dataStart.le.trans (h.owned.inData hb).1.1)

end

end MCertikos
