import MCertikos.Mem.AllocTable
import Mathlib.Data.List.Chain
import Mathlib.Data.List.Infix

/-!
# The physical memory map

`pmmap_init` copies the memory map of the boot loader into a list that `pmmap_insert` keeps sorted,
and `pmmap_merge` merges neighbours of one type in a single pass over it (`kern/dev/mboot.c`). The
linked lists of the source are lists here.

The result is sorted and covers, for each type, the addresses that the entries of the boot loader
cover (`sorted_mergeFrom`, `covered_mergeFrom`). The pass goes on behind a pair that it has merged,
and does not see that the merged entry touches the next one: neighbours are apart exactly if there
are no three of them in a row that touch (`apart_mergeFrom`).
-/

namespace MCertikos

/-! ## The types -/

/-- Reference: `MEM_RAM` (`kern/dev/mboot.h:87`). -/
def memRam : BitVec 32 := 1

/-- Reference: `MEM_RESERVED` (`kern/dev/mboot.h:88`). -/
def memReserved : BitVec 32 := 2

/-- Reference: `MEM_ACPI` (`kern/dev/mboot.h:89`). -/
def memAcpi : BitVec 32 := 3

/-- Reference: `MEM_NVS` (`kern/dev/mboot.h:90`). -/
def memNvs : BitVec 32 := 4

/-- Reference: `MEM_BAD` (`kern/dev/mboot.h:91`). -/
def memBad : BitVec 32 := 5

/-- Reference: `enum __pmmap_type` (`kern/dev/mboot.c:25`). -/
inductive PmmapType where
  | usable
  | resv
  | acpi
  | nvs
  deriving DecidableEq

/-- The sublist of an entry; a type without a sublist of its own goes to the reserved ones.
Reference: `PMMAP_SUBLIST_NR` (`kern/dev/mboot.c:27`, `:104`). -/
def pmmapSublistNr (type : BitVec 32) : PmmapType :=
  if type = memRam then .usable
  else if type = memReserved ∨ type = memBad then .resv
  else if type = memAcpi then .acpi
  else if type = memNvs then .nvs
  else .resv

/-- Reference: `mboot_mmap_t` (`kern/dev/mboot.h:77`). -/
structure MbootMmap where
  baseAddrLow : BitVec 32
  baseAddrHigh : BitVec 32
  lengthLow : BitVec 32
  lengthHigh : BitVec 32
  type : BitVec 32

/-- The field `end` is `stop` here. Reference: `struct pmmap` (`kern/dev/mboot.c:11`). -/
structure Pmmap where
  start : BitVec 32
  stop : BitVec 32
  type : BitVec 32
  deriving DecidableEq

/-- The list of all regions with the number of slots in use. Reference: `pmmap_list`,
`pmmap_slots_next_free` (`kern/dev/mboot.c:20`). -/
structure PmmapList where
  slotsNextFree : Nat
  list : List Pmmap

/-- What `pmmap_init` leaves behind. -/
structure PhysMap where
  list : List Pmmap
  sublist : PmmapType → List Pmmap
  maxUsableMemory : BitVec 32
  nentries : Nat
  memNpages : BitVec 32

/-! ## Insertion -/

/-- The loop of `pmmap_insert`: the new slot goes behind the last one that does not start after
it. -/
def insertSlot (free : Pmmap) : List Pmmap → List Pmmap
  | [] => [free]
  | slot :: rest =>
    if free.start < slot.start then free :: slot :: rest else slot :: insertSlot free rest

/-- No result is the panic of the kernel when all slots are in use. Reference: `pmmap_insert`
(`kern/dev/mboot.c:55`). -/
def pmmapInsert (s : PmmapList) (start stop type : BitVec 32) : Option PmmapList :=
  if s.slotsNextFree = 128 then none
  else some { slotsNextFree := s.slotsNextFree + 1, list :=
    insertSlot { start, stop, type } s.list }

/-- The end of an entry, at most `0xffffffff` (`kern/dev/mboot.c:160`). -/
def MbootMmap.stop (p : MbootMmap) : BitVec 32 :=
  if p.lengthHigh ≠ 0 ∨ 0xffffffff - p.baseAddrLow ≤ p.lengthLow then 0xffffffff
  else p.baseAddrLow + p.lengthLow

/-- A turn of the loop of `pmmap_init`. -/
def pmmapCopyEntry (s : PmmapList) (p : MbootMmap) : Option PmmapList :=
  if p.baseAddrHigh ≠ 0 then some s
  else pmmapInsert s p.baseAddrLow p.stop p.type

/-- The loop of `pmmap_init` over the entries of the boot loader, which are `sizeof(mboot_mmap_t)`
apart (`kern/dev/mboot.c:151`). -/
def pmmapCopy (mmap : List MbootMmap) : Option PmmapList :=
  mmap.foldlM pmmapCopyEntry { slotsNextFree := 0, list := [] }

/-! ## Merging -/

/-- The condition of `pmmap_merge` for two neighbours (`kern/dev/mboot.c:92`). -/
def Pmmap.Merges (slot next : Pmmap) : Prop :=
  slot.start ≤ next.start ∧ next.start ≤ slot.stop ∧ slot.type = next.type

instance (slot next : Pmmap) : Decidable (slot.Merges next) :=
  inferInstanceAs (Decidable (_ ∧ _ ∧ _))

/-- The merged entry, with the greater of the two ends (`kern/dev/mboot.c:95`). -/
def Pmmap.merge (slot next : Pmmap) : Pmmap :=
  { slot with stop := if next.stop < slot.stop then slot.stop else next.stop }

/-- The first step of `pmmap_merge`: the entry behind a merged pair is the next one that the loop
looks at (`kern/dev/mboot.c:89`). -/
def mergeFrom : List Pmmap → List Pmmap
  | slot :: next :: rest =>
    if slot.Merges next then slot.merge next :: mergeFrom rest
    else slot :: mergeFrom (next :: rest)
  | l => l

/-- The second step of `pmmap_merge`: each entry goes to the end of its sublist
(`kern/dev/mboot.c:102`). -/
def pmmapSublists (list : List Pmmap) : PmmapType → List Pmmap :=
  list.foldl (fun sublist slot =>
    let nr := pmmapSublistNr slot.type
    Function.update sublist nr (sublist nr ++ [slot])) fun _ => []

/-- Reference: `pmmap_init` (`kern/dev/mboot.c:135`). -/
def pmmapInit (mmap : List MbootMmap) : Option PhysMap := do
  let s ← pmmapCopy mmap
  let list := mergeFrom s.list
  let sublist := pmmapSublists list
  let maxUsableMemory := match (sublist .usable).getLast? with
    | some slot => slot.stop
    | none => 0
  pure
    { list, sublist, maxUsableMemory
      nentries := list.length
      memNpages := maxUsableMemory / 4096 }

namespace PhysMap

variable (m : PhysMap) (idx : Nat)

/-- Reference: `get_size` (`kern/dev/mboot.c:187`). -/
def getSize : Nat := m.nentries

/-- Reference: `get_mms` (`kern/dev/mboot.c:192`). -/
def getMms : BitVec 32 :=
  match m.list[idx]? with
  | some slot => slot.start
  | none => 0

/-- Reference: `get_mml` (`kern/dev/mboot.c:209`). -/
def getMml : BitVec 32 :=
  match m.list[idx]? with
  | some slot => slot.stop - slot.start
  | none => 0

/-- Reference: `is_usable` (`kern/dev/mboot.c:226`). -/
def isUsable : Bool :=
  match m.list[idx]? with
  | some slot => slot.type = memRam
  | none => false

/-- The rows that `pmem_init` reads (`kern/pmm/MATInit/MATInit.c:41`, `:84`). -/
def rows : List MmapEntry :=
  (List.range m.getSize).map fun i =>
    { start := m.getMms i, len := m.getMml i, usable := m.isUsable i }

end PhysMap

/-! ## The order -/

section
variable {e e' x y z free : Pmmap} {l : List Pmmap} {a : BitVec 32}

/-- The entries are sorted by their start addresses. -/
def Sorted (l : List Pmmap) : Prop := l.Pairwise fun x y => x.start ≤ y.start

theorem mem_insertSlot : e ∈ insertSlot free l ↔ e = free ∨ e ∈ l := by
  induction l with
  | nil => rw [insertSlot, List.mem_singleton, or_iff_left List.not_mem_nil]
  | cons slot rest ih =>
    rw [insertSlot]
    split_ifs
    · exact List.mem_cons
    · rw [List.mem_cons, ih, List.mem_cons, or_left_comm]

theorem sorted_insertSlot (h : Sorted l) : Sorted (insertSlot free l) := by
  induction l with
  | nil => exact List.pairwise_singleton _ _
  | cons slot rest ih =>
    obtain ⟨hslot, hrest⟩ := List.pairwise_cons.1 h
    rw [insertSlot]
    split_ifs with hlt
    · refine List.pairwise_cons.2 ⟨fun e he => ?_, h⟩
      rcases List.mem_cons.1 he with rfl | he
      · exact BitVec.le_of_lt hlt
      · exact BitVec.le_trans (BitVec.le_of_lt hlt) (hslot e he)
    · refine List.pairwise_cons.2 ⟨fun e he => ?_, ih hrest⟩
      rcases mem_insertSlot.1 he with rfl | he
      · exact BitVec.not_lt.1 hlt
      · exact hslot e he

/-- The entry at the head keeps its start and its type. -/
theorem head_mergeFrom : ∃ e' l', mergeFrom (e :: l) = e' :: l' ∧ e'.start = e.start ∧
    e'.type = e.type := by
  cases l with
  | nil => exact ⟨e, [], rfl, rfl, rfl⟩
  | cons next rest =>
    rw [mergeFrom]
    split_ifs
    · exact ⟨_, _, rfl, rfl, rfl⟩
    · exact ⟨_, _, rfl, rfl, rfl⟩

/-- Merging takes start addresses away and changes none. -/
theorem starts_mergeFrom : ((mergeFrom l).map Pmmap.start).Sublist (l.map Pmmap.start) := by
  fun_induction mergeFrom l with
  | case1 slot next rest _ ih => exact .cons_cons _ (.cons _ ih)
  | case2 slot next rest _ ih => exact .cons_cons _ ih
  | case3 l _ => exact .refl _

theorem sorted_mergeFrom (h : Sorted l) : Sorted (mergeFrom l) :=
  List.pairwise_map.1 ((List.pairwise_map.2 h).sublist starts_mergeFrom)

/-! ## The addresses -/

/-- The address is in the region. -/
def Pmmap.Covers (e : Pmmap) (a : BitVec 32) : Prop := e.start ≤ a ∧ a < e.stop

/-- An entry of the type covers the address. -/
def Covered (l : List Pmmap) (type a : BitVec 32) : Prop := ∃ e ∈ l, e.type = type ∧ e.Covers a

theorem Pmmap.covers_merge (h : x.Merges y) : (x.merge y).Covers a ↔ x.Covers a ∨ y.Covers a := by
  obtain ⟨hstart, htouch, -⟩ := h
  simp only [Covers, merge, BitVec.le_def, BitVec.lt_def] at hstart htouch ⊢
  split_ifs <;> omega

theorem covered_cons {type : BitVec 32} : Covered (e :: l) type a ↔ e.type = type ∧ e.Covers a ∨
    Covered l type a :=
  List.exists_mem_cons_iff _ _ _

/-- Merging keeps the addresses of each type. -/
theorem covered_mergeFrom {type : BitVec 32} :
    Covered (mergeFrom l) type a ↔ Covered l type a := by
  fun_induction mergeFrom l with
  | case1 slot next rest h ih =>
    have htype : (slot.merge next).type = slot.type := rfl
    rw [covered_cons, covered_cons, covered_cons, ih, Pmmap.covers_merge h, htype, ← h.2.2,
      and_or_left, or_assoc]
  | case2 slot next rest _ ih => rw [covered_cons, covered_cons, ih]
  | case3 l _ => rfl

/-! ## The neighbours -/

/-- The second entry starts in the first one or right behind it, and has its type. -/
def Pmmap.Touches (x y : Pmmap) : Prop := y.start ≤ x.stop ∧ x.type = y.type

/-- No two neighbours of one type overlap or touch. -/
def NeighboursApart (l : List Pmmap) : Prop := l.IsChain fun x y => ¬ x.Touches y

/-- No three neighbours of one type overlap or touch in a row. -/
def NoChain (l : List Pmmap) : Prop :=
  ∀ x y z, [x, y, z] <:+: l → x.Touches y → ¬ (x.merge y).Touches z

theorem apart_of_short (h : l.length ≤ 1) : NeighboursApart l := by
  match l, h with
  | [], _ => exact List.isChain_nil
  | [_], _ => exact List.isChain_singleton _

theorem noChain_of_short (h : l.length ≤ 2) : NoChain l := fun x y z hin => by
  have hlen : 3 ≤ l.length := hin.length_le
  exact absurd (hlen.trans h) (by decide)

/-- What touches the second entry of a pair touches the merged one. -/
theorem Pmmap.Touches.merge (h : y.Touches z) (hm : x.Merges y) : (x.merge y).Touches z := by
  obtain ⟨hstart, htype⟩ := h
  refine ⟨?_, hm.2.2.trans htype⟩
  simp only [Pmmap.merge, BitVec.le_def, BitVec.lt_def] at hstart ⊢
  split_ifs <;> omega

theorem Pmmap.merges_iff (h : x.start ≤ y.start) : x.Merges y ↔ x.Touches y := and_iff_right h

theorem NoChain.tail (h : NoChain (x :: l)) : NoChain l := fun _ _ _ hin =>
  h _ _ _ (hin.trans (List.suffix_cons x l).isInfix)

/-- Three neighbours are at the head of the list or behind it. -/
theorem noChain_cons : NoChain (x :: y :: l) ↔
    (∀ z ∈ l.head?, x.Touches y → ¬ (x.merge y).Touches z) ∧ NoChain (y :: l) := by
  refine ⟨fun h => ⟨fun z hz => ?_, h.tail⟩, ?_⟩
  · obtain ⟨rest, rfl⟩ : ∃ rest, l = z :: rest := by
      cases l with
      | nil => cases hz
      | cons z' rest => exact ⟨rest, by rw [Option.some.inj hz]⟩
    exact h x y z ⟨[], rest, rfl⟩
  · rintro ⟨hhead, htail⟩ x' y' z' hin
    rcases List.infix_cons_iff.1 hin with ⟨rest, hrest⟩ | hin
    · injection hrest with hx hrest
      injection hrest with hy hrest
      subst hx hy hrest
      exact hhead z' rfl
    · exact htail x' y' z' hin

theorem apart_cons : NeighboursApart (x :: l) ↔ (∀ y ∈ l.head?, ¬ x.Touches y) ∧
    NeighboursApart l := List.isChain_cons

/-- The head of the merged list is touched by what touched the head before. -/
theorem head_mergeFrom_touches : (∀ y ∈ (mergeFrom l).head?, ¬ x.Touches y) ↔ ∀ y ∈ l.head?,
    ¬ x.Touches y := by
  cases l with
  | nil => rfl
  | cons e rest =>
    obtain ⟨e', l', heq, hstart, htype⟩ := head_mergeFrom (e := e) (l := rest)
    simp [heq, Pmmap.Touches, hstart, htype]

/-- The pass separates the neighbours exactly if no three of them touch in a row: it goes on behind
a merged pair, and what it skips there is what the pair touches. -/
theorem apart_mergeFrom (h : Sorted l) : NeighboursApart (mergeFrom l) ↔ NoChain l := by
  fun_induction mergeFrom l with
  | case1 slot next rest hmerges ih =>
    have hrest : Sorted rest := (List.pairwise_cons.1 (List.pairwise_cons.1 h).2).2
    rw [apart_cons, noChain_cons, ih hrest, head_mergeFrom_touches]
    constructor
    · rintro ⟨hhead, hno⟩
      refine ⟨fun z hz _ => hhead z hz, ?_⟩
      cases rest with
      | nil => exact noChain_of_short (Nat.le_succ 1)
      | cons z rest =>
        -- what touches the second entry of the pair touches the pair
        refine noChain_cons.2 ⟨fun w _ ht => absurd ?_ (hhead z rfl), hno⟩
        exact ht.merge hmerges
    · rintro ⟨hhead, hno⟩
      exact ⟨fun z hz => hhead z hz hmerges.2, hno.tail⟩
  | case2 slot next rest hmerges ih =>
    obtain ⟨hslot, hrest⟩ := List.pairwise_cons.1 h
    have hnot : ¬ slot.Touches next :=
      fun ht => hmerges ((Pmmap.merges_iff (hslot next List.mem_cons_self)).2 ht)
    rw [apart_cons, noChain_cons, ih hrest, head_mergeFrom_touches]
    exact and_congr_left fun _ => iff_of_true (fun y hy => Option.some.inj hy ▸ hnot) fun z _ ht =>
      absurd ht hnot
  | case3 l hshort =>
    have hlen : l.length ≤ 1 := by
      match l, hshort with
      | [], _ => exact Nat.zero_le 1
      | [_], _ => exact le_rfl
      | x :: y :: rest, hshort => exact absurd rfl (hshort x y rest)
    exact iff_of_true (apart_of_short hlen) (noChain_of_short (by omega))

/-! ## The regions of one type -/

/-- The entries are not empty, and those of different types have no address in common. -/
structure Separate (l : List Pmmap) : Prop where
  nonempty : ∀ e ∈ l, e.start < e.stop
  disjoint : ∀ type type' a, Covered l type a → Covered l type' a → type = type'

theorem nonempty_mergeFrom (h : ∀ e ∈ l, e.start < e.stop) :
    ∀ e ∈ mergeFrom l, e.start < e.stop := by
  fun_induction mergeFrom l with
  | case1 slot next rest hmerges ih =>
    refine List.forall_mem_cons.2 ⟨?_, ih fun e he => h e (.tail _ (.tail _ he))⟩
    have hslot := h slot List.mem_cons_self
    simp only [Pmmap.merge, BitVec.lt_def] at hslot ⊢
    split_ifs <;> omega
  | case2 slot next rest _ ih =>
    exact List.forall_mem_cons.2 ⟨h slot List.mem_cons_self, ih fun e he => h e (.tail _ he)⟩
  | case3 l _ => exact h

theorem Separate.mergeFrom (h : Separate l) : Separate (mergeFrom l) :=
  ⟨nonempty_mergeFrom h.nonempty,
    fun type type' a ha ha' => h.disjoint type type' a (covered_mergeFrom.1 ha)
    (covered_mergeFrom.1 ha')⟩

theorem Separate.tail (h : Separate (x :: l)) : Separate l :=
  ⟨fun e he => h.nonempty e (.tail _ he),
    fun type type' a ha ha' => h.disjoint type type' a (covered_cons.2 (.inr ha))
    (covered_cons.2 (.inr ha'))⟩

/-- Where the entries of different types are disjoint, it is enough to look at neighbours. -/
theorem Separate.pairwise (h : Separate l) (hsorted : Sorted l) (hapart : NeighboursApart l) :
    l.Pairwise fun x y => x.stop ≤ y.start ∧ (x.type = y.type → x.stop < y.start) := by
  induction l with
  | nil => exact .nil
  | cons x l ih =>
    obtain ⟨hx, hsorted⟩ := List.pairwise_cons.1 hsorted
    obtain ⟨hhead, hapart⟩ := apart_cons.1 hapart
    have htail := ih h.tail hsorted hapart
    refine List.pairwise_cons.2 ⟨fun y hy => ?_, htail⟩
    cases l with
    | nil => cases hy
    | cons z l =>
      have hz : x.stop ≤ z.start ∧ (x.type = z.type → x.stop < z.start) := by
        have hnot := hhead z rfl
        by_cases htype : x.type = z.type
        · have hlt : x.stop < z.start := BitVec.not_le.1 fun hle => hnot ⟨hle, htype⟩
          exact ⟨BitVec.le_of_lt hlt, fun _ => hlt⟩
        · refine ⟨BitVec.not_lt.1 fun hlt => htype ?_, fun heq => absurd heq htype⟩
          -- the start of the second entry would be an address of both
          refine h.disjoint _ _ z.start ⟨x, List.mem_cons_self, rfl, hx z List.mem_cons_self, hlt⟩
            ⟨z, .tail _ List.mem_cons_self, rfl, BitVec.le_refl _,
              h.nonempty z (.tail _ List.mem_cons_self)⟩
      rcases List.mem_cons.1 hy with rfl | hy
      · exact hz
      · have hzy := ((List.pairwise_cons.1 htail).1 y hy).1
        have hne := h.nonempty z (.tail _ List.mem_cons_self)
        have hlt : x.stop < y.start := by
          have := hz.1
          simp only [BitVec.le_def, BitVec.lt_def] at this hzy hne ⊢
          omega
        exact ⟨BitVec.le_of_lt hlt, fun _ => hlt⟩

end

/-! ## The entries of the boot loader -/

/-- The address is in the entry, and not above `0xffffffff`. -/
def MbootMmap.Covers (p : MbootMmap) (a : Nat) : Prop :=
  let base := p.baseAddrHigh.toNat * 2 ^ 32 + p.baseAddrLow.toNat
  let length := p.lengthHigh.toNat * 2 ^ 32 + p.lengthLow.toNat
  base ≤ a ∧ a < min (base + length) 0xffffffff

/-- The entry is below 4G. -/
def MbootMmap.below4G (p : MbootMmap) : Bool := p.baseAddrHigh = 0

section
variable {p : MbootMmap} {s : PmmapList} {mmap : List MbootMmap} {type a : BitVec 32}

/-- The end of a range, cut off at 4 GB. -/
theorem MbootMmap.toNat_stop :
    p.stop.toNat = min (p.baseAddrLow.toNat + (p.lengthHigh.toNat * 2 ^ 32 + p.lengthLow.toNat))
    0xffffffff := by
  have hbase := p.baseAddrLow.isLt
  have hlow := p.lengthLow.isLt
  rw [MbootMmap.stop]
  split_ifs with h
  · rcases h with h | h
    · have hpos : p.lengthHigh.toNat ≠ 0 := fun heq => h (BitVec.eq_of_toNat_eq heq)
      have hmax : (0xffffffff : BitVec 32).toNat = 0xffffffff := rfl
      omega
    · have hmax : (0xffffffff - p.baseAddrLow).toNat =
        0xffffffff - p.baseAddrLow.toNat := by bv_omega
      rw [BitVec.le_def, hmax] at h
      have : (0xffffffff : BitVec 32).toNat = 0xffffffff := rfl
      omega
  · obtain ⟨hhigh, hlt⟩ := not_or.1 h
    have hmax : (0xffffffff - p.baseAddrLow).toNat =
      0xffffffff - p.baseAddrLow.toNat := by bv_omega
    rw [BitVec.not_le, BitVec.lt_def, hmax] at hlt
    rw [not_not.1 hhigh, BitVec.toNat_add, Nat.mod_eq_of_lt (by omega)]
    have : (0 : BitVec 32).toNat = 0 := rfl
    omega

theorem MbootMmap.covers_iff (h : p.baseAddrHigh = 0) :
    p.Covers a.toNat ↔ Pmmap.Covers { start := p.baseAddrLow, stop := p.stop, type := p.type }
    a := by
  have hhigh : p.baseAddrHigh.toNat = 0 := congrArg BitVec.toNat h
  simp only [MbootMmap.Covers, Pmmap.Covers, BitVec.le_def, BitVec.lt_def, MbootMmap.toNat_stop,
    hhigh, Nat.zero_mul, Nat.zero_add]

/-- An entry above 4G covers no address that the map can hold. -/
theorem MbootMmap.not_covers (h : p.baseAddrHigh ≠ 0) : ¬ p.Covers a.toNat := by
  have hpos : p.baseAddrHigh.toNat ≠ 0 := fun heq => h (BitVec.eq_of_toNat_eq heq)
  have ha := a.isLt
  rw [MbootMmap.Covers]
  omega

theorem covered_insertSlot {free : Pmmap} {l : List Pmmap} :
    Covered (insertSlot free l) type a ↔ Covered l type a ∨ free.type = type ∧ free.Covers a := by
  simp only [Covered, mem_insertSlot, or_and_right, exists_or, exists_eq_left]
  exact or_comm

/-- The copy of at most 128 entries below 4G. -/
theorem foldlM_pmmapCopyEntry (hs : Sorted s.list)
    (h : s.slotsNextFree + (mmap.filter MbootMmap.below4G).length ≤ 128) :
    ∃ s', mmap.foldlM pmmapCopyEntry s = some s' ∧ Sorted s'.list ∧
      ∀ type a, Covered s'.list type a ↔ Covered s.list type a ∨ ∃ p ∈ mmap, p.type = type ∧
      p.Covers a.toNat := by
  induction mmap generalizing s with
  | nil => exact ⟨s, rfl, hs, fun type a => by simp⟩
  | cons p mmap ih =>
    rw [List.foldlM_cons, pmmapCopyEntry]
    by_cases hp : p.baseAddrHigh = 0
    · have hbelow : p.below4G = true := decide_eq_true hp
      rw [List.filter_cons_of_pos hbelow, List.length_cons] at h
      rw [if_neg (not_not.2 hp), pmmapInsert, if_neg (by omega)]
      have hroom : s.slotsNextFree + 1 + (mmap.filter MbootMmap.below4G).length ≤ 128 := by omega
      obtain ⟨s', hfold, hsorted, hcovered⟩ :=
        ih (s := ⟨_, insertSlot ⟨p.baseAddrLow, p.stop, p.type⟩ s.list⟩)
          (sorted_insertSlot hs) hroom
      refine ⟨s', hfold, hsorted, fun type a => ?_⟩
      rw [hcovered, covered_insertSlot, List.exists_mem_cons_iff,
        MbootMmap.covers_iff hp, or_assoc]
    · have hbelow : ¬ p.below4G = true := fun hb => hp (of_decide_eq_true hb)
      rw [List.filter_cons_of_neg hbelow] at h
      rw [if_pos hp]
      obtain ⟨s', hfold, hsorted, hcovered⟩ := ih hs h
      refine ⟨s', hfold, hsorted, fun type a => ?_⟩
      have hnot : ¬ (p.type = type ∧ p.Covers a.toNat) := fun hc => MbootMmap.not_covers hp hc.2
      rw [hcovered, List.exists_mem_cons_iff, or_iff_right hnot]

end

/-! ## The tables of the memory map -/

/-- The row of an entry. -/
def Pmmap.row (e : Pmmap) : MmapEntry :=
  { start := e.start, len := e.stop - e.start, usable := e.type = memRam }

theorem pmmapInit_eq_some {mmap : List MbootMmap} {s : PmmapList} (h : pmmapCopy mmap = some s) :
    ∃ m, pmmapInit mmap = some m ∧ m.list = mergeFrom s.list ∧ m.nentries = m.list.length := by
  rw [pmmapInit, h]
  exact ⟨_, rfl, rfl, rfl⟩

/-- `pmem_init` reads the entries of the list. -/
theorem PhysMap.rows_eq {m : PhysMap} (h : m.nentries = m.list.length) :
    m.rows = m.list.map Pmmap.row := by
  refine List.ext_getElem? fun i => ?_
  rw [PhysMap.rows, List.getElem?_map, List.getElem?_map, PhysMap.getSize, h]
  rcases Nat.lt_or_ge i m.list.length with hi | hi
  · rw [List.getElem?_range hi, List.getElem?_eq_getElem hi, Option.map_some, Option.map_some,
      PhysMap.getMms, PhysMap.getMml, PhysMap.isUsable, List.getElem?_eq_getElem hi]
    rfl
  · rw [List.getElem?_eq_none (by simpa using hi), List.getElem?_eq_none hi, Option.map_none,
      Option.map_none]

/-! ## The result -/

/-- The memory map of at most 128 entries below 4G is sorted and covers for each type what the
entries of the boot loader cover. No two neighbours of one type overlap or touch exactly if there
are no three in a row before the merge that do. If there are none, and the entries are not empty
and those of different types are disjoint, no two entries of one type overlap or touch at all.
`pmem_init` reads these entries. Reference: `pmmap_init` (`kern/dev/mboot.c:135`). -/
theorem pmmapInit_sorted_lossless {mmap : List MbootMmap}
    (h : (mmap.filter MbootMmap.below4G).length ≤ 128) :
    ∃ s m, pmmapCopy mmap = some s ∧ pmmapInit mmap = some m ∧ Sorted m.list ∧
      (∀ type a, Covered m.list type a ↔ ∃ p ∈ mmap, p.type = type ∧ p.Covers a.toNat) ∧
      (NeighboursApart m.list ↔ NoChain s.list) ∧
      (NoChain s.list → Separate s.list → m.list.Pairwise fun x y => x.type = y.type →
        x.stop < y.start) ∧
      m.rows = m.list.map Pmmap.row := by
  obtain ⟨s, hcopy, hsorted, hcovered⟩ :=
    foldlM_pmmapCopyEntry (s := ⟨0, []⟩) .nil (by rwa [Nat.zero_add])
  obtain ⟨m, hm, hlist, hentries⟩ := pmmapInit_eq_some hcopy
  have hsortedm : Sorted m.list := hlist ▸ sorted_mergeFrom hsorted
  have hapart : NeighboursApart m.list ↔ NoChain s.list := hlist ▸ apart_mergeFrom hsorted
  refine ⟨s, m, hcopy, hm, hsortedm, fun type a => ?_, hapart, fun hno hsep => ?_,
    PhysMap.rows_eq hentries⟩
  · have hnone : ¬ Covered [] type a := fun ⟨_, he, _⟩ => List.not_mem_nil he
    rw [hlist, covered_mergeFrom, hcovered, or_iff_right hnone]
  · have hsepm : Separate m.list := hlist ▸ hsep.mergeFrom
    exact (hsepm.pairwise hsortedm (hapart.2 hno)).imp fun hxy => hxy.2

/-- Two usable regions that touch, and a reserved one behind them, in another order. -/
theorem pmmapInit_two_touching :
    ∃ m, pmmapInit [⟨0x2000, 0, 0x1000, 0, memReserved⟩, ⟨0, 0, 0x1000, 0, memRam⟩,
      ⟨0x1000, 0, 0x1000, 0, memRam⟩] =
        some m ∧ m.list = [⟨0, 0x2000, memRam⟩, ⟨0x2000, 0x3000, memReserved⟩] ∧
        NeighboursApart m.list := by
  obtain ⟨s, m, hs, hm, -, -, hapart, -⟩ :=
    pmmapInit_sorted_lossless (show ([⟨0x2000, 0, 0x1000, 0, memReserved⟩,
      ⟨0, 0, 0x1000, 0, memRam⟩, ⟨0x1000, 0, 0x1000, 0, memRam⟩].filter MbootMmap.below4G).length ≤
      128 by decide)
  have hs' : s = ⟨3, [⟨0, 0x1000, memRam⟩, ⟨0x1000, 0x2000, memRam⟩,
      ⟨0x2000, 0x3000, memReserved⟩]⟩ :=
    Option.some.inj (hs.symm.trans rfl)
  have hm' := Option.some.inj (hm.symm.trans rfl)
  have hno : NoChain s.list := by
    rw [hs']
    refine noChain_cons.2 ⟨fun z hz _ => ?_, noChain_of_short le_rfl⟩
    rw [← Option.some.inj hz]
    exact fun ht => absurd ht.2 (by decide)
  exact ⟨m, hm, congrArg PhysMap.list hm', hapart.2 hno⟩

/-- Three usable regions that touch: the last one is not merged, and the page in which the second
one ends is not available, though all of its bytes are usable. -/
theorem pmmapInit_three_touching :
    ∃ m, pmmapInit [⟨0x40000000, 0, 0x800, 0, memRam⟩, ⟨0x40000800, 0, 0x400, 0, memRam⟩,
        ⟨0x40000c00, 0, 0x1400, 0, memRam⟩] = some m ∧
      m.list = [⟨0x40000000, 0x40000c00, memRam⟩, ⟨0x40000c00, 0x40002000, memRam⟩] ∧
      ¬ NeighboursApart m.list ∧ ((pmemInit m.rows).entry 0x40000).perm = 0 ∧
      ((pmemInit m.rows).entry 0x40001).perm = 2 := by
  refine ⟨_, rfl, rfl, fun hapart => ?_, by decide +kernel, by decide +kernel⟩
  exact (apart_cons.1 hapart).1 _ rfl ⟨by decide, rfl⟩

/-! ## From the map to the allocator -/

/-- The bytes of a page that `pmem_init` makes available are in an entry of the map for RAM. -/
theorem covered_of_norm {l : List Pmmap} {i : Nat} {a : BitVec 32}
    (hi : (pmemInit (l.map Pmmap.row)).atIsNorm i) (ha : a.toNat / 4096 = i) :
    Covered l memRam a := by
  obtain ⟨hlo, hhi, hlt⟩ := (AllocTable.ok_pmemInit _).norm i hi
  have hperm : 1 < initialPerm (l.map Pmmap.row) i := (of_decide_eq_true hi).trans_eq (if_pos hlt)
  rw [initialPerm, if_neg (by omega)] at hperm
  split at hperm
  · next e hfind =>
    obtain ⟨x, hx, rfl⟩ := List.mem_map.1 (List.mem_of_find?_eq_some hfind)
    have hfound := List.find?_some hfind
    have hcontains : x.start ≤ BitVec.ofNat 32 i * 4096 ∧
        (BitVec.ofNat 32 i + 1) * 4096 ≤ x.start + (x.stop - x.start) := of_decide_eq_true hfound
    have htype : x.type = memRam := by
      by_contra hne
      simp [Pmmap.row, hne] at hperm
    refine ⟨x, hx, htype, ?_⟩
    rw [show x.start + (x.stop - x.start) = x.stop by bv_omega] at hcontains
    rw [userHiPi] at hhi
    exact ⟨by bv_omega, by bv_omega⟩
  · exact absurd hperm (by decide)

/-- After `pmmap_init` and `pmem_init`, whatever pages have been allocated and freed, a page that
`palloc` returns is a user page that was not allocated, and each of its bytes is in an entry of the
boot loader for RAM. Reference: `palloc` (`kern/pmm/MATOp/MATOp.c:27`), `pmem_init`
(`kern/pmm/MATInit/MATInit.c:22`). -/
theorem palloc_gives_ram {mmap : List MbootMmap} {m : PhysMap} {t : AllocTable}
    (h : (mmap.filter MbootMmap.below4G).length ≤ 128) (hm : pmmapInit mmap = some m)
    (hrun : pallocMachine.Runs (fun _ _ => True) (pmemInit m.rows) t) (hpage : t.palloc.2 ≠ 0) :
    (userLoPi ≤ t.palloc.2 ∧ t.palloc.2 < userHiPi) ∧ ¬ t.atIsAllocated t.palloc.2 ∧
      ∀ a : BitVec 32, a.toNat / 4096 = t.palloc.2 → ∃ p ∈ mmap, p.type = memRam ∧
      p.Covers a.toNat := by
  obtain ⟨hok, hnormal⟩ : t.Ok ∧ t.normal = (pmemInit m.rows).normal := by
    refine hrun.invariant (I := fun t => t.Ok ∧ t.normal = (pmemInit m.rows).normal)
      (fun t a u ⟨ht, hn⟩ _ hs => ?_) ⟨AllocTable.ok_pmemInit _, rfl⟩
    cases a <;> obtain rfl := Option.some.inj hs
    · exact ⟨ht.palloc.ok, ht.palloc.normal.trans hn⟩
    · exact ⟨ht.pfree, AllocTable.normal_atSetAllocated.trans hn⟩
  obtain ⟨hnorm, hfree, -⟩ := hok.palloc.page hpage
  obtain ⟨hlo, hhi, -⟩ := hok.norm _ (hok.mem_normal.1 hnorm)
  refine ⟨⟨hlo, hhi⟩, mt hok.mem_taken.2 hfree, fun a ha => ?_⟩
  obtain ⟨s, hcopy, -, hcovered⟩ :=
    foldlM_pmmapCopyEntry (s := ⟨0, []⟩) .nil (by rwa [Nat.zero_add])
  obtain ⟨m', hm', hlist, hentries⟩ := pmmapInit_eq_some hcopy
  obtain rfl := Option.some.inj (hm.symm.trans hm')
  rw [hnormal, PhysMap.rows_eq hentries, (AllocTable.ok_pmemInit _).mem_normal] at hnorm
  have hram := covered_of_norm hnorm ha
  rw [hlist, covered_mergeFrom, hcovered] at hram
  exact hram.resolve_left fun ⟨_, he, _⟩ => List.not_mem_nil he

/-- With two pages of RAM, the second one is found after the first. -/
theorem palloc_gives_ram_second : ∃ m t, pmmapInit [⟨0x40000000, 0, 0x2000, 0, memRam⟩] = some m ∧
    pallocMachine.Runs (fun _ _ => True) (pmemInit m.rows) t ∧ t.palloc.2 ≠ 0 ∧
    ¬ t.atIsAllocated t.palloc.2 := by
  obtain ⟨m, hm, hpage⟩ : ∃ m, pmmapInit [⟨0x40000000, 0, 0x2000, 0, memRam⟩] = some m ∧
      (pmemInit m.rows).palloc.1.palloc.2 ≠ 0 := ⟨_, rfl, by decide +kernel⟩
  have hrun : pallocMachine.Runs (fun _ _ => True) (pmemInit m.rows) (pmemInit m.rows).palloc.1 :=
    .tail (a := PallocAct.palloc) .refl trivial rfl
  exact ⟨m, _, hm, hrun, hpage, (palloc_gives_ram (by decide) hm hrun hpage).2.1⟩

end MCertikos
