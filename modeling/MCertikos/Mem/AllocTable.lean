import MCertikos.Lib.Transition
import Mathlib.Data.Finset.Card
import Mathlib.Data.Finset.Insert
import Mathlib.Order.Interval.Finset.Nat

/-!
# The physical page allocator

The allocation table (`kern/pmm/MATIntro`), its initialisation from the memory map of the machine
(`kern/pmm/MATInit`), and the page allocator (`kern/pmm/MATOp`), which scans the table from the
page it gave out last, once around the pages of the user range. The table has one entry for each
physical page; pages with a permission above 1 are normal, and may be given out.

`AllocTable.palloc_cases` is the specification of `palloc`: it takes a normal page that is not
allocated, and fails only if there is none. `palloc_agrees_with_scan` compares it, over all
sequences of calls, with a scan of the whole table from its first entry.
-/

namespace MCertikos

open Transition Function

/-- Reference: `VM_USERLO_PI` (`kern/pmm/MATOp/MATOp.c:8`). -/
def userLoPi : Nat := 0x40000

/-- Reference: `VM_USERHI_PI` (`kern/pmm/MATOp/MATOp.c:9`). -/
def userHiPi : Nat := 0xF0000

/-- The entry of a physical page. Reference: `struct ATStruct`
(`kern/pmm/MATIntro/MATIntro.c:12`). -/
structure ATStruct where
  perm : BitVec 32
  allocated : BitVec 32
  deriving DecidableEq

/-- The allocation table `AT` with the number of pages `NUM_PAGES`, and the page that `palloc`
starts to scan from. -/
structure AllocTable where
  nps : Nat
  entry : Nat → ATStruct
  lastPallocIndex : Nat

namespace AllocTable

variable (t : AllocTable) (i : Nat)

/-- Reference: `at_is_norm` (`kern/pmm/MATIntro/MATIntro.c:66`). -/
def atIsNorm : Bool := 1 < (t.entry i).perm

/-- Reference: `at_is_allocated` (`kern/pmm/MATIntro/MATIntro.c:95`). -/
def atIsAllocated : Bool := 0 < (t.entry i).allocated

/-- Reference: `at_set_allocated` (`kern/pmm/MATIntro/MATIntro.c:111`). -/
def atSetAllocated (allocated : BitVec 32) : AllocTable :=
  { t with entry := update t.entry i { t.entry i with allocated } }

/-- A page that `palloc` may take (`kern/pmm/MATOp/MATOp.c:43`). -/
def Available : Prop := t.atIsNorm i ∧ ¬ t.atIsAllocated i

instance : Decidable (t.Available i) := inferInstanceAs (Decidable (_ ∧ _))

/-- The index after `palloc_index` (`kern/pmm/MATOp/MATOp.c:46`). -/
def pallocNext (i : Nat) : Nat := if userHiPi ≤ i + 1 then userLoPi else i + 1

/-- The loop of `palloc`: `index` and `free` are `palloc_index` and `palloc_free_index`. It goes
once around the user range, so that a turn for each of its pages and one to leave the loop are
enough. -/
def pallocLoop : (turns index free : Nat) → (first : Bool) → Nat
  | 0, _, free, _ => free
  | turns + 1, index, free, first =>
    if (index ≠ t.lastPallocIndex ∨ first) ∧ free = t.nps then
      pallocLoop turns (pallocNext index)
        (if t.Available index then index else free) false
    else free

/-- The turns that the loop of `palloc` needs at most. -/
def pallocTurns : Nat := userHiPi - userLoPi + 1

/-- Allocates a page; the result 0 means that there is none. Reference: `palloc`
(`kern/pmm/MATOp/MATOp.c:27`). -/
def palloc : AllocTable × Nat :=
  let free := t.pallocLoop pallocTurns t.lastPallocIndex t.nps true
  if free = t.nps then ({ t with lastPallocIndex := userLoPi }, 0)
  else ({ t.atSetAllocated free 1 with lastPallocIndex := free }, free)

/-- Reference: `pfree` (`kern/pmm/MATOp/MATOp.c:73`). -/
def pfree : AllocTable := t.atSetAllocated i 0

end AllocTable

/-! ## Initialisation -/

/-- A row of the memory map, as `get_mms`, `get_mml` and `is_usable` give it
(`kern/dev/mboot.c:192`). -/
structure MmapEntry where
  start : BitVec 32
  len : BitVec 32
  usable : Bool

/-- The number of pages (`kern/pmm/MATInit/MATInit.c:39`). -/
def numPages (mmap : List MmapEntry) : Nat :=
  (mmap.foldl (fun nps e => max nps (e.start + e.len).toNat) 0) / 4096

/-- The row contains the whole page (`kern/pmm/MATInit/MATInit.c:88`). -/
def MmapEntry.contains (e : MmapEntry) (i : Nat) : Bool :=
  e.start ≤ BitVec.ofNat 32 i * 4096 ∧ (BitVec.ofNat 32 i + 1) * 4096 ≤ e.start + e.len

/-- The permission that `pmem_init` gives to a page (`kern/pmm/MATInit/MATInit.c:76`). -/
def initialPerm (mmap : List MmapEntry) (i : Nat) : BitVec 32 :=
  if i < userLoPi ∨ userHiPi ≤ i then 1
  else
    match mmap.find? (·.contains i) with
    | some e => if e.usable then 2 else 0
    | none => 0

/-- The allocation table after boot; what is not initialised is zero. Reference: `pmem_init`
(`kern/pmm/MATInit/MATInit.c:22`). -/
def pmemInit (mmap : List MmapEntry) : AllocTable where
  nps := numPages mmap
  entry i := { perm := if i < numPages mmap then initialPerm mmap i else 0, allocated := 0 }
  lastPallocIndex := userLoPi

namespace AllocTable

/-! ## The specification of the allocator -/

/-- Normal pages are pages of the machine in the user range, only normal pages are allocated, and
the scan starts in the user range. -/
structure Ok (t : AllocTable) : Prop where
  last : userLoPi ≤ t.lastPallocIndex ∧ t.lastPallocIndex < userHiPi
  norm : ∀ i, t.atIsNorm i → userLoPi ≤ i ∧ i < userHiPi ∧ i < t.nps
  alloc : ∀ i, t.atIsAllocated i → t.atIsNorm i

/-- The normal pages. -/
def normal (t : AllocTable) : Finset Nat := (Finset.range t.nps).filter (t.atIsNorm ·)

/-- The pages that are allocated. -/
def taken (t : AllocTable) : Finset Nat := (Finset.range t.nps).filter (t.atIsAllocated ·)

section
variable {t : AllocTable} {i j : Nat} {v : BitVec 32}

theorem Ok.mem_normal (h : t.Ok) : i ∈ t.normal ↔ t.atIsNorm i := by
  simp only [normal, Finset.mem_filter, Finset.mem_range]
  exact ⟨And.right, fun hi => ⟨(h.norm i hi).2.2, hi⟩⟩

theorem Ok.mem_taken (h : t.Ok) : i ∈ t.taken ↔ t.atIsAllocated i := by
  simp only [taken, Finset.mem_filter, Finset.mem_range]
  exact ⟨And.right, fun hi => ⟨(h.norm i (h.alloc i hi)).2.2, hi⟩⟩

theorem Ok.taken_subset (h : t.Ok) : t.taken ⊆ t.normal := fun i hi =>
  h.mem_normal.2 (h.alloc i (h.mem_taken.1 hi))

theorem perm_atSetAllocated : ((t.atSetAllocated i v).entry j).perm = (t.entry j).perm := by
  rcases eq_or_ne j i with rfl | hne
  · simp only [atSetAllocated, update_self]
  · simp only [atSetAllocated, update_of_ne hne]

theorem allocated_atSetAllocated :
    ((t.atSetAllocated i v).entry j).allocated = if j = i then v else (t.entry j).allocated := by
  rcases eq_or_ne j i with rfl | hne
  · simp only [atSetAllocated, update_self, if_pos]
  · simp only [atSetAllocated, update_of_ne hne, if_neg hne]

@[simp] theorem atIsNorm_atSetAllocated : (t.atSetAllocated i v).atIsNorm j = t.atIsNorm j := by
  simp only [atIsNorm, perm_atSetAllocated]

theorem atIsAllocated_atSetAllocated :
    (t.atSetAllocated i v).atIsAllocated j = if j = i then
    decide (0 < v) else t.atIsAllocated j := by
  simp only [atIsAllocated, allocated_atSetAllocated]
  split <;> rfl

/-- The page that the loop looks at in its turn number `k`. -/
def scanned (t : AllocTable) (k : Nat) : Nat :=
  userLoPi + (t.lastPallocIndex - userLoPi + k) % (userHiPi - userLoPi)

theorem pallocNext_scanned (k : Nat) : pallocNext (t.scanned k) = t.scanned (k + 1) := by
  rw [pallocNext]
  split <;> simp only [scanned, userLoPi, userHiPi] at * <;> omega

theorem Ok.scanned_zero (h : t.Ok) : t.scanned 0 = t.lastPallocIndex := by
  obtain ⟨hlo, hhi⟩ := h.last
  simp only [scanned, userLoPi, userHiPi] at *
  omega

/-- The scan is back at its start after one turn for each page, and not before. -/
theorem Ok.scanned_eq_last (h : t.Ok) {k : Nat} (h0 : 0 < k) (hk : k ≤ userHiPi - userLoPi) :
    t.scanned k = t.lastPallocIndex ↔ k = userHiPi - userLoPi := by
  obtain ⟨hlo, hhi⟩ := h.last
  simp only [scanned, userLoPi, userHiPi] at *
  omega

/-- The scan meets each page of the user range. -/
theorem Ok.exists_scanned (h : t.Ok) (hlo : userLoPi ≤ i) (hhi : i < userHiPi) :
    ∃ k < userHiPi - userLoPi, t.scanned k = i := by
  obtain ⟨hlo', hhi'⟩ := h.last
  refine ⟨(i + (userHiPi - userLoPi) - t.lastPallocIndex) % (userHiPi - userLoPi), ?_, ?_⟩
  · exact Nat.mod_lt _ (by decide)
  · simp only [scanned, userLoPi, userHiPi] at *
    omega

/-- The loop of `palloc` after `k` turns that found nothing. However many turns it is given beyond
those it needs, it ends with a page that may be taken, or with `nps` after it has seen all
pages. -/
theorem Ok.pallocLoop_cases (h : t.Ok) (turns k : Nat) {first : Bool}
    (hturns : userHiPi - userLoPi - k < turns) (hk : k ≤ userHiPi - userLoPi)
    (hfirst : first = decide (k = 0)) (hnone : ∀ j < k, ¬ t.Available (t.scanned j)) :
    let free := t.pallocLoop turns (t.scanned k) t.nps first
    (free = t.nps ∧ ∀ j < userHiPi - userLoPi, ¬ t.Available (t.scanned j)) ∨
      (free ≠ t.nps ∧ t.Available free) := by
  induction turns generalizing k first with
  | zero => omega
  | succ turns ih =>
    have hpos : 0 < userHiPi - userLoPi := by decide
    rw [pallocLoop]
    rcases hk.lt_or_eq with hlt | rfl
    · have hcond : (t.scanned k ≠ t.lastPallocIndex ∨ first = true) ∧ t.nps = t.nps := by
        refine ⟨?_, rfl⟩
        rcases Nat.eq_zero_or_pos k with rfl | h0
        · exact .inr hfirst
        · exact .inl fun he => hlt.ne ((h.scanned_eq_last h0 hk).1 he)
      rw [if_pos hcond, pallocNext_scanned]
      by_cases hav : t.Available (t.scanned k)
      · -- the page is found, and the next test ends the loop
        have hne : t.scanned k ≠ t.nps := (h.norm _ hav.1).2.2.ne
        rw [if_pos hav]
        obtain ⟨turns, rfl⟩ : ∃ n, turns = n + 1 := ⟨turns - 1, by omega⟩
        rw [pallocLoop, if_neg fun hc => hne hc.2]
        exact .inr ⟨hne, hav⟩
      · rw [if_neg hav]
        refine ih (k + 1) (by omega) hlt (by simp) fun j hj => ?_
        rcases Nat.lt_succ_iff_lt_or_eq.1 hj with hj | rfl
        · exact hnone j hj
        · exact hav
    · have hlast := (h.scanned_eq_last hpos le_rfl).2 rfl
      have hcond : ¬ ((t.scanned (userHiPi - userLoPi) ≠ t.lastPallocIndex ∨ first = true) ∧
          t.nps = t.nps) := by
        rintro ⟨hne | hf, -⟩
        · exact hne hlast
        · rw [hfirst] at hf
          exact absurd hf (by decide)
      rw [if_neg hcond]
      exact .inl ⟨rfl, hnone⟩

/-- `palloc` takes an available page, and fails only if there is none. -/
theorem Ok.palloc_cases (h : t.Ok) :
    (t.taken = t.normal ∧ t.palloc = ({ t with lastPallocIndex := userLoPi }, 0)) ∨
      ∃ i, t.Available i ∧ t.palloc = ({ t.atSetAllocated i 1 with lastPallocIndex := i }, i) := by
  have hloop := h.pallocLoop_cases pallocTurns 0 (by decide) (by decide) (decide_eq_true rfl).symm
    fun _ hj => absurd hj (by omega)
  rw [h.scanned_zero] at hloop
  rcases hloop with ⟨hfree, hall⟩ | ⟨hne, hav⟩
  · refine .inl ⟨Finset.Subset.antisymm h.taken_subset fun i hi => ?_, ?_⟩
    · rw [h.mem_normal] at hi
      obtain ⟨hlo, hhi, -⟩ := h.norm i hi
      obtain ⟨k, hk, rfl⟩ := h.exists_scanned hlo hhi
      rw [h.mem_taken]
      by_contra ha
      exact hall k hk ⟨hi, ha⟩
    · rw [palloc, if_pos hfree]
  · refine .inr ⟨_, hav, ?_⟩
    rw [palloc, if_neg hne]

/-! ### What the operations keep -/

theorem Ok.setLast (h : t.Ok) (hlo : userLoPi ≤ i) (hhi : i < userHiPi) :
    Ok { t with lastPallocIndex := i } :=
  ⟨⟨hlo, hhi⟩, h.norm, h.alloc⟩

theorem Ok.atSetAllocated (h : t.Ok) (hi : v = 0 ∨ t.atIsNorm i) : (t.atSetAllocated i v).Ok := by
  refine ⟨h.last, fun j hj => h.norm j (by rwa [atIsNorm_atSetAllocated] at hj), fun j hj => ?_⟩
  rw [atIsAllocated_atSetAllocated] at hj
  rw [atIsNorm_atSetAllocated]
  split at hj
  case isTrue hji =>
    refine hji ▸ hi.resolve_left ?_
    rintro rfl
    simp at hj
  case isFalse => exact h.alloc j hj

theorem Ok.pfree (h : t.Ok) : (t.pfree i).Ok := h.atSetAllocated (.inl rfl)

@[simp] theorem normal_atSetAllocated : (t.atSetAllocated i v).normal = t.normal := by
  simp only [normal, atIsNorm_atSetAllocated]
  rfl

theorem Ok.taken_alloc (h : t.Ok) (hi : t.atIsNorm i) :
    (t.atSetAllocated i 1).taken = insert i t.taken := by
  ext j
  rw [(h.atSetAllocated (.inr hi)).mem_taken, Finset.mem_insert, h.mem_taken,
    atIsAllocated_atSetAllocated]
  split <;> simp_all

theorem Ok.taken_free (h : t.Ok) : (t.pfree i).taken = t.taken.erase i := by
  ext j
  rw [h.pfree.mem_taken, Finset.mem_erase, h.mem_taken, AllocTable.pfree,
    atIsAllocated_atSetAllocated]
  split <;> simp_all

/-- What a caller of `palloc` gets. -/
structure Palloc (t t' : AllocTable) (page : Nat) : Prop where
  ok : t'.Ok
  normal : t'.normal = t.normal
  /-- There was no page, and nothing has changed. -/
  fail : page = 0 → t'.taken = t.taken ∧ t.taken = t.normal
  /-- The page was not allocated before. -/
  page : page ≠ 0 → page ∈ t.normal ∧ page ∉ t.taken ∧ t'.taken = insert page t.taken

theorem Ok.palloc (h : t.Ok) : Palloc t t.palloc.1 t.palloc.2 := by
  rcases h.palloc_cases with ⟨hall, heq⟩ | ⟨i, hi, heq⟩
  · rw [heq]
    exact ⟨h.setLast le_rfl (by decide), rfl, fun _ => ⟨rfl, hall⟩, fun hne => absurd rfl hne⟩
  · rw [heq]
    obtain ⟨hlo, hhi, -⟩ := h.norm i hi.1
    have hpos : i ≠ 0 := by
      rintro rfl
      exact absurd hlo (by decide)
    refine ⟨(h.atSetAllocated (.inr hi.1)).setLast hlo hhi, normal_atSetAllocated,
      fun h0 => absurd h0 hpos,
      fun _ => ⟨h.mem_normal.2 hi.1, fun hm => hi.2 (h.mem_taken.1 hm), h.taken_alloc hi.1⟩⟩

/-- What a caller gets from a function that may call `palloc`: a page that was not allocated, or
nothing. -/
structure Grants (t t' : AllocTable) (page : Nat) : Prop where
  ok : t'.Ok
  fail : page = 0 → t'.taken = t.taken
  page : page ≠ 0 → page ∉ t.taken ∧ t'.taken = insert page t.taken

theorem Palloc.grants {t' : AllocTable} {page : Nat} (h : Palloc t t' page) : Grants t t' page :=
  ⟨h.ok, fun h0 => (h.fail h0).1, fun h0 => (h.page h0).2⟩

/-- Pages that are allocated are user pages. -/
theorem Ok.range_of_taken (h : t.Ok) (hi : i ∈ t.taken) : userLoPi ≤ i ∧ i < userHiPi := by
  obtain ⟨hlo, hhi, -⟩ := h.norm i (h.alloc i (h.mem_taken.1 hi))
  exact ⟨hlo, hhi⟩

/-! ### The table after boot -/

theorem ok_pmemInit (mmap : List MmapEntry) : (pmemInit mmap).Ok := by
  refine ⟨⟨le_rfl, (by decide : userLoPi < userHiPi)⟩, fun i hi => ?_,
    fun i hi => absurd hi (by simp [atIsAllocated, pmemInit])⟩
  simp only [atIsNorm, pmemInit] at hi
  split at hi
  case isFalse => exact absurd hi (by decide)
  case isTrue hlt =>
    rw [initialPerm] at hi
    split at hi
    · exact absurd hi (by decide)
    · exact ⟨by omega, by omega, hlt⟩

theorem taken_pmemInit (mmap : List MmapEntry) : (pmemInit mmap).taken = ∅ :=
  Finset.filter_eq_empty_iff.2 fun i _ => by simp [atIsAllocated, pmemInit]

theorem foldl_max_lt {l : List MmapEntry} {n : Nat} (hn : n < 2 ^ 32) :
    l.foldl (fun nps e => max nps (e.start + e.len).toNat) n < 2 ^ 32 := by
  induction l generalizing n with
  | nil => exact hn
  | cons e l ih => exact ih (max_lt hn (e.start + e.len).isLt)

/-- There are no more pages than entries of the table. -/
theorem numPages_lt (mmap : List MmapEntry) : numPages mmap < 2 ^ 20 := by
  have := foldl_max_lt (l := mmap) (n := 0) (by decide)
  rw [numPages]
  omega

end

/-! ## The naive scan -/

section
variable (t : AllocTable)

/-- The runs of the loop of `palloc` that end: `t.ScanEnds index free first r` if the loop, entered
with these values of its variables, is left with `palloc_free_index = r`. -/
inductive ScanEnds : (index free : Nat) → (first : Bool) → Nat → Prop
  | stop {index free : Nat} {first : Bool} :
      ¬ ((index ≠ t.lastPallocIndex ∨ first) ∧ free = t.nps) → ScanEnds index free first free
  | turn {index free r : Nat} {first : Bool} :
      (index ≠ t.lastPallocIndex ∨ first) ∧ free = t.nps →
      ScanEnds (pallocNext index) (if t.Available index then index else free) false r →
      ScanEnds index free first r

/-- The first available page of the table `AT`, which has `1 << 20` entries. -/
def naiveScan : Option Nat := (List.range (2 ^ 20)).find? (t.Available ·)

/-- The table as `pmem_init` builds it: normal pages are installed and in the user range, and no
page is allocated. -/
structure Initial : Prop where
  last : t.lastPallocIndex = userLoPi
  norm : ∀ i, t.atIsNorm i → userLoPi ≤ i ∧ i < userHiPi ∧ i < t.nps
  free : ∀ i, (t.entry i).allocated = 0

variable {t}

theorem initial_pmemInit (mmap : List MmapEntry) : (pmemInit mmap).Initial :=
  ⟨rfl, (ok_pmemInit mmap).norm, fun _ => rfl⟩

theorem Initial.ok (h : t.Initial) : t.Ok := by
  refine ⟨?_, h.norm, fun i hi => absurd hi ?_⟩
  · rw [h.last]
    decide
  · rw [atIsAllocated, h.free]
    decide

/-- With a turn for each page of the user range that is left, the loop is left before its turns are
used up. -/
theorem Ok.scanEnds (h : t.Ok) (turns k : Nat) {first : Bool}
    (hturns : userHiPi - userLoPi - k < turns) (hk : k ≤ userHiPi - userLoPi)
    (hfirst : first = decide (k = 0)) :
    t.ScanEnds (t.scanned k) t.nps first (t.pallocLoop turns (t.scanned k) t.nps first) := by
  induction turns generalizing k first with
  | zero => omega
  | succ turns ih =>
    rw [pallocLoop]
    split
    case isFalse hstop => exact .stop hstop
    case isTrue hcond =>
      refine .turn hcond ?_
      rw [pallocNext_scanned]
      have hlt : k < userHiPi - userLoPi := by
        -- after a full turn the scan is back at its start, and `first` is off
        refine hk.lt_of_ne ?_
        rintro rfl
        rcases hcond.1 with hne | hf
        · exact hne ((h.scanned_eq_last (by decide) le_rfl).2 rfl)
        · exact absurd (hfirst ▸ hf) (by decide)
      by_cases hav : t.Available (t.scanned k)
      · have hne : t.scanned k ≠ t.nps := (h.norm _ hav.1).2.2.ne
        have hstop : ∀ index, ¬ ((index ≠ t.lastPallocIndex ∨ false = true) ∧
            t.scanned k = t.nps) :=
          fun _ hc => hne hc.2
        obtain ⟨turns, rfl⟩ : ∃ n, turns = n + 1 := ⟨turns - 1, by omega⟩
        rw [if_pos hav, pallocLoop, if_neg (hstop _)]
        exact .stop (hstop _)
      · rw [if_neg hav]
        exact ih (k + 1) (by omega) hlt (by simp)

/-- The scan of the whole table finds nothing exactly if all normal pages are allocated. -/
theorem Ok.naiveScan_eq_none (h : t.Ok) : t.naiveScan = none ↔ ∀ i, ¬ t.Available i := by
  simp only [naiveScan, List.find?_eq_none, List.mem_range, decide_eq_true_eq]
  refine ⟨fun hall i hi => hall i ?_ hi, fun hall i _ => hall i⟩
  have hhi : userHiPi < 2 ^ 20 := by decide
  exact (h.norm i hi.1).2.1.trans hhi

end

end AllocTable

/-- The calls of the allocator. -/
inductive PallocAct where
  | palloc
  | pfree (index : Nat)

/-- Any sequence of calls of `palloc` and `pfree` on a table that `pmem_init` has built. -/
def pallocMachine : Machine AllocTable PallocAct where
  Init := AllocTable.Initial
  step t
    | .palloc => some t.palloc.1
    | .pfree index => some (t.pfree index)

theorem ok_of_palloc_runs {t : AllocTable} (h : pallocMachine.Reachable t) : t.Ok := by
  refine h.invariant (fun _ ht => AllocTable.Initial.ok ht) fun t a t' ht hs => ?_
  cases a with
  | palloc =>
    obtain rfl := Option.some.inj hs
    exact ht.palloc.ok
  | pfree index =>
    obtain rfl := Option.some.inj hs
    exact ht.pfree

/-- `palloc` agrees with a scan of the whole table: its loop is left, it fails exactly if the scan
finds nothing, and otherwise it takes a page that the scan could have found. -/
theorem palloc_agrees_with_scan {t : AllocTable} (h : pallocMachine.Reachable t) :
    (userLoPi ≤ t.lastPallocIndex ∧ t.lastPallocIndex < userHiPi) ∧
    t.ScanEnds t.lastPallocIndex t.nps true
      (t.pallocLoop AllocTable.pallocTurns t.lastPallocIndex t.nps true) ∧
    (t.palloc.2 = 0 ↔ t.naiveScan = none) ∧
    (t.palloc.2 = 0 → t.palloc.1.entry = t.entry) ∧
    (t.palloc.2 ≠ 0 → t.Available t.palloc.2 ∧ userLoPi ≤ t.palloc.2 ∧ t.palloc.2 < userHiPi ∧
      t.palloc.1.entry =
        update t.entry t.palloc.2 { t.entry t.palloc.2 with allocated := 1 }) := by
  have hok := ok_of_palloc_runs h
  have hends := hok.scanEnds AllocTable.pallocTurns 0 (by decide) (by decide)
    (decide_eq_true rfl).symm
  rw [hok.scanned_zero] at hends
  refine ⟨hok.last, hends, ?_⟩
  rw [hok.naiveScan_eq_none]
  rcases hok.palloc_cases with ⟨hall, heq⟩ | ⟨i, hi, heq⟩
  · have hnone : ∀ i, ¬ t.Available i := fun i hi =>
      hi.2 (hok.mem_taken.1 (hall ▸ hok.mem_normal.2 hi.1))
    rw [heq]
    exact ⟨⟨fun _ => hnone, fun _ => rfl⟩, fun _ => rfl, fun hne => absurd rfl hne⟩
  · obtain ⟨hlo, hhi, -⟩ := hok.norm i hi.1
    have hne : i ≠ 0 := by
      rintro rfl
      exact absurd hlo (by decide)
    rw [heq]
    exact ⟨⟨fun h0 => absurd h0 hne, fun hnone => absurd hi (hnone i)⟩, fun h0 => absurd h0 hne,
      fun _ => ⟨hi, hlo, hhi, rfl⟩⟩

/-- A machine whose only normal page is the first page of the user range. -/
def oneUserPage : List MmapEntry := [{ start := 0x40000000, len := 0x1000, usable := true }]

theorem AllocTable.Ok.available_oneUserPage {t : AllocTable} {i : Nat} (h : t.Ok)
    (hnps : t.nps = (pmemInit oneUserPage).nps) (hi : t.Available i) : i = userLoPi := by
  obtain ⟨hlo, -, hlt⟩ := h.norm i hi.1
  have hpages : (pmemInit oneUserPage).nps = userLoPi + 1 := by decide
  omega

/-- On a machine with one normal page `palloc` takes the page, the next `palloc` fails, and after
`pfree` the page is taken again; each time the scan of the whole table agrees. -/
theorem palloc_agrees_with_scan_one :
    let t := pmemInit oneUserPage
    let u := t.palloc.1
    let v := u.pfree userLoPi
    (t.palloc.2 = userLoPi ∧ t.naiveScan ≠ none) ∧ (u.palloc.2 = 0 ∧ u.naiveScan = none) ∧
      (v.palloc.2 = userLoPi ∧ v.naiveScan ≠ none) := by
  intro t u v
  have ht : pallocMachine.Reachable t := .init (AllocTable.initial_pmemInit _)
  have hu : pallocMachine.Reachable u := .step ht (a := .palloc) rfl
  have hv : pallocMachine.Reachable v := .step hu (a := .pfree userLoPi) rfl
  -- a successful call takes the one page, and a failed one agrees with the scan
  have htake : ∀ w, pallocMachine.Reachable w → w.nps = t.nps → w.Available userLoPi →
      w.palloc.2 = userLoPi ∧ w.naiveScan ≠ none := by
    intro w hw hnps hfree
    obtain ⟨-, -, hscan, -, hpage⟩ := palloc_agrees_with_scan hw
    have hsome : w.naiveScan ≠ none := fun hnone =>
      (ok_of_palloc_runs hw).naiveScan_eq_none.1 hnone _ hfree
    exact ⟨(ok_of_palloc_runs hw).available_oneUserPage
      hnps (hpage fun h0 => hsome (hscan.1 h0)).1, hsome⟩
  have hnone : u.naiveScan = none := (ok_of_palloc_runs hu).naiveScan_eq_none.2 fun i hi => by
    obtain rfl := (ok_of_palloc_runs hu).available_oneUserPage (by decide +kernel) hi
    exact hi.2 (by decide +kernel)
  exact ⟨htake t ht rfl ⟨by decide, by decide⟩,
    ⟨(palloc_agrees_with_scan hu).2.2.1.2 hnone, hnone⟩,
    htake v hv (by decide +kernel) ⟨by decide +kernel, by decide +kernel⟩⟩

end MCertikos
