import MCertikos.Mem.RoundTrip

/-!
# Loading programs

`elf_load` maps the segments of an executable, which the kernel has in its memory, into the memory
of a new process. It goes through the program headers, and through the pages of each segment that
is to be loaded: a page is allocated, and gets the bytes of the file that are left, and zeros.

A page that is loaded has its bytes, and nothing else that processes see changes
(`Vmm.Loading.loadPage`). This is carried over the pages of a segment (`Vmm.Loading.loadSegment`)
and over the segments (`Vmm.Loading.loadHeaders`), of which each page is loaded once, as they have
no pages in common.
-/

namespace MCertikos

open Memory

/-- Reference: `rounddown` (`kern/lib/types.c:13`). -/
def rounddown (a n : BitVec 32) : BitVec 32 := a - a % n

/-- Reference: `roundup` (`kern/lib/types.c:18`). -/
def roundup (a n : BitVec 32) : BitVec 32 := rounddown (a + n - 1) n

/-- Reference: `ELF_MAGIC` (`kern/lib/elf.h:8`). -/
def elfMagic : BitVec 32 := 0x464C457F

/-- Reference: `ELF_PROG_LOAD` (`kern/lib/elf.h:56`). -/
def elfProgLoad : BitVec 32 := 1

/-- Reference: `ELF_PROG_FLAG_WRITE` (`kern/lib/elf.h:61`). -/
def elfProgFlagWrite : BitVec 32 := 2

/-- Reference: `ELF_SHT_STRTAB` (`kern/lib/elf.h:67`). -/
def elfShtStrtab : BitVec 32 := 3

/-- The fields of a program header that the loader reads. Reference: `struct proghdr`
(`kern/lib/elf.h:30`). -/
structure Proghdr where
  type : BitVec 32
  offset : BitVec 32
  va : BitVec 32
  filesz : BitVec 32
  memsz : BitVec 32
  flags : BitVec 32
  deriving DecidableEq

namespace Vmm

variable (s : Vmm) (p : Nat)

def uint16At (a : BitVec 32) : BitVec 16 := s.byteAt (a + 1) ++ s.byteAt a

def uint32At (a : BitVec 32) : BitVec 32 := s.uint16At (a + 2) ++ s.uint16At a

/-- The program header at an address. -/
def proghdr (ph : BitVec 32) : Proghdr where
  type := s.uint32At ph
  offset := s.uint32At (ph + 4)
  va := s.uint32At (ph + 8)
  filesz := s.uint32At (ph + 16)
  memsz := s.uint32At (ph + 20)
  flags := s.uint32At (ph + 24)

/-- The field `sh_type` of an entry of the section headers, which have 40 bytes. -/
def shType (sh : BitVec 32) (i : BitVec 16) : BitVec 32 := s.uint32At (sh + i.setWidth 32 * 40 + 4)

/-- The loop is that of `pt_copyout`, with `memset` in place of `memcpy`. Reference: `pt_memset`
(`kern/lib/pmap.c:87`). -/
def ptMemset (va : BitVec 32) (c : BitVec 8) (len : BitVec 32) : Vmm × Nat :=
  let r := copyoutLoop p len.toNat s va (List.replicate len.toNat c)
  (r.1, (r.2.map Turn.size).sum)

/-- The body of the loop over the pages of a segment. Reference: `elf_load`
(`kern/lib/elf.c:58`). -/
def loadPage (ph zva perm va fa : BitVec 32) : Vmm :=
  let s := (s.allocPage p va perm).1
  if va < rounddown zva 4096 then
    -- copy a complete page
    (s.ptCopyoutFrom p fa va 4096).1
  else if va < zva ∧ (s.proghdr ph).filesz ≠ 0 then
    -- copy a partial page
    let s := (s.ptMemset p va 0 4096).1
    (s.ptCopyoutFrom p fa va (zva - va)).1
  else
    -- zero a page
    (s.ptMemset p va 0 4096).1

/-- The loop over the pages of a segment; `eva` is a multiple of the size of a page, so there are
less turns than addresses. Reference: `elf_load` (`kern/lib/elf.c:58`). -/
def loadSegment (ph zva eva perm : BitVec 32) : (fuel : Nat) → Vmm → (va fa : BitVec 32) → Vmm
  | 0, s, _, _ => s
  | fuel + 1, s, va, fa =>
    if va < eva then loadSegment ph zva eva perm fuel (s.loadPage p ph zva perm va fa)
      (va + 4096) (fa + 4096)
    else s

end Vmm

/-- The permission of the pages of a segment: `PTE_U | PTE_P`, and `PTE_W` if it may be written.
Reference: `elf_load` (`kern/lib/elf.c:54`). -/
def Proghdr.perm (h : Proghdr) : BitVec 32 :=
  if h.flags &&& elfProgFlagWrite ≠ 0 then 4 ||| 1 ||| 2 else 4 ||| 1

namespace Vmm

/-- The loop over the program headers, which have 32 bytes. There are no more turns than headers,
also if the end of the headers wraps around. Reference: `elf_load` (`kern/lib/elf.c:42`). -/
def loadHeaders (p : Nat) (exe : BitVec 32) : (fuel : Nat) → Vmm → (ph eph : BitVec 32) → Vmm
  | 0, s, _, _ => s
  | fuel + 1, s, ph, eph =>
    if ph < eph then
      let h := s.proghdr ph
      if h.type ≠ elfProgLoad then loadHeaders p exe fuel s (ph + 32) eph
      else
        let va := rounddown h.va 4096
        let zva := h.va + h.filesz
        let eva := roundup (h.va + h.memsz) 4096
        let s := loadSegment p ph zva eva h.perm (eva.toNat - va.toNat) s
          va (exe + rounddown h.offset 4096)
        loadHeaders p exe fuel s (ph + 32) eph
    else s

variable (s : Vmm) (p : Nat) (exe : BitVec 32)

/-- The address of the program headers, from `e_phoff`. -/
def phdrs : BitVec 32 := exe + s.uint32At (exe + 28)

/-- The number of program headers, `e_phnum`. -/
def phnum : BitVec 16 := s.uint16At (exe + 44)

/-- The index of the section with the names of sections, `e_shstrndx`. -/
def shstrndx : BitVec 16 := s.uint16At (exe + 50)

/-- The state after the program is loaded, or `none` if an assertion fails. Reference: `elf_load`
(`kern/lib/elf.c:20`). -/
def elfLoad : Option Vmm :=
  if s.uint32At exe ≠ elfMagic then none
  else if s.shstrndx exe = 0 then none
  else if s.shType (exe + s.uint32At (exe + 32)) (s.shstrndx exe) ≠ elfShtStrtab then none
  else
    let ph := s.phdrs exe
    some (loadHeaders p exe (s.phnum exe).toNat s ph (ph + (s.phnum exe).setWidth 32 * 32))

end Vmm

/-! ## Pages -/

namespace Vmm

variable {s s' : Vmm} {p v n size : Nat} {va ph zva eva fa perm exe : BitVec 32} {W : Finset Nat}

/-- A process that is loaded can have the pages of `W`, which are user pages, as far as they are
missing. -/
structure Loading (s : Vmm) (p : Nat) (W : Finset Nat) : Prop where
  isolated : s.Isolated
  proc : p ≠ 0 ∧ p < numIds
  user : ∀ v ∈ W, vmUserLo ≤ v * pageSize ∧ v * pageSize < vmUserHi
  affords : s.mem.Affords p (s.pagesFor p W)

namespace Loading

section
variable (h : s.Loading p W) (hv : v ∈ W)
include h hv

theorem toNat_pageAddr : (pageAddr v).toNat = v * pageSize := by
  have := (h.user v hv).2
  rw [vmUserHi] at this
  rw [pageAddr, BitVec.toNat_ofNat, Nat.mod_eq_of_lt (by omega)]

theorem userAddr : UserAddr p (pageAddr v) :=
  ⟨h.proc.1, h.proc.2, by
    rw [h.toNat_pageAddr hv]
    exact h.user v hv⟩

theorem page_pageAddr : (pageAddr v).toNat / pageSize = v := by
  rw [h.toNat_pageAddr hv, Nat.mul_div_cancel _ (by decide)]

/-- Nothing is seen in a page that is not present. -/
theorem user_of_absent (habsent : ¬ Present (s.getPtblEntryByVa p (pageAddr v))) {j : Nat}
    (hj : j < pageSize) :
    s.user (p, pageAddr v + BitVec.ofNat 32 j) = none := by
  have hoff : (pageAddr v).toNat % pageSize + j < pageSize := by
    rwa [h.toNat_pageAddr hv, Nat.mul_mod_left, Nat.zero_add]
  have hpage : (pageAddr v + BitVec.ofNat 32 j).toNat / pageSize = v := by
    rw [toNat_add_of_page hoff, h.toNat_pageAddr hv, page_div hj]
  have hentry := (entry_pageAddr s p (pageAddr v + BitVec.ofNat 32 j)).1
  rw [hpage] at hentry
  rw [Vmm.user, view, userPa, if_neg fun hc => habsent (hentry ▸ hc.2), Option.map_none]

/-- The start of a page of `W` can be copied to. -/
theorem ready (hn : n ≤ pageSize) : s.Ready p W (pageAddr v) n := by
  obtain ⟨hlo, hhi⟩ := h.user v hv
  refine ⟨h.isolated, h.proc, ?_, ?_, fun v' hv' => ?_, fun v hv => h.userAddr hv, h.affords⟩
  · rwa [h.toNat_pageAddr hv]
  · rw [h.toNat_pageAddr hv]
    rw [vmUserHi, pageSize] at *
    omega
  · obtain ⟨i, hi, rfl⟩ := mem_vpages.1 hv'
    rwa [h.toNat_pageAddr hv, page_div (hi.trans_le hn)]

end

end Loading

/-- What `pt_memset` does. -/
theorem Ready.ptMemset {len : BitVec 32} (h : s.Ready p W va len.toNat) (c : BitVec 8) :
    s.Widens (s.ptMemset p va c len).1 p (vpages va.toNat len.toNat) ∧
      Memory.Extends (write nextAddr s.user (p, va) ((List.replicate len.toNat c).map some))
      (s.ptMemset p va c len).1.user ∧
      (s.ptMemset p va c len).1.mem.Affords p ((s.ptMemset p va c len).1.pagesFor p W) := by
  have hlen : (List.replicate len.toNat c).length = len.toNat := List.length_replicate
  obtain ⟨hwidens, hextends, haffords⟩ := Ready.copyoutLoop len.toNat hlen.le (hlen.symm ▸ h)
  rw [hlen] at hwidens
  exact ⟨hwidens, hextends, haffords⟩

/-- The page `v` is filled from its start: the other bytes that were seen are as before. -/
structure Fills (s s' : Vmm) (p v : Nat) (W : Finset Nat) (data : List (BitVec 8)) : Prop where
  widens : s.Widens s' p {v}
  loading : s'.Loading p W
  user : Memory.Extends (write nextAddr s.user (p, pageAddr v) (data.map some)) s'.user

namespace Loading

theorem vpages_subset (h : s.Loading p W) (hv : v ∈ W) (hn : n ≤ pageSize) :
    (vpages (pageAddr v).toNat n : Set Nat) ⊆ {v} := by
  intro v' hv'
  obtain ⟨i, hi, rfl⟩ := mem_vpages.1 (Finset.mem_coe.1 hv')
  rw [h.toNat_pageAddr hv, page_div (hi.trans_le hn)]
  exact Set.mem_singleton v

theorem ptMemset (h : s.Loading p W) (hv : v ∈ W) (c : BitVec 8) :
    s.Fills (s.ptMemset p (pageAddr v) c 4096).1 p v W (List.replicate pageSize c) := by
  obtain ⟨hwidens, hextends, haffords⟩ :=
    (h.ready hv le_rfl : s.Ready p W _ (4096 : BitVec 32).toNat).ptMemset c
  exact ⟨hwidens.mono (h.vpages_subset hv le_rfl),
    ⟨hwidens.isolated, h.proc, h.user, haffords⟩, hextends⟩

theorem ptCopyoutFrom (h : s.Loading p W) (hv : v ∈ W) {len : BitVec 32} (hn : len.toNat = n)
    (hlen : n ≤ pageSize) (hk : s.KernelBuffer fa n) :
    s.Fills (s.ptCopyoutFrom p fa (pageAddr v) len).1 p v W (s.bytesAt fa n) := by
  subst hn
  obtain ⟨-, hwidens, hextends, haffords⟩ := (h.ready hv hlen).ptCopyoutFrom hk
  exact ⟨hwidens.mono (h.vpages_subset hv hlen),
    ⟨hwidens.isolated, h.proc, h.user, haffords⟩, hextends⟩

end Loading

namespace Fills

variable {data : List (BitVec 8)} {b : BitVec 8} {j : Nat}

theorem byte (h : s.Fills s' p v W data) (hv : v ∈ W) (hb : data[j]? = some b)
    (hlen : data.length ≤ pageSize) :
    s'.user (p, pageAddr v + BitVec.ofNat 32 j) = some b := by
  have hlt := (h.loading.user v hv).2
  refine h.user _ _ (write_user_at ?_ hb)
  rw [h.loading.toNat_pageAddr hv]
  rw [vmUserHi, pageSize] at *
  omega

/-- What is seen in the page behind the data. -/
theorem rest (h : s.Fills s' p v W data) (hv : v ∈ W) (hj : data.length ≤ j) (hlt : j < pageSize)
    (hb : s.user (p, pageAddr v + BitVec.ofNat 32 j) = some b) :
    s'.user (p, pageAddr v + BitVec.ofNat 32 j) = some b := by
  have hready := h.loading.ready hv (le_refl pageSize)
  refine h.user _ _ ?_
  rw [write_of_ne fun i hi heq => ?_, hb]
  rw [List.length_map] at hi
  rw [iterate_nextAddr, Prod.mk.injEq] at heq
  have := congrArg BitVec.toNat heq.2
  rw [hready.toNat_add hlt.le, hready.toNat_add (by omega)] at this
  omega

/-- Bytes outside of the page are seen as before. -/
theorem unmapped (h : s.Fills s' p v W data) (hlen : data.length ≤ pageSize)
    {u : Nat × BitVec 32 → Option (BitVec 8)} (hu : Memory.Extends u s.user)
    (hnone : ∀ j < pageSize, u (p, pageAddr v + BitVec.ofNat 32 j) = none) :
    Memory.Extends u s'.user := by
  refine (hu.write_unmapped fun i hi => ?_).trans h.user
  rw [List.length_map] at hi
  rw [iterate_nextAddr]
  exact hnone i (by omega)

end Fills

theorem uint32At_congr {a : BitVec 32}
    (h : ∀ j < 4, s'.byteAt (a + BitVec.ofNat 32 j) = s.byteAt (a + BitVec.ofNat 32 j)) :
    s'.uint32At a = s.uint32At a := by
  have h0 : s'.byteAt a = s.byteAt a := by
    have := h 0 (by decide)
    rwa [BitVec.add_zero] at this
  have h1 : s'.byteAt (a + 1) = s.byteAt (a + 1) := h 1 (by decide)
  have h2 : s'.byteAt (a + 2) = s.byteAt (a + 2) := h 2 (by decide)
  have h3 : s'.byteAt (a + 2 + 1) = s.byteAt (a + 2 + 1) := by
    rw [BitVec.add_assoc]
    exact h 3 (by decide)
  rw [uint32At, uint16At, uint16At, h0, h1, h2, h3, uint32At, uint16At, uint16At]

/-- Headers are outside of the pool, and stay as they are. -/
theorem KernelBuffer.proghdr (h : s.KernelBuffer ph 32) {P : Set Nat} (hw : s.Widens s' p P) :
    s'.proghdr ph = s.proghdr ph := by
  have hword : ∀ o ≤ 28, s'.uint32At (ph + BitVec.ofNat 32 o) =
      s.uint32At (ph + BitVec.ofNat 32 o) := by
    refine fun o ho => uint32At_congr fun j hj => ?_
    rw [BitVec.add_assoc, ← BitVec.ofNat_add]
    exact hw.byteAt (h.notMem (by omega))
  have hfirst : s'.uint32At ph = s.uint32At ph := by
    have := hword 0 (by decide)
    rwa [BitVec.add_zero] at this
  simp only [Vmm.proghdr, hfirst, Proghdr.mk.injEq, true_and]
  exact ⟨hword 4 (by decide), hword 8 (by decide), hword 16 (by decide), hword 20 (by decide),
    hword 24 (by decide)⟩

/-- The byte of a page that is loaded: one of the file, from `fa` on, or 0 behind the end of the
file's part. -/
def loadedByte (s : Vmm) (filesz zva fa : BitVec 32) (v j : Nat) : BitVec 8 :=
  if v * pageSize + j < zva.toNat ∧ filesz ≠ 0 then s.byteAt (fa + BitVec.ofNat 32 j) else 0

/-- The bytes of the file are outside of the pool, and stay as they are. -/
theorem Widens.loadedByte {P : Set Nat} {filesz : BitVec 32} {j : Nat} (h : s.Widens s' p P)
    (hout : v * pageSize + j < zva.toNat →
      (fa + BitVec.ofNat 32 j).toNat / pageSize ∉ s.mem.table.normal) :
    s'.loadedByte filesz zva fa v j = s.loadedByte filesz zva fa v j := by
  rw [Vmm.loadedByte, Vmm.loadedByte]
  split
  case isTrue hc => exact h.byteAt (hout hc.1)
  case isFalse => rfl

/-- A page of a segment is loaded. -/
structure LoadsPage (s s' : Vmm) (p : Nat) (W : Finset Nat) (perm : BitVec 32) (v : Nat)
    (byte : Nat → BitVec 8) : Prop where
  widens : s.Widens s' p {v}
  loading : s'.Loading p W
  user : Memory.Extends s.user s'.user
  entry : ∃ page, s'.getPtblEntryByVa p (pageAddr v) = pageEntry page perm
  bytes : ∀ j < pageSize, s'.user (p, pageAddr v + BitVec.ofNat 32 j) = some (byte j)

theorem toNat_rounddown (a : BitVec 32) :
    (rounddown a 4096).toNat = a.toNat / pageSize * pageSize := by
  have hmod : (a % 4096).toNat = a.toNat % 4096 := BitVec.toNat_umod
  rw [rounddown, BitVec.toNat_sub_of_le, hmod, pageSize]
  · omega
  · rw [BitVec.le_def, hmod]
    exact Nat.mod_le _ _

/-- A turn of the loop over the pages loads one page. -/
theorem Loading.loadPage (h : s.Loading p W) (hv : v ∈ W)
    (habsent : ¬ Present (s.getPtblEntryByVa p (pageAddr v))) (hlt : perm.toNat < 4096)
    (hperm : Present perm) (hph : s.KernelBuffer ph 32)
    (hfile : v * pageSize < zva.toNat →
      s.KernelBuffer fa (min pageSize (zva.toNat - v * pageSize)))
      (hfull : v * pageSize < zva.toNat / pageSize * pageSize → (s.proghdr ph).filesz ≠ 0) :
    s.LoadsPage (s.loadPage p ph zva perm (pageAddr v) fa) p W perm v
      (s.loadedByte (s.proghdr ph).filesz zva fa v) := by
  have hu := h.userAddr hv
  have hpage := h.page_pageAddr hv
  obtain ⟨hr, haffords⟩ :=
    h.isolated.affords_allocPage hu (hpage.symm ▸ hv) habsent hperm h.affords
  obtain ⟨hwidens, hextends⟩ := h.isolated.user_allocPage hu hlt habsent
  rw [hpage] at hwidens
  have hloading : (s.allocPage p (pageAddr v) perm).1.Loading p W :=
    ⟨hwidens.isolated, h.proc, h.user, haffords⟩
  have hentry : ∃ page, (s.allocPage p (pageAddr v) perm).1.getPtblEntryByVa p (pageAddr v) =
      pageEntry page perm :=
    ⟨_, by rw [h.isolated.toTables.entry_allocPage hu, if_pos ⟨hr, rfl, rfl⟩]⟩
  have hnone : ∀ j < pageSize, s.user (p, pageAddr v + BitVec.ofNat 32 j) = none :=
    fun j hj => h.user_of_absent hv habsent hj
  rw [Vmm.loadPage]
  generalize (s.allocPage p (pageAddr v) perm).1 = s₁ at hwidens hextends hloading hentry
  have hva := h.toNat_pageAddr hv
  have hdown := toNat_rounddown zva
  simp only [BitVec.lt_def, hdown, hva]
  have hfilled : ∀ {s₂ data}, s₁.Fills s₂ p v W data → data.length ≤ pageSize →
      (∀ j < pageSize, s₂.user (p, pageAddr v + BitVec.ofNat 32 j) =
        some (s.loadedByte (s.proghdr ph).filesz zva fa v j)) →
      s.LoadsPage s₂ p W perm v (s.loadedByte (s.proghdr ph).filesz zva fa v) := by
    intro s₂ data hf hlen hbytes
    obtain ⟨page, hpage⟩ := hentry
    refine ⟨hwidens.trans hf.widens, hf.loading, hf.unmapped hlen hextends hnone,
      ⟨page, ?_⟩, hbytes⟩
    rw [hf.widens.entry p _ hu (.inl (hpage ▸ present_of_perm hperm page)), hpage]
  split
  case isTrue hlt =>
    have hend : v * pageSize + pageSize ≤ zva.toNat := by
      rw [pageSize] at hlt ⊢
      omega
    have hpos : 0 < pageSize := by decide
    replace hfile := hfile (by omega)
    rw [min_eq_left (by omega)] at hfile
    have hf : s₁.Fills (s₁.ptCopyoutFrom p fa (pageAddr v) 4096).1 p v
        W (s₁.bytesAt fa pageSize) :=
      hloading.ptCopyoutFrom hv (by decide) le_rfl (hfile.congr hwidens.normal)
    refine hfilled hf (length_bytesAt _ _ _).le fun j hj => ?_
    rw [loadedByte, if_pos ⟨by omega, hfull hlt⟩]
    refine hf.byte hv ?_ (length_bytesAt _ _ _).le
    rw [getElem?_bytesAt, if_pos hj, hwidens.byteAt (hfile.notMem hj)]
  case isFalse hge =>
    have hzero := hloading.ptMemset hv 0
    have hclear : ∀ j < pageSize, (s₁.ptMemset p (pageAddr v) 0 4096).1.user
      (p, pageAddr v + BitVec.ofNat 32 j) =
        some 0 := fun j hj => hzero.byte hv (List.getElem?_replicate_of_lt hj)
        List.length_replicate.le
    rw [hph.proghdr hwidens]
    split
    case isFalse hnot =>
      refine hfilled hzero List.length_replicate.le fun j hj => ?_
      rw [hclear j hj, loadedByte, if_neg fun hc => hnot ⟨by omega, hc.2⟩]
    case isTrue hpart =>
      -- the start of the page is overwritten
      have hle : pageAddr v ≤ zva := by
        rw [BitVec.le_def, hva]
        omega
      have hsub : (zva - pageAddr v).toNat = zva.toNat - v * pageSize := by
        rw [BitVec.toNat_sub_of_le hle, hva]
      have hlen : zva.toNat - v * pageSize ≤ pageSize := by
        rw [pageSize] at hge ⊢
        omega
      replace hfile := hfile hpart.1
      rw [min_eq_right hlen] at hfile
      have hf := hzero.loading.ptCopyoutFrom hv hsub hlen
        (hfile.congr (hzero.widens.normal.trans hwidens.normal))
      have hmem := hf.unmapped (length_bytesAt _ _ _ ▸ hlen)
        (hzero.unmapped List.length_replicate.le hextends hnone) hnone
      obtain ⟨page, hentry⟩ := hentry
      have hpresent := present_of_perm hperm page
      have hentry' := (hzero.widens.entry p _ hu (.inl (hentry ▸ hpresent))).trans hentry
      refine ⟨hwidens.trans (hzero.widens.trans hf.widens), hf.loading, hmem, ⟨page, ?_⟩,
        fun j hj => ?_⟩
      · rw [hf.widens.entry p _ hu (.inl (hentry' ▸ hpresent)), hentry']
      · rcases Nat.lt_or_ge j (zva.toNat - v * pageSize) with hj' | hj'
        · rw [loadedByte, if_pos ⟨by omega, hpart.2⟩]
          refine hf.byte hv ?_ (length_bytesAt _ _ _ ▸ hlen)
          rw [getElem?_bytesAt, if_pos hj', (hwidens.trans hzero.widens).byteAt (hfile.notMem hj')]
        · rw [loadedByte, if_neg fun hc => by omega]
          exact hf.rest hv (length_bytesAt _ _ _ ▸ hj') hj (hclear j hj)

/-! ## Segments -/

theorem pageAddr_succ (v : Nat) : pageAddr v + 4096 = pageAddr (v + 1) := by
  rw [pageAddr, pageAddr, Nat.succ_mul, BitVec.ofNat_add]
  rfl

/-- The pages from `v` on are loaded, with the file from `fa` on. -/
structure LoadsPages (s s' : Vmm) (p : Nat) (W : Finset Nat) (perm filesz zva fa : BitVec 32)
    (v n : Nat) : Prop where
  widens : s.Widens s' p (Set.Ico v (v + n))
  loading : s'.Loading p W
  user : Memory.Extends s.user s'.user
  entry : ∀ k < n, ∃ page, s'.getPtblEntryByVa p (pageAddr (v + k)) = pageEntry page perm
  bytes : ∀ k < n, ∀ j < pageSize, s'.user (p, pageAddr (v + k) + BitVec.ofNat 32 j) =
    some (s.loadedByte filesz zva (fa + BitVec.ofNat 32 (k * pageSize)) (v + k) j)

/-- The loop over the pages of a segment. -/
theorem Loading.loadSegment (hlt : perm.toNat < 4096) (hperm : Present perm) {fuel : Nat}
    (hfuel : n ≤ fuel) (h : s.Loading p W) (hW : ∀ k < n, v + k ∈ W)
    (heva : eva.toNat = (v + n) * pageSize)
    (habsent : ∀ k < n, ¬ Present (s.getPtblEntryByVa p (pageAddr (v + k))))
    (hph : s.KernelBuffer ph 32) (hfile : v * pageSize < zva.toNat →
      s.KernelBuffer fa (zva.toNat - v * pageSize))
      (hfull : v * pageSize < zva.toNat / pageSize * pageSize → (s.proghdr ph).filesz ≠ 0) :
    s.LoadsPages (loadSegment p ph zva eva perm fuel s (pageAddr v) fa) p W
    perm (s.proghdr ph).filesz zva fa v n := by
  induction n generalizing s v fa fuel with
  | zero =>
    have hstop : ¬ pageAddr v < eva := by
      have hlt := eva.isLt
      rw [heva, Nat.add_zero] at hlt
      rw [BitVec.lt_def, pageAddr, BitVec.toNat_ofNat, Nat.mod_eq_of_lt hlt, heva, Nat.add_zero]
      exact Nat.lt_irrefl _
    have heq : Vmm.loadSegment p ph zva eva perm fuel s (pageAddr v) fa = s := by
      cases fuel with
      | zero => rfl
      | succ fuel => exact if_neg hstop
    rw [heq]
    exact ⟨.refl h.isolated, h, .refl _, fun k hk => absurd hk (Nat.not_lt_zero k),
      fun k hk => absurd hk (Nat.not_lt_zero k)⟩
  | succ n ih =>
    obtain ⟨fuel, rfl⟩ := Nat.exists_eq_add_one_of_ne_zero (show fuel ≠ 0 by omega)
    have hv : v ∈ W := hW 0 (Nat.succ_pos n)
    have hgo : pageAddr v < eva := by
      rw [BitVec.lt_def, h.toNat_pageAddr hv, heva]
      exact Nat.mul_lt_mul_of_pos_right (by omega) (by decide)
    have hpage := h.loadPage hv (habsent 0 (Nat.succ_pos n)) hlt hperm hph
      (fun hz => (hfile hz).take (Nat.min_le_right _ _)) hfull
    rw [Vmm.loadSegment, if_pos hgo, pageAddr_succ]
    generalize s.loadPage p ph zva perm (pageAddr v) fa = s₁ at hpage
    have hfilesz := hph.proghdr hpage.widens
    have hshift : ∀ k, v + 1 + k = v + (k + 1) := fun k => by omega
    have hnext : (v + 1) * pageSize = v * pageSize + pageSize := Nat.succ_mul v pageSize
    have hW' : ∀ k < n, v + 1 + k ∈ W := fun k hk => hshift k ▸ hW (k + 1) (by omega)
    have habsent' : ∀ k < n, ¬ Present (s₁.getPtblEntryByVa p (pageAddr (v + 1 + k))) := by
      intro k hk
      rw [hpage.widens.entry p _ (h.userAddr (hW' k hk)) (.inr fun hc => ?_), hshift]
      · exact habsent (k + 1) (by omega)
      · have hsame : v + 1 + k = v := (h.page_pageAddr (hW' k hk)).symm.trans hc.2
        omega
    have hfile' : (v + 1) * pageSize < zva.toNat →
        s₁.KernelBuffer (fa + 4096) (zva.toNat - (v + 1) * pageSize) := by
      intro hz
      have hdrop := (hfile (by omega)).drop (show pageSize ≤ zva.toNat - v * pageSize by omega)
      rw [Nat.sub_sub, ← hnext] at hdrop
      exact hdrop.congr hpage.widens.normal
    have hfull' : (v + 1) * pageSize < zva.toNat / pageSize * pageSize →
        (s₁.proghdr ph).filesz ≠ 0 := by
      intro hz
      rw [hfilesz]
      exact hfull (by omega)
    have hrest := ih (show n ≤ fuel by omega) hpage.loading hW' (by rw [heva, hshift]) habsent'
      (hph.congr hpage.widens.normal) hfile' hfull'
    rw [hfilesz] at hrest
    refine ⟨(hpage.widens.mono ?_).trans (hrest.widens.mono ?_), hrest.loading,
      hpage.user.trans hrest.user, fun k hk => ?_, fun k hk j hj => ?_⟩
    · exact Set.singleton_subset_iff.2 ⟨le_rfl, by omega⟩
    · exact Set.Ico_subset_Ico (by omega) (by omega)
    · cases k with
      | zero =>
        obtain ⟨page, hentry⟩ := hpage.entry
        exact ⟨page, (hrest.widens.entry p _ (h.userAddr hv)
          (.inl (hentry ▸ present_of_perm hperm page))).trans hentry⟩
      | succ k => exact hshift k ▸ hrest.entry k (by omega)
    · cases k with
      | zero =>
        rw [Nat.zero_mul, BitVec.add_zero]
        exact hrest.user _ _ (hpage.bytes j hj)
      | succ k =>
        have haddr : fa + 4096 + BitVec.ofNat 32 (k * pageSize) =
            fa + BitVec.ofNat 32 ((k + 1) * pageSize) := by
          rw [Nat.succ_mul, Nat.add_comm, BitVec.ofNat_add, ← BitVec.add_assoc]
          rfl
        have hsplit : (v + (k + 1)) * pageSize = v * pageSize + (k + 1) * pageSize :=
          Nat.add_mul _ _ _
        have hbyte := hrest.bytes k (by omega) j hj
        rw [hshift, haddr] at hbyte
        rw [hbyte, hpage.widens.loadedByte fun hc => ?_]
        rw [BitVec.add_assoc, ← BitVec.ofNat_add]
        exact (hfile (by omega)).notMem (by omega)

end Vmm

namespace Proghdr

variable {h : Proghdr} {v : Nat}

/-- The virtual pages of a segment, from the page of its start to its end, rounded up. -/
def pages (h : Proghdr) : Finset Nat :=
  Finset.Ico (h.va.toNat / pageSize) ((h.va.toNat + h.memsz.toNat + (pageSize - 1)) / pageSize)

/-- A segment of user addresses, whose part in the file is no longer than it is, and is at the same
offset in a page. -/
structure Loadable (h : Proghdr) : Prop where
  lo : vmUserLo ≤ h.va.toNat
  hi : h.va.toNat + h.memsz.toNat ≤ vmUserHi
  filesz : h.filesz.toNat ≤ h.memsz.toNat
  offset : h.offset.toNat % pageSize = h.va.toNat % pageSize

namespace Loadable

theorem toNat_zva (hl : h.Loadable) : (h.va + h.filesz).toNat = h.va.toNat + h.filesz.toNat := by
  have hhi := hl.hi
  have hle := hl.filesz
  rw [vmUserHi] at hhi
  exact Vmm.toNat_add_of_lt (by omega)

theorem toNat_eva (hl : h.Loadable) : (roundup (h.va + h.memsz) 4096).toNat =
    (h.va.toNat + h.memsz.toNat + (pageSize - 1)) / pageSize * pageSize := by
  have hhi := hl.hi
  rw [vmUserHi] at hhi
  have hsum : (h.va + h.memsz + 4096 - 1).toNat = h.va.toNat + h.memsz.toNat + (pageSize - 1) := by
    have hadd : (h.va + h.memsz).toNat = h.va.toNat + h.memsz.toNat :=
      Vmm.toNat_add_of_lt (by omega)
    rw [pageSize]
    generalize h.va + h.memsz = x at hadd
    bv_omega
  rw [roundup, Vmm.toNat_rounddown, hsum]

theorem rounddown_va (h : Proghdr) : rounddown h.va 4096 = pageAddr (h.va.toNat / pageSize) := by
  have hlt := h.va.isLt
  refine BitVec.eq_of_toNat_eq ?_
  rw [Vmm.toNat_rounddown, pageAddr, BitVec.toNat_ofNat, Nat.mod_eq_of_lt]
  rw [pageSize]
  omega

/-- The pages of the segment are user pages. -/
theorem user (hl : h.Loadable) (hv : v ∈ h.pages) :
    vmUserLo ≤ v * pageSize ∧ v * pageSize < vmUserHi := by
  obtain ⟨h1, h2⟩ := Finset.mem_Ico.1 hv
  have hlo := hl.lo
  have hhi := hl.hi
  rw [vmUserLo] at *
  rw [vmUserHi] at *
  rw [pageSize] at *
  omega

end Loadable

theorem perm_spec (h : Proghdr) : h.perm.toNat < 4096 ∧ Present h.perm ∧
    (h.perm &&& 2 ≠ 0 ↔ h.flags &&& elfProgFlagWrite ≠ 0) := by
  rw [perm]
  split
  case isTrue hw => exact ⟨by decide, by decide, iff_of_true (by decide) hw⟩
  case isFalse hw => exact ⟨by decide, by decide, iff_of_false (by decide) hw⟩

end Proghdr

namespace Vmm

variable {s s' s₀ : Vmm} {p v n size : Nat} {va ph eph exe : BitVec 32}
  {W : Finset Nat} {h : Proghdr}

/-- The address in memory from which the pages of a segment are copied. -/
def fileAddr (exe : BitVec 32) (h : Proghdr) (v : Nat) : BitVec 32 :=
  exe + rounddown h.offset 4096 + BitVec.ofNat 32 ((v - h.va.toNat / pageSize) * pageSize)

/-- The pages of the segment have its permission, and the bytes of the file as they were in
`s₀`. -/
structure SegmentLoaded (s₀ s : Vmm) (p : Nat) (exe : BitVec 32) (h : Proghdr) : Prop where
  entry : ∀ v ∈ h.pages, ∃ page, s.getPtblEntryByVa p (pageAddr v) = pageEntry page h.perm
  bytes : ∀ v ∈ h.pages, ∀ j < pageSize, s.user (p, pageAddr v + BitVec.ofNat 32 j) =
    some (s₀.loadedByte h.filesz (h.va + h.filesz) (fileAddr exe h v) v j)

/-- A segment whose pages are still to be loaded. -/
structure Pending (s : Vmm) (p : Nat) (W : Finset Nat) (exe : BitVec 32) (h : Proghdr) : Prop where
  loadable : h.Loadable
  pages : h.pages ⊆ W
  absent : ∀ v ∈ h.pages, ¬ Present (s.getPtblEntryByVa p (pageAddr v))
  file : s.KernelBuffer (exe + rounddown h.offset 4096) (h.va.toNat % pageSize + h.filesz.toNat)

/-- The other pages are loaded. -/
theorem Pending.congr (hp : s.Pending p W exe h) (hs : s.Loading p W) {P : Set Nat}
    (hw : s.Widens s' p P) (hP : ∀ v ∈ h.pages, v ∉ P) : s'.Pending p W exe h := by
  refine ⟨hp.loadable, hp.pages, fun v hv => ?_, hp.file.congr hw.normal⟩
  have hvW := hp.pages hv
  rw [hw.entry p _ (hs.userAddr hvW) (.inr fun hc => hP v hv (hs.page_pageAddr hvW ▸ hc.2))]
  exact hp.absent v hv

/-- A segment is loaded. -/
theorem Loading.segment (hs : s.Loading p W) (hp : s.Pending p W exe (s.proghdr ph))
    (hph : s.KernelBuffer ph 32) :
    let h := s.proghdr ph
    let s' := Vmm.loadSegment p ph (h.va + h.filesz) (roundup (h.va + h.memsz) 4096) h.perm
      ((roundup (h.va + h.memsz) 4096).toNat - (rounddown h.va 4096).toNat) s (rounddown h.va 4096)
      (exe + rounddown h.offset 4096)
    s.Widens s' p h.pages ∧ s'.Loading p W ∧ Memory.Extends s.user s'.user ∧
    SegmentLoaded s s' p exe h := by
  intro h s'
  obtain ⟨hlt, hperm, -⟩ := h.perm_spec
  have hl : h.Loadable := hp.loadable
  have hfirst : h.va.toNat / pageSize ≤ (h.va.toNat + h.memsz.toNat + (pageSize - 1)) / pageSize :=
    Nat.div_le_div_right (by omega)
  obtain ⟨n, hn⟩ := Nat.exists_eq_add_of_le hfirst
  have hpages : ∀ k < n, h.va.toNat / pageSize + k ∈ h.pages := fun k hk =>
    Finset.mem_Ico.2 ⟨by omega, by omega⟩
  have heva := hl.toNat_eva
  have hzva := hl.toNat_zva
  have hdiv := Nat.div_add_mod' h.va.toNat pageSize
  have hfuel : n ≤ (roundup (h.va + h.memsz) 4096).toNat - (rounddown h.va 4096).toNat := by
    rw [heva, toNat_rounddown, hn, Nat.add_mul, Nat.add_sub_cancel_left]
    exact Nat.le_mul_of_pos_right n (by decide)
  have hloads : s.LoadsPages s' p W h.perm h.filesz (h.va + h.filesz)
    (exe + rounddown h.offset 4096)
      (h.va.toNat / pageSize) n := by
    show LoadsPages s (Vmm.loadSegment _ _ _ _ _ _ _ (rounddown h.va
      4096) _) p W h.perm h.filesz _ _ _ n
    rw [Proghdr.Loadable.rounddown_va] at hfuel ⊢
    refine hs.loadSegment hlt hperm hfuel (fun k hk => hp.pages (hpages k hk)) ?_
      (fun k hk => hp.absent _ (hpages k hk)) hph (fun _ => ?_) fun hz => ?_
    · rw [heva, hn]
    · have hlen : h.va.toNat + h.filesz.toNat - h.va.toNat / pageSize * pageSize =
          h.va.toNat % pageSize + h.filesz.toNat := by omega
      rw [hzva, hlen]
      exact hp.file
    · -- without bytes in the file, its part ends in the first page
      intro h0
      have hzero : h.filesz.toNat = 0 := congrArg BitVec.toNat h0
      rw [hzva, hzero, Nat.add_zero] at hz
      exact Nat.lt_irrefl _ hz
  have hcut : ∀ v ∈ h.pages, ∃ k < n, v = h.va.toNat / pageSize + k ∧
      v - h.va.toNat / pageSize = k := by
    intro v hv
    obtain ⟨h1, h2⟩ := Finset.mem_Ico.1 hv
    exact ⟨v - h.va.toNat / pageSize, by omega, by omega, rfl⟩
  refine ⟨hloads.widens.mono fun v hv => ?_, hloads.loading, hloads.user,
    ⟨fun v hv => ?_, fun v hv j hj => ?_⟩⟩
  · exact Finset.mem_coe.2 (Finset.mem_Ico.2 ⟨hv.1, hn ▸ hv.2⟩)
  · obtain ⟨k, hk, rfl, -⟩ := hcut v hv
    exact hloads.entry k hk
  · obtain ⟨k, hk, rfl, hsub⟩ := hcut v hv
    rw [fileAddr, hsub]
    exact hloads.bytes k hk j hj

/-! ## Programs -/

/-- Pages that are loaded later change nothing of a segment. -/
theorem SegmentLoaded.mono (hl : SegmentLoaded s₀ s p exe h) {P : Set Nat} (hw : s.Widens s' p P)
    (hu : Memory.Extends s.user s'.user) (hpages : ∀ v ∈ h.pages, UserAddr p (pageAddr v)) :
    SegmentLoaded s₀ s' p exe h := by
  refine ⟨fun v hv => ?_, fun v hv j hj => hu _ _ (hl.bytes v hv j hj)⟩
  obtain ⟨page, hentry⟩ := hl.entry v hv
  have hpresent : Present (s.getPtblEntryByVa p (pageAddr v)) :=
    hentry ▸ present_of_perm h.perm_spec.2.1 page
  exact ⟨page, (hw.entry p _ (hpages v hv) (.inl hpresent)).trans hentry⟩

/-- Pages that were loaded before changed nothing of the file. -/
theorem SegmentLoaded.base (hl : SegmentLoaded s s' p exe h) {P : Set Nat} (hw : s₀.Widens s p P)
    (hp : s₀.Pending p W exe h) : SegmentLoaded s₀ s' p exe h := by
  refine ⟨hl.entry, fun v hv j hj => ?_⟩
  rw [hl.bytes v hv j hj, hw.loadedByte fun hz => ?_]
  have hlo := (Finset.mem_Ico.1 hv).1
  have hdiv := Nat.div_add_mod' h.va.toNat pageSize
  have hsplit : (v - h.va.toNat / pageSize) * pageSize =
      v * pageSize - h.va.toNat / pageSize * pageSize :=
    Nat.sub_mul _ _ _
  have hmul := Nat.mul_le_mul_right pageSize hlo
  rw [hp.loadable.toNat_zva] at hz
  rw [fileAddr, BitVec.add_assoc _ (BitVec.ofNat 32 _), ← BitVec.ofNat_add]
  exact hp.file.notMem (by omega)

/-- The pages of the segments that are loaded. -/
def loadPages (hs : List Proghdr) : Finset Nat :=
  (hs.filter (·.type = elfProgLoad)).toFinset.biUnion Proghdr.pages

theorem mem_loadPages {hs : List Proghdr} : v ∈ loadPages hs ↔ ∃ h ∈ hs, h.type = elfProgLoad ∧
    v ∈ h.pages := by
  simp only [loadPages, Finset.mem_biUnion, List.mem_toFinset, List.mem_filter,
    decide_eq_true_eq, and_assoc]

/-- The loop over the program headers. -/
theorem Loading.loadHeaders {hs : List Proghdr} {fuel : Nat} (hfuel : hs.length ≤ fuel)
    (hl : s.Loading p W) (heph : eph.toNat = ph.toNat + 32 * hs.length)
    (hhdr : ∀ i h, hs[i]? = some h →
      s.KernelBuffer (ph + BitVec.ofNat 32 (32 * i)) 32 ∧
      s.proghdr (ph + BitVec.ofNat 32 (32 * i)) = h)
    (hpending : ∀ h ∈ hs, h.type = elfProgLoad → s.Pending p W exe h)
    (hdisjoint : hs.Pairwise fun h h' => h.type = elfProgLoad → h'.type = elfProgLoad →
      Disjoint h.pages h'.pages) :
    s.Widens (loadHeaders p exe fuel s ph eph) p (loadPages hs) ∧
      Memory.Extends s.user (loadHeaders p exe fuel s ph eph).user ∧
      ∀ h ∈ hs, h.type = elfProgLoad →
      SegmentLoaded s (loadHeaders p exe fuel s ph eph) p exe h := by
  induction hs generalizing s ph fuel with
  | nil =>
    have heq : Vmm.loadHeaders p exe fuel s ph eph = s := by
      cases fuel with
      | zero => rfl
      | succ fuel =>
        exact if_neg fun hlt => absurd (BitVec.lt_def.1 hlt) (by rw [heph]; exact Nat.lt_irrefl _)
    rw [heq]
    exact ⟨.refl hl.isolated, .refl _, nofun⟩
  | cons h hs ih =>
    obtain ⟨fuel, rfl⟩ := Nat.exists_eq_add_one_of_ne_zero (show fuel ≠ 0 by
      rw [List.length_cons] at hfuel
      omega)
    rw [List.length_cons] at hfuel heph
    have hgo : ph < eph := BitVec.lt_def.2 (by omega)
    have hfirst := hhdr 0 h rfl
    rw [BitVec.add_zero] at hfirst
    obtain ⟨hph, rfl⟩ := hfirst
    obtain ⟨hhead, hdisjoint⟩ := List.pairwise_cons.1 hdisjoint
    have heph' : eph.toNat = (ph + 32).toNat + 32 * hs.length := by
      have hlt := eph.isLt
      have hadd : (ph + 32).toNat = ph.toNat + 32 :=
        toNat_add_of_lt (by show ph.toNat + 32 < 2 ^ 32; omega)
      omega
    have hnext : ∀ i, ph + 32 + BitVec.ofNat 32 (32 * i) = ph + BitVec.ofNat 32 (32 * (i + 1)) :=
      fun i => by
      rw [Nat.mul_succ, Nat.add_comm, BitVec.ofNat_add, ← BitVec.add_assoc]
      rfl
    have hsub : (loadPages hs : Set Nat) ⊆ loadPages (s.proghdr ph :: hs) := fun v hv => by
      obtain ⟨h, hmem, hload⟩ := mem_loadPages.1 (Finset.mem_coe.1 hv)
      exact Finset.mem_coe.2 (mem_loadPages.2 ⟨h, List.mem_cons_of_mem _ hmem, hload⟩)
    rw [Vmm.loadHeaders, if_pos hgo]
    dsimp only
    by_cases htype : (s.proghdr ph).type = elfProgLoad
    · rw [if_neg (not_not.2 htype)]
      have hp := hpending _ List.mem_cons_self htype
      obtain ⟨hw, hl', hu, hseg⟩ := hl.segment hp hph
      generalize Vmm.loadSegment p ph _ _ _ _ s _ _ = s₁ at hw hl' hu hseg
      obtain ⟨hw', hu', hsegs⟩ := ih (show hs.length ≤ fuel by omega) hl' heph'
        (fun i h hi => by
          obtain ⟨hk, hh⟩ := hhdr (i + 1) h hi
          rw [hnext]
          exact ⟨hk.congr hw.normal, (hk.proghdr hw).trans hh⟩)
        (fun h hmem ht => (hpending h (List.mem_cons_of_mem _ hmem) ht).congr hl hw fun v hv hv' =>
          Finset.disjoint_left.1 (hhead h hmem htype ht) (Finset.mem_coe.1 hv') hv)
        hdisjoint
      refine ⟨(hw.mono fun v hv => ?_).trans (hw'.mono hsub), hu.trans hu', fun h hmem ht => ?_⟩
      · exact Finset.mem_coe.2 (mem_loadPages.2
          ⟨_, List.mem_cons_self, htype, Finset.mem_coe.1 hv⟩)
      · rcases List.mem_cons.1 hmem with rfl | hmem
        · exact hseg.mono hw' hu' fun v hv => hl.userAddr (hp.pages hv)
        · exact (hsegs h hmem ht).base hw (hpending h (List.mem_cons_of_mem _ hmem) ht)
    · rw [if_pos htype]
      obtain ⟨hw, hu, hsegs⟩ := ih (show hs.length ≤ fuel by omega) hl heph'
        (fun i h hi => hnext i ▸ hhdr (i + 1) h hi)
        (fun h hmem => hpending h (List.mem_cons_of_mem _ hmem)) hdisjoint
      refine ⟨hw.mono hsub, hu, fun h hmem ht => ?_⟩
      rcases List.mem_cons.1 hmem with rfl | hmem
      · exact absurd ht htype
      · exact hsegs h hmem ht

/-- The program headers of an executable. -/
def proghdrs (s : Vmm) (exe : BitVec 32) : List Proghdr :=
  (List.range (s.phnum exe).toNat).map fun i => s.proghdr (s.phdrs exe + BitVec.ofNat 32 (32 * i))

/-- An executable of `size` bytes in memory of the kernel, for which the assertions of `elf_load`
hold, and whose segments can be loaded and have no pages in common. -/
structure Executable (s : Vmm) (exe : BitVec 32) (size : Nat) : Prop where
  buffer : s.KernelBuffer exe size
  magic : s.uint32At exe = elfMagic
  shstrndx : s.shstrndx exe ≠ 0
  strtab : s.shType (exe + s.uint32At (exe + 32)) (s.shstrndx exe) = elfShtStrtab
  headers : (s.uint32At (exe + 28)).toNat + 32 * (s.phnum exe).toNat ≤ size
  loadable : ∀ h ∈ s.proghdrs exe, h.type = elfProgLoad → h.Loadable
  file : ∀ h ∈ s.proghdrs exe, h.type = elfProgLoad → h.offset.toNat + h.filesz.toNat ≤ size
  disjoint : (s.proghdrs exe).Pairwise fun h h' =>
    h.type = elfProgLoad → h'.type = elfProgLoad → Disjoint h.pages h'.pages

/-- A part of a buffer. -/
theorem KernelBuffer.slice (hk : s.KernelBuffer exe size) {o : BitVec 32}
    (ho : o.toNat + n ≤ size) :
    s.KernelBuffer (exe + o) n ∧ (exe + o).toNat = exe.toNat + o.toNat := by
  have hhi := hk.hi
  have hadd : (exe + o).toNat = exe.toNat + o.toNat := by
    rw [vmUserHi] at hhi
    exact toNat_add_of_lt (by omega)
  refine ⟨⟨by omega, fun i hi => ?_⟩, hadd⟩
  rw [hadd, Nat.add_assoc]
  exact hk.outside _ (by omega)

section
variable (hexe : s.Executable exe size) (hs : s.Loading p (loadPages (s.proghdrs exe)))
  (hfresh : ∀ va, UserAddr p va → ¬ Present (s.getPtblEntryByVa p va))
include hexe hs hfresh

/-- The segments of an executable can be loaded for a process that has no pages. -/
theorem Executable.pending (hmem : h ∈ s.proghdrs exe) (ht : h.type = elfProgLoad) :
    s.Pending p (loadPages (s.proghdrs exe)) exe h := by
  have hpages : h.pages ⊆ loadPages (s.proghdrs exe) :=
    fun v hv => mem_loadPages.2 ⟨h, hmem, ht, hv⟩
  have hl := hexe.loadable h hmem ht
  have hfile := hexe.file h hmem ht
  refine ⟨hl, hpages, fun v hv => hfresh _ (hs.userAddr (hpages hv)), (hexe.buffer.slice ?_).1⟩
  have hdiv := Nat.div_add_mod' h.offset.toNat pageSize
  rw [toNat_rounddown, ← hl.offset]
  omega

/-- The loader goes through all headers of an executable. -/
theorem Executable.elfLoad : ∃ s', s.elfLoad p exe = some s' ∧
    s.Widens s' p (loadPages (s.proghdrs exe)) ∧
      ∀ h ∈ s.proghdrs exe, h.type = elfProgLoad → SegmentLoaded s s' p exe h := by
  have hlength : (s.proghdrs exe).length = (s.phnum exe).toNat := by
    rw [proghdrs, List.length_map, List.length_range]
  obtain ⟨hbuffer, hph⟩ := hexe.buffer.slice hexe.headers
  have hhdr : ∀ i h, (s.proghdrs exe)[i]? = some h →
      s.KernelBuffer (s.phdrs exe + BitVec.ofNat 32 (32 * i)) 32 ∧
        s.proghdr (s.phdrs exe + BitVec.ofNat 32 (32 * i)) = h := by
    intro i h hi
    have hlt : i < (s.phnum exe).toNat := hlength ▸ (List.getElem?_eq_some_iff.1 hi).1
    rw [proghdrs, List.getElem?_map, List.getElem?_range hlt] at hi
    exact ⟨(hbuffer.drop (by omega)).take (by omega), Option.some.inj hi⟩
  have heph : (s.phdrs exe + (s.phnum exe).setWidth 32 * 32).toNat =
      (s.phdrs exe).toNat + 32 * (s.proghdrs exe).length := by
    have hhi := hbuffer.hi
    have hnum := (s.phnum exe).isLt
    have hmul : ((s.phnum exe).setWidth 32 * 32 : BitVec 32).toNat = 32 * (s.phnum exe).toNat := by
      generalize s.phnum exe = n at hnum
      bv_omega
    rw [vmUserHi] at hhi
    rw [hlength, ← hmul]
    refine toNat_add_of_lt ?_
    rw [hmul]
    exact lt_of_le_of_lt hhi (by decide)
  obtain ⟨hw, -, hsegs⟩ := Loading.loadHeaders hlength.le hs heph hhdr
    (fun h hmem ht => hexe.pending hs hfresh hmem ht) hexe.disjoint
  refine ⟨_, ?_, hw, hsegs⟩
  rw [Vmm.elfLoad, if_neg (not_not.2 hexe.magic), if_neg hexe.shstrndx,
    if_neg (not_not.2 hexe.strtab)]

end

/-- An address in terms of its page. -/
theorem pageAddr_add_mod (va : BitVec 32) :
    pageAddr (va.toNat / pageSize) + BitVec.ofNat 32 (va.toNat % pageSize) = va := by
  rw [pageAddr, ← BitVec.ofNat_add, Nat.div_add_mod', BitVec.ofNat_toNat, BitVec.setWidth_eq]

/-- The bytes of a segment that is loaded, by address. -/
theorem SegmentLoaded.byte (hseg : SegmentLoaded s₀ s p exe h) (hl : h.Loadable)
    (hva : va.toNat / pageSize ∈ h.pages) : s.user (p, va) =
      some (if va.toNat < h.va.toNat + h.filesz.toNat ∧ h.filesz ≠ 0 then
        s₀.byteAt (exe + h.offset + (va - h.va)) else 0) := by
  have hbyte := hseg.bytes _ hva _ (Nat.mod_lt va.toNat (by decide))
  rw [pageAddr_add_mod] at hbyte
  rw [hbyte, loadedByte, Nat.div_add_mod', hl.toNat_zva]
  have hle := Nat.mul_le_mul_right pageSize (Finset.mem_Ico.1 hva).1
  have hdiv := Nat.div_add_mod' va.toNat pageSize
  have hdist : (va.toNat / pageSize - h.va.toNat / pageSize) * pageSize + va.toNat % pageSize =
      (va - rounddown h.va 4096).toNat := by
    rw [BitVec.toNat_sub_of_le (BitVec.le_def.2 ?_), toNat_rounddown, Nat.sub_mul]
    · omega
    · rw [toNat_rounddown]
      omega
  have hmod : h.offset % 4096 = h.va % 4096 := BitVec.eq_of_toNat_eq hl.offset
  have haddr : fileAddr exe h (va.toNat / pageSize) + BitVec.ofNat 32 (va.toNat % pageSize) =
      exe + h.offset + (va - h.va) := by
    rw [fileAddr, BitVec.add_assoc _ (BitVec.ofNat 32 _), ← BitVec.ofNat_add, hdist,
      BitVec.ofNat_toNat, BitVec.setWidth_eq, rounddown, rounddown, hmod]
    grind
  rw [haddr]

/-- The addresses of the pages of a segment. -/
theorem mem_pages (hl : h.Loadable) : va.toNat / pageSize ∈ h.pages ↔
    (rounddown h.va 4096).toNat ≤ va.toNat ∧ va.toNat < (roundup (h.va + h.memsz) 4096).toNat := by
  rw [Proghdr.pages, Finset.mem_Ico, toNat_rounddown, hl.toNat_eva,
    Nat.le_div_iff_mul_le (by decide), Nat.div_lt_iff_lt_mul (by decide)]

end Vmm

/-- **`elf_load` builds the image of a program.** For an executable whose segments can be loaded
and have no pages in common, and a process without pages that can have those of the segments: the
bytes of each segment are those of the file, followed by zeros up to the end of its last page; its
pages may be written if the segment may; and no other user page is mapped. -/
theorem elfLoad_image {s : Vmm} (hs : s.Isolated) {p : Nat} (hproc : p ≠ 0 ∧ p < numIds)
    {exe : BitVec 32} {size : Nat} (hexe : s.Executable exe size)
    (hfresh : ∀ va, UserAddr p va → ¬ Present (s.getPtblEntryByVa p va))
    (hquota : s.mem.Affords p (s.pagesFor p (Vmm.loadPages (s.proghdrs exe)))) :
    ∃ s', s.elfLoad p exe = some s' ∧
      (∀ h ∈ s.proghdrs exe, h.type = elfProgLoad →
        (∀ i < h.filesz.toNat, s'.user (p, h.va + BitVec.ofNat 32 i) =
          some (s.byteAt (exe + h.offset + BitVec.ofNat 32 i))) ∧
        (∀ va : BitVec 32, h.va.toNat + h.filesz.toNat ≤ va.toNat →
          va.toNat < (roundup (h.va + h.memsz) 4096).toNat → s'.user (p, va) = some 0) ∧
        ∀ va : BitVec 32, (rounddown h.va 4096).toNat ≤ va.toNat →
          va.toNat < (roundup (h.va + h.memsz) 4096).toNat → Present (s'.getPtblEntryByVa p va) ∧
            (s'.getPtblEntryByVa p va &&& 2 ≠ 0 ↔ h.flags &&& elfProgFlagWrite ≠ 0)) ∧
      ∀ va, UserAddr p va →
        (∀ h ∈ s.proghdrs exe, h.type = elfProgLoad → ¬ ((rounddown h.va 4096).toNat ≤ va.toNat ∧
          va.toNat < (roundup (h.va + h.memsz) 4096).toNat)) →
        ¬ Present (s'.getPtblEntryByVa p va) := by
  have hloading : s.Loading p (Vmm.loadPages (s.proghdrs exe)) := by
    refine ⟨hs, hproc, fun v hv => ?_, hquota⟩
    obtain ⟨h, hmem, ht, hv⟩ := Vmm.mem_loadPages.1 hv
    exact (hexe.loadable h hmem ht).user hv
  obtain ⟨s', heq, hw, hsegs⟩ := hexe.elfLoad hloading hfresh
  refine ⟨s', heq, fun h hmem ht => ?_, fun va hu hout => ?_⟩
  · have hl := hexe.loadable h hmem ht
    have hseg := hsegs h hmem ht
    have hle := hl.filesz
    have hend := hl.toNat_eva
    have hlo := Vmm.toNat_rounddown h.va
    have hlo' := Nat.div_mul_le_self h.va.toNat pageSize
    have hend' : h.va.toNat + h.memsz.toNat ≤ (roundup (h.va + h.memsz) 4096).toNat := by
      rw [hend, pageSize]
      omega
    refine ⟨fun i hi => ?_, fun va h1 h2 => ?_, fun va h1 h2 => ?_⟩
    · have hva : (h.va + BitVec.ofNat 32 i).toNat = h.va.toNat + i := by
        have hhi := hl.hi
        rw [vmUserHi] at hhi
        rw [BitVec.toNat_add, BitVec.toNat_ofNat, Nat.mod_eq_of_lt (show i < 2 ^ 32 by omega),
          Nat.mod_eq_of_lt (by omega)]
      have hne : h.filesz ≠ 0 := fun h0 => by
        rw [h0] at hi
        exact absurd hi (Nat.not_lt_zero i)
      rw [hseg.byte hl ((Vmm.mem_pages hl).2 ⟨by omega, by omega⟩), if_pos ⟨by omega, hne⟩,
        BitVec.add_comm h.va, BitVec.add_sub_cancel]
    · rw [hseg.byte hl ((Vmm.mem_pages hl).2 ⟨by omega, h2⟩), if_neg fun hc => by omega]
    · obtain ⟨-, hperm, hwrite⟩ := h.perm_spec
      obtain ⟨page, hentry⟩ := hseg.entry _ ((Vmm.mem_pages hl).2 ⟨h1, h2⟩)
      rw [(Vmm.entry_pageAddr s' p va).1] at hentry
      rw [hentry, Vmm.pageEntry_and page h.perm (by decide : (2 : BitVec 32).toNat < 4096)]
      exact ⟨Vmm.present_of_perm hperm page, hwrite⟩
  · rw [hw.entry p va hu (.inr fun hc => ?_)]
    · exact hfresh va hu
    · obtain ⟨h, hmem, ht, hv⟩ := Vmm.mem_loadPages.1 (Finset.mem_coe.1 hc.2)
      exact hout h hmem ht ((Vmm.mem_pages (hexe.loadable h hmem ht)).1 hv)

/-- A program with three program headers. The first is for a segment of a complete page, 4 bytes of
the next page and 4 zeros. The second is not for a segment, and the third is for a page of zeros,
which may be written. The segments are in the file from offset 4096 on. -/
def elfWord (j : Nat) : BitVec 32 :=
  match j with
  | 0 => elfMagic
  | 7 => 52
  | 8 => 256
  | 11 => 0x00280003
  | 12 => 0x00010002
  -- the first program header
  | 13 => elfProgLoad
  | 14 => 4096
  | 15 => 0x40000000
  | 17 => 4100
  | 18 => 4104
  -- the third program header
  | 29 => elfProgLoad
  | 31 => 0x40002000
  | 34 => 4096
  | 35 => elfProgFlagWrite
  -- the type of the section with the names
  | 75 => elfShtStrtab
  | _ => 0

/-- The program is in memory from page 4096 on. -/
def elfVmm : Vmm := childPages 4 fun page j => if page = 4096 then elfWord j else 0x64636261

theorem proghdrs_elfVmm : elfVmm.proghdrs 0x1000000 =
    [⟨elfProgLoad, 4096, 0x40000000, 4100, 4104, 0⟩, ⟨0, 0, 0, 0, 0, 0⟩,
      ⟨elfProgLoad, 0, 0x40002000, 0, 4096, elfProgFlagWrite⟩] := by decide +kernel

theorem executable_elfVmm : elfVmm.Executable 0x1000000 8196 := by
  refine ⟨⟨by decide, fun i hi => ?_⟩, by decide +kernel, by decide +kernel, by decide +kernel,
    by decide +kernel, ?_, ?_, ?_⟩
  · have hnormal : elfVmm.mem.table.normal = Finset.Ico 0x40000 0x40004 := normal_childPages _ _
    have hnat : (0x1000000 : BitVec 32).toNat = 0x1000000 := by decide
    rw [hnormal, hnat, Finset.mem_Ico, pageSize]
    omega
  all_goals rw [proghdrs_elfVmm]
  · simp only [List.forall_mem_cons]
    exact ⟨fun _ => ⟨by decide, by decide, by decide, by decide⟩, nofun,
      fun _ => ⟨by decide, by decide, by decide, by decide⟩, nofun⟩
  · decide
  · decide

/-- Process 1 has no pages, and gets a page table and the pages of the two segments, of which it
may write the last one. -/
theorem elfLoad_segments : ∃ s', elfVmm.elfLoad 1 0x1000000 = some s' ∧
    s'.user (1, 0x40000000) = some 0x61 ∧ s'.user (1, 0x40001003) = some 0x64 ∧
    s'.user (1, 0x40001004) = some 0 ∧ s'.user (1, 0x40002fff) = some 0 ∧
    s'.getPtblEntryByVa 1 0x40001000 &&& 2 = 0 ∧ s'.getPtblEntryByVa 1 0x40002000 &&& 2 ≠ 0 ∧
    ¬ Present (s'.getPtblEntryByVa 1 0x40003000) := by
  have hfresh : ∀ va, UserAddr 1 va → ¬ Present (elfVmm.getPtblEntryByVa 1 va) := by
    intro va hu
    have hpdir : elfVmm.getPdirEntry 1 (pdeAddr va) = 0 :=
      @Vmm.pdir_init fourPages 0 (fun _ _ => 0) _ _ hu.slot
    rw [Vmm.getPtblEntryByVa, hpdir, if_neg fun h => h rfl]
    decide
  have hs : elfVmm.Isolated := isolated_childPages _ _
  obtain ⟨s', heq, hsegs, hother⟩ := elfLoad_image hs (by decide) executable_elfVmm hfresh
    ((affords_childPages 4 _ (by decide)).mono (by decide +kernel))
  rw [proghdrs_elfVmm] at hsegs hother
  obtain ⟨hfile, hzero, hpages⟩ := hsegs _ List.mem_cons_self rfl
  obtain ⟨-, hbss, hwrite⟩ := hsegs _ (.tail _ (.tail _ (.head _))) rfl
  have hfirst : elfVmm.byteAt (0x1000000 + 4096 + BitVec.ofNat 32 0) = 0x61 := by decide +kernel
  have hlast : elfVmm.byteAt (0x1000000 + 4096 + BitVec.ofNat 32 4099) = 0x64 := by decide +kernel
  refine ⟨s', heq, hfirst ▸ hfile 0 (by decide), hlast ▸ hfile 4099 (by decide),
    hzero _ (by decide) (by decide), hbss _ (by decide) (by decide), ?_,
    (hwrite _ (by decide) (by decide)).2.2 (by decide), ?_⟩
  · exact not_not.1 fun hw => (hpages _ (by decide) (by decide)).2.1 hw (by decide)
  · refine hother _ (by decide) ?_
    simp only [List.forall_mem_cons]
    exact ⟨fun _ => by decide, fun hl => absurd hl (by decide), fun _ => by decide,
      List.forall_mem_nil _⟩

end MCertikos
