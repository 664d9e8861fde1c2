import MCertikos.Mem.RoundTrip

/-!
# Reading a line from the console

`sys_readline` reads a line into the buffer `linebuf` of the console and copies it to the caller's
buffer (`kern/trap/TSyscall/TSyscall.c`, `kern/dev/console.c`). The buffer of the console is in
physical memory, like the user's pages; `keys` are the characters that are typed.

`typedLine` is the line as the console shows it, with the characters that were deleted left out.
The call stores as many characters of it as the caller's buffer has bytes, and a NUL behind them
(`Vmm.sysReadlineFrom_eq`). So it keeps to the buffer exactly if the line is shorter than the
buffer, and the buffer is at user addresses where the process can have pages for the line
(`sysReadlineFrom_stores_line`).
-/

namespace MCertikos

open Memory

/-! ## The console -/

namespace Vmm

/-- The loop of `readline` with `i` characters in the buffer. The first key is what `getchar`
returns, unless it is 0; there is no result as long as the line is not finished. The pointer that
is returned is 0 after a read error. The type `char` is signed. Reference: `readline`
(`kern/dev/console.c:87`). -/
def readline (linebuf : BitVec 32) : Vmm →
    (i : Nat) → List (BitVec 8) → Option (Vmm × BitVec 32 × List (BitVec 8))
  | _, _, [] => none
  | s, i, c :: keys =>
    if c = 0 then readline linebuf s i keys
    else if c.toInt < 0 then some (s, 0, keys)
    else if (c = 0x08 ∨ c = 0x7f) ∧ 0 < i then readline linebuf s (i - 1) keys
    else if 0x20 ≤ c.toInt ∧ i < readlineBuflen - 1 then
      readline linebuf (s.putByte (linebuf + BitVec.ofNat 32 i) c) (i + 1) keys
    else if c = 0x0a ∨ c = 0x0d then
      some (s.putByte (linebuf + BitVec.ofNat 32 i) 0, linebuf, keys)
    else readline linebuf s i keys

/-- Reference: `strnlen` (`kern/lib/string.c:69`). -/
def strnlen (s : Vmm) (a : BitVec 32) : (size : Nat) → Nat
  | 0 => 0
  | size + 1 => if s.byteAt a ≠ 0 then strnlen s (a + 1) size + 1 else 0

end Vmm

/-! ## The call -/

/-- What `sys_readline` returns: `E_INVAL_ADDR`, `E_MEM`, or `E_SUCC` with the number of bytes. -/
inductive ReadlineRet where
  | invalAddr
  | mem
  | succ (retval1 : Nat)
  deriving DecidableEq

namespace Vmm

/-- The test of `sys_readline` (`kern/trap/TSyscall/TSyscall.c:65`). -/
def AcceptsLine (line len : BitVec 32) : Prop :=
  (vmUserLo ≤ line.toNat ∧ (line + len).toNat ≤ vmUserHi) ∧ len.toNat < readlineBuflen

/-- The end of `sys_readline`, after the line has been read to `buf`
(`kern/trap/TSyscall/TSyscall.c:75`). -/
def readlineCopy (s : Vmm) (p : Nat) (buf line len : BitVec 32) : Vmm × ReadlineRet :=
  let len := min (s.strnlen buf (readlineBuflen - 1)) len.toNat
  let s := s.putByte (buf + BitVec.ofNat 32 len) 0
  let r := s.ptCopyoutFrom p buf line (BitVec.ofNat 32 (len + 1))
  if 0 < len ∧ r.2 = 0 then (r.1, .mem) else (r.1, .succ r.2)

/-- The call with the buffer of the console in physical memory. Reference: `sys_readline`
(`kern/trap/TSyscall/TSyscall.c:60`). -/
def sysReadlineFrom (s : Vmm) (p : Nat) (linebuf line len : BitVec 32) (keys : List (BitVec 8)) :
    Option (Vmm × ReadlineRet × List (BitVec 8)) :=
  if ¬ (vmUserLo ≤ line.toNat ∧ (line + len).toNat ≤ vmUserHi) ∨ readlineBuflen ≤ len.toNat then
    some (s, .invalAddr, keys)
  else
    match readline linebuf s 0 keys with
    | none => none
    | some (s, buf, keys) =>
      some ((s.readlineCopy p buf line len).1, (s.readlineCopy p buf line len).2, keys)

end Vmm

/-! ## The line that is typed -/

/-- A character is typed: backspace and delete take the last one away, and the line holds at most
`BUFLEN - 1`. -/
def editLine (text : List (BitVec 8)) (c : BitVec 8) : List (BitVec 8) :=
  if (c = 0x08 ∨ c = 0x7f) ∧ 0 < text.length then text.dropLast
  else if 0x20 ≤ c.toInt ∧ text.length < readlineBuflen - 1 then text ++ [c]
  else text

/-- The line as the console shows it. -/
def typedLine (keys : List (BitVec 8)) : List (BitVec 8) := keys.foldl editLine []

/-- A character that neither ends the line nor is a read error. -/
structure IsKey (c : BitVec 8) : Prop where
  nonneg : ¬ c.toInt < 0
  notLf : c ≠ 0x0a
  notCr : c ≠ 0x0d

instance (c : BitVec 8) : Decidable (IsKey c) :=
  decidable_of_iff (¬ c.toInt < 0 ∧ c ≠ 0x0a ∧ c ≠ 0x0d)
    ⟨fun h => ⟨h.1, h.2.1, h.2.2⟩, fun h => ⟨h.nonneg, h.notLf, h.notCr⟩⟩

/-- The two characters that end a line. -/
def IsEol (c : BitVec 8) : Prop := c = 0x0a ∨ c = 0x0d

theorem editLine_zero (text : List (BitVec 8)) : editLine text 0 = text := by
  have hdel : ¬ ((0 : BitVec 8) = 0x08 ∨ (0 : BitVec 8) = 0x7f) := by decide
  have hspace : ¬ 0x20 ≤ (0 : BitVec 8).toInt := by decide
  rw [editLine, if_neg fun h => hdel h.1, if_neg fun h => hspace h.1]

/-- A character that ends a line is none of the others. -/
theorem IsEol.control {c : BitVec 8} (h : IsEol c) :
    c ≠ 0 ∧ ¬ c.toInt < 0 ∧ ¬ (c = 0x08 ∨ c = 0x7f) ∧ ¬ 0x20 ≤ c.toInt := by
  rcases h with rfl | rfl <;> decide

namespace Vmm

variable {s s₀ s' : Vmm} {p i n len : Nat} {kva linebuf line : BitVec 32} {b c eol : BitVec 8}
  {text keys rest l : List (BitVec 8)}

/-! ## Bytes of a kernel buffer -/

theorem SameOn.refl {P : Finset Nat} : SameOn P s s := ⟨rfl, rfl, fun _ _ => rfl⟩

/-- A byte is stored in a buffer of the kernel. -/
theorem SameOn.putByte {P : Finset Nat} (h : SameOn P s s') (hout : kva.toNat / pageSize ∉ P) :
    SameOn P s (s'.putByte kva b) := by
  refine h.putKernel (l := [b]) fun i hi => ?_
  rw [Nat.lt_one_iff.1 hi, BitVec.add_zero]
  exact hout

/-- What the processes see does not depend on the kernel's pages. -/
theorem SameOn.user (h : SameOn s.mem.table.normal s s') (hs : s.Isolated) : s'.user = s.user := by
  obtain ⟨-, hentry⟩ := h.isolated hs subset_rfl
  have hpa : s'.userPa = s.userPa := by
    funext x
    by_cases hu : UserAddr x.1 x.2
    · rw [userPa, userPa, hentry x.1 x.2 hu]
    · rw [userPa, userPa, if_neg fun hc => hu hc.1, if_neg fun hc => hu hc.1]
  funext x
  rw [Vmm.user, Vmm.user, view, view, hpa]
  cases hx : s.userPa x with
  | none => rfl
  | some pa => exact congrArg some (byteAt_congr (h.word _ (hs.page_mem_normal hx)))

theorem KernelBuffer.bytesAt_putByte (hk : s.KernelBuffer kva len) (hi : i < len) :
    (s.putByte (kva + BitVec.ofNat 32 i) b).bytesAt kva (i + 1) = s.bytesAt kva i ++ [b] := by
  rw [Vmm.bytesAt, List.range_succ, List.map_append, List.map_singleton, byteAt_putByte,
    Function.update_self, Vmm.bytesAt]
  refine congrArg (· ++ [b]) (List.map_congr_left fun j hj =>
    Function.update_of_ne (fun heq => ?_) _ _)
  have hj := List.mem_range.1 hj
  have := congrArg BitVec.toNat heq
  rw [hk.toNat_add (by omega), hk.toNat_add hi.le] at this
  omega

/-! ## The loop -/

/-- The buffer holds the text. -/
structure LineAt (s : Vmm) (linebuf : BitVec 32) (text : List (BitVec 8)) : Prop where
  bytes : s.bytesAt linebuf text.length = text
  short : text.length < readlineBuflen
  chars : ∀ c ∈ text, c ≠ 0

namespace LineAt

theorem nil : s.LineAt linebuf [] := ⟨rfl, by decide, fun _ h => absurd h List.not_mem_nil⟩

theorem dropLast (h : s.LineAt linebuf text) : s.LineAt linebuf text.dropLast := by
  refine ⟨?_, ?_, fun c hc => h.chars c (List.dropLast_subset _ hc)⟩
  · conv_rhs => rw [← h.bytes, List.dropLast_eq_take, length_bytesAt,
      take_bytesAt _ _ (Nat.sub_le _ _)]
    rw [List.length_dropLast]
  · rw [List.length_dropLast]
    exact (Nat.sub_le _ _).trans_lt h.short

theorem snoc (h : s.LineAt linebuf text) (hk : s.KernelBuffer linebuf readlineBuflen)
    (hroom : text.length < readlineBuflen - 1) (hc : 0x20 ≤ c.toInt) :
    (s.putByte (linebuf + BitVec.ofNat 32 text.length) c).LineAt linebuf (text ++ [c]) := by
  refine ⟨?_, ?_, fun c' hc' => ?_⟩
  · rw [List.length_append, List.length_singleton, hk.bytesAt_putByte h.short, h.bytes]
  · rw [List.length_append, List.length_singleton]
    omega
  · rcases List.mem_append.1 hc' with hmem | hmem
    · exact h.chars c' hmem
    · rintro rfl
      rw [← List.mem_singleton.1 hmem] at hc
      exact absurd hc (by decide)

theorem putByte (h : s.LineAt linebuf text) (hk : s.KernelBuffer linebuf readlineBuflen) :
    (s.putByte (linebuf + BitVec.ofNat 32 text.length) b).LineAt linebuf text := by
  refine ⟨?_, h.short, h.chars⟩
  rw [← take_bytesAt _ _ (Nat.le_succ text.length), hk.bytesAt_putByte h.short, h.bytes,
    List.take_left']
  rfl

end LineAt

/-- The loop of `readline` keeps the line that is typed in the buffer, and puts a NUL behind it at
the end. -/
theorem readline_keys (hk : s₀.KernelBuffer linebuf readlineBuflen)
    (hsame : SameOn s₀.mem.table.normal s₀ s) (hline : s.LineAt linebuf text)
    (hkeys : ∀ c ∈ keys, IsKey c) (heol : IsEol eol) :
    ∃ s', readline linebuf s text.length (keys ++ eol :: rest) = some (s', linebuf, rest) ∧
      SameOn s₀.mem.table.normal s₀ s' ∧ s'.LineAt linebuf (keys.foldl editLine text) ∧
      s'.bytesAt linebuf ((keys.foldl editLine text).length + 1) =
      keys.foldl editLine text ++ [0] := by
  have hout : ∀ {i}, i < readlineBuflen →
      (linebuf + BitVec.ofNat 32 i).toNat / pageSize ∉ s₀.mem.table.normal :=
    fun hi => hk.notMem hi
  induction keys generalizing s text with
  | nil =>
    have hbuf : s.KernelBuffer linebuf readlineBuflen := hk.congr (hsame.mem ▸ rfl)
    have hend : readline linebuf s text.length (eol :: rest) =
        some (s.putByte (linebuf + BitVec.ofNat 32 text.length) 0, linebuf, rest) := by
      obtain ⟨hzero, hneg, hdel, hspace⟩ := heol.control
      rw [readline, if_neg hzero, if_neg hneg, if_neg fun h => hdel h.1,
        if_neg fun h => hspace h.1]
      exact if_pos heol
    refine ⟨_, hend, hsame.putByte (hout hline.short), hline.putByte hbuf, ?_⟩
    rw [List.foldl_nil, hbuf.bytesAt_putByte hline.short, hline.bytes]
  | cons c keys ih =>
    obtain ⟨hkey, hkeys⟩ := List.forall_mem_cons.1 hkeys
    have hbuf : s.KernelBuffer linebuf readlineBuflen := hk.congr (hsame.mem ▸ rfl)
    rw [List.cons_append, readline, List.foldl_cons]
    by_cases h0 : c = 0
    · rw [if_pos h0, h0, editLine_zero]
      exact ih hsame hline hkeys
    rw [if_neg h0, if_neg hkey.nonneg, editLine]
    by_cases hdel : (c = 0x08 ∨ c = 0x7f) ∧ 0 < text.length
    · rw [if_pos hdel, if_pos hdel, ← List.length_dropLast]
      exact ih hsame hline.dropLast hkeys
    rw [if_neg hdel, if_neg hdel]
    by_cases hput : 0x20 ≤ c.toInt ∧ text.length < readlineBuflen - 1
    · have hsnoc := hline.snoc hbuf hput.2 hput.1
      have hnext := ih (hsame.putByte (hout hline.short)) hsnoc hkeys
      rw [List.length_append, List.length_singleton] at hnext
      rw [if_pos hput, if_pos hput]
      exact hnext
    · rw [if_neg hput, if_neg hput, if_neg fun heol => heol.elim hkey.notLf hkey.notCr]
      exact ih hsame hline hkeys

/-! ## The copy -/

theorem bytesAt_succ (s : Vmm) (a : BitVec 32) (n : Nat) :
    s.bytesAt a (n + 1) = s.byteAt a :: s.bytesAt (a + 1) n := by
  rw [bytesAt, List.range_succ_eq_map, List.map_cons, List.map_map, BitVec.add_zero, bytesAt]
  refine congrArg _ (List.map_congr_left fun i _ => congrArg s.byteAt ?_)
  rw [Nat.succ_eq_add_one, ← add_ofNat_succ, BitVec.add_assoc, BitVec.add_assoc, BitVec.add_comm 1]

/-- `strnlen` of a string in memory. -/
theorem strnlen_eq (hbytes : s.bytesAt kva (text.length + 1) = text ++ [0])
    (hchars : ∀ c ∈ text, c ≠ 0) (hle : text.length ≤ n) : s.strnlen kva n = text.length := by
  induction text generalizing kva n with
  | nil =>
    rw [List.length_nil, bytesAt_succ] at hbytes
    cases n with
    | zero => rfl
    | succ n => rw [strnlen, if_neg (not_not.2 (List.cons.inj hbytes).1), List.length_nil]
  | cons c text ih =>
    rw [List.length_cons, bytesAt_succ, List.cons_append] at hbytes
    obtain ⟨hc, hbytes⟩ := List.cons.inj hbytes
    obtain ⟨hne, hchars⟩ := List.forall_mem_cons.1 hchars
    rw [List.length_cons] at hle ⊢
    cases n with
    | zero => omega
    | succ n => rw [strnlen, if_pos (hc ▸ hne), ih hbytes hchars (by omega)]

/-- The end of the call copies what the buffer holds before the NUL. -/
theorem Ready.readlineCopy {W : Finset Nat} {buf len : BitVec 32}
    (hn : min (s.strnlen buf (readlineBuflen - 1)) len.toNat = n) (h : s.Ready p W line (n + 1))
    (hk : s.KernelBuffer buf (n + 1)) :
    (s.readlineCopy p buf line len).2 = .succ (n + 1) ∧
      Memory.Extends (write nextAddr s.user (p, line) ((s.bytesAt buf n ++ [0]).map some))
        (s.readlineCopy p buf line len).1.user := by
  have hlt : n + 1 < 2 ^ 32 := by
    have := h.hi
    rw [vmUserHi] at this
    omega
  have hlen : (BitVec.ofNat 32 (n + 1)).toNat = n + 1 := by
    rw [BitVec.toNat_ofNat, Nat.mod_eq_of_lt hlt]
  have hsame : SameOn s.mem.table.normal s (s.putByte (buf + BitVec.ofNat 32 n) 0) :=
    SameOn.refl.putByte (hk.notMem (Nat.lt_succ_self n))
  obtain ⟨hisolated, hentry⟩ := hsame.isolated h.isolated subset_rfl
  have hready := h.congr hisolated hsame.mem hsame.pdir hentry
  rw [← hlen] at hready
  have hk' : (s.putByte (buf + BitVec.ofNat 32 n) 0).KernelBuffer
      buf (BitVec.ofNat 32 (n + 1)).toNat :=
    hlen.symm ▸ hk.congr (hsame.mem ▸ rfl)
  obtain ⟨hcount, -, hextends, -⟩ := hready.ptCopyoutFrom hk'
  rw [hsame.user h.isolated, hlen, hk.bytesAt_putByte (Nat.lt_succ_self n)] at hextends
  rw [hlen] at hcount
  rw [Vmm.readlineCopy, hn, if_neg fun hc => by rw [hcount] at hc; omega, hcount]
  exact ⟨rfl, hextends⟩

/-! ## The result -/

/-- After the line has been read, what is left of the call is the copy. -/
theorem sysReadlineFrom_keys {len : BitVec 32} (hbuf : s.KernelBuffer linebuf readlineBuflen)
    (hkeys : ∀ c ∈ keys, IsKey c) (heol : IsEol eol) (haccepted : AcceptsLine line len) :
    ∃ s', s.sysReadlineFrom p linebuf line len (keys ++ eol :: rest) =
        some ((s'.readlineCopy p linebuf line len).1,
          (s'.readlineCopy p linebuf line len).2, rest) ∧
      SameOn s.mem.table.normal s s' ∧ s'.LineAt linebuf (typedLine keys) ∧
      s'.strnlen linebuf (readlineBuflen - 1) = (typedLine keys).length := by
  have hnil : s.LineAt linebuf [] := .nil
  obtain ⟨s', hread, hsame, hline, hbytes⟩ : ∃ s',
      readline linebuf s 0 (keys ++ eol :: rest) = some (s', linebuf, rest) ∧
      SameOn s.mem.table.normal s s' ∧ s'.LineAt linebuf (typedLine keys) ∧
      s'.bytesAt linebuf ((typedLine keys).length + 1) = typedLine keys ++ [0] :=
    readline_keys hbuf .refl hnil hkeys heol
  have hshort := hline.short
  have htest : ¬ (¬ (vmUserLo ≤ line.toNat ∧ (line + len).toNat ≤ vmUserHi) ∨
      readlineBuflen ≤ len.toNat) :=
    not_or.2 ⟨not_not.2 haccepted.1, Nat.not_le.2 haccepted.2⟩
  refine ⟨s', ?_, hsame, hline, strnlen_eq hbytes hline.chars (by omega)⟩
  rw [sysReadlineFrom, if_neg htest, hread]

/-- What the call stores: the first `len` characters of the line, and a NUL. -/
theorem sysReadlineFrom_eq {W : Finset Nat} {len : BitVec 32}
    (hbuf : s.KernelBuffer linebuf readlineBuflen) (hkeys : ∀ c ∈ keys, IsKey c) (heol : IsEol eol)
    (haccepted : AcceptsLine line len)
    (h : s.Ready p W line (min (typedLine keys).length len.toNat + 1)) :
    ∃ s', s.sysReadlineFrom p linebuf line len (keys ++ eol :: rest) =
        some (s', .succ (min (typedLine keys).length len.toNat + 1), rest) ∧
      Memory.Extends (write nextAddr s.user (p, line)
        (((typedLine keys).take len.toNat ++ [0]).map some)) s'.user := by
  obtain ⟨s', hcall, hsame, hline, hstrnlen⟩ :=
    @sysReadlineFrom_keys _ p _ _ _ _ rest _ hbuf hkeys heol haccepted
  have hshort := hline.short
  obtain ⟨hisolated, hentry⟩ := hsame.isolated h.isolated subset_rfl
  have hready := h.congr hisolated hsame.mem hsame.pdir hentry
  have hk : s'.KernelBuffer linebuf (min (typedLine keys).length len.toNat + 1) :=
    (hbuf.congr (hsame.mem ▸ rfl)).take (by omega)
  obtain ⟨hret, hextends⟩ := hready.readlineCopy (by rw [hstrnlen]) hk
  -- the text that is copied is the part of the line that the buffer holds
  have htext : s'.bytesAt linebuf (min (typedLine keys).length len.toNat) =
      (typedLine keys).take len.toNat := by
    rw [← take_bytesAt s' linebuf (min_le_left _ _), hline.bytes, List.take_eq_take_iff]
    omega
  rw [hsame.user h.isolated, htext] at hextends
  exact ⟨_, hret ▸ hcall, hextends⟩

/-! ## Copies for which pages are missing -/

/-- Entries that are not present are empty: pages are mapped with the present bit. -/
def Clean (s : Vmm) (p : Nat) : Prop :=
  ∀ va, UserAddr p va → ¬ Present (s.getPtblEntryByVa p va) → s.getPtblEntryByVa p va = 0

theorem Clean.turnEntry (hclean : s.Clean p) (h : s.Isolated) (hu : UserAddr p line)
    (habsent : ¬ Present (s.turnEntry p line)) : s.turnEntry p line = 0 := by
  have hp : ¬ Present (s.getPtblEntryByVa p line) :=
    fun hp => habsent ((present_turnEntry_iff h.ok).2 (.inl hp))
  rw [Vmm.turnEntry, if_neg hp] at habsent ⊢
  rcases allocPage_cases_of_ok h.ok line 7 with ⟨-, hr⟩ | ⟨-, -, hentry⟩
  · exact absurd (allocPage_present hr) habsent
  · rw [hentry]
    exact hclean line hu hp

section
variable (h : s.Isolated) (hclean : s.Clean p) (hu : UserAddr p line)
  (hl : line.toNat % pageSize + l.length ≤ pageSize)
include h hclean hu hl

/-- A turn of `pt_copyout`, whether it has a page or not, leaves the entries as they are when it
accesses memory. -/
theorem Isolated.putTurn :
    ((s.copyTurn p line len).vmm.putBytes (s.copyTurn p line len).pa l).Isolated ∧
      ∀ q va, UserAddr q va →
        ((s.copyTurn p line len).vmm.putBytes (s.copyTurn p line len).pa l).getPtblEntryByVa q va =
          (s.copyTurn p line len).vmm.getPtblEntryByVa q va := by
  have hwidens := (h.widens_copyTurn hu len).1
  by_cases hp : Present (s.turnEntry p line)
  · have hwrite := (hwidens.isolated.user_putBytes (userPa_copyTurn hu hp len) hl).1
    exact ⟨hwrite.isolated, fun q va hq => hwrite.entry q va hq (.inr fun hc => hc.2)⟩
  · -- the bytes go to the first page of physical memory, which is not in the pool
    have hpa : (s.copyTurn p line len).pa.toNat = line.toNat % pageSize := by
      rw [pa_copyTurn, hclean.turnEntry h hu hp]
      exact Nat.zero_add _
    have hsame : SameOn (s.copyTurn p line len).vmm.mem.table.normal (s.copyTurn p line len).vmm
        ((s.copyTurn p line len).vmm.putBytes (s.copyTurn p line len).pa l) := by
      refine SameOn.refl.putKernel fun i hi hmem => ?_
      rw [toNat_add_of_page (by rw [hpa, Nat.mod_mod]; omega), hpa, Nat.div_eq_of_lt (by omega)]
        at hmem
      obtain ⟨hlo, -⟩ := hwidens.isolated.ok.norm _ (hwidens.isolated.ok.mem_normal.1 hmem)
      exact absurd hlo (by decide)
    exact hsame.isolated hwidens.isolated subset_rfl

theorem Isolated.clean_putTurn :
    ((s.copyTurn p line len).vmm.putBytes (s.copyTurn p line len).pa l).Clean p := by
  intro va hva habsent
  rw [(h.putTurn hclean hu hl).2 p va hva] at habsent ⊢
  by_cases hpage : va.toNat / pageSize = line.toNat / pageSize
  · have hsame := addr_eq_iff.2 hpage
    have hentry : (s.copyTurn p line len).vmm.getPtblEntryByVa p va = s.turnEntry p line := by
      rw [getPtblEntryByVa, hsame.1, hsame.2]
      exact entry_copyTurn
    rw [hentry] at habsent ⊢
    exact hclean.turnEntry h hu habsent
  · have hold := (h.widens_copyTurn hu len).1.entry p va hva (.inr fun hc => hpage hc.2)
    rw [hold] at habsent ⊢
    exact hclean va hva habsent

end

/-- `pt_copyout` changes entries of its range only, and if they are all present in the end, then
the process could have the pages that were missing. -/
theorem Isolated.copyoutFrom_present (hproc : p ≠ 0 ∧ p < numIds) :
    ∀ (fuel : Nat) {s : Vmm} {kva line : BitVec 32} {len : Nat}, len ≤ fuel → s.Isolated →
    s.Clean p → vmUserLo ≤ line.toNat → line.toNat + len ≤ vmUserHi →
    (∀ va, UserAddr p va → va.toNat / pageSize ∉ vpages line.toNat len →
      (copyoutFromLoop p fuel s kva line len).1.getPtblEntryByVa p va = s.getPtblEntryByVa p va) ∧
    ((∀ i < len, Present
      ((copyoutFromLoop p fuel s kva line len).1.getPtblEntryByVa p (line + BitVec.ofNat 32 i))) →
      s.mem.Affords p (s.pagesFor p (vpages line.toNat len)))
  | 0, s, kva, line, len, hfuel, h, _, _, _ => by
    obtain rfl : len = 0 := Nat.le_zero.1 hfuel
    exact ⟨fun _ _ _ => rfl, fun _ => Mem.affords_zero h.ok⟩
  | fuel + 1, s, kva, line, len, hfuel, h, hclean, hlo, hhi => by
    by_cases h0 : len = 0
    · subst h0
      exact ⟨fun _ _ _ => rfl, fun _ => Mem.affords_zero h.ok⟩
    have hlen : 0 < len := Nat.pos_of_ne_zero h0
    have hu : UserAddr p line := ⟨hproc.1, hproc.2, by omega⟩
    rw [copyoutFromLoop, if_neg h0]
    dsimp only
    have hsize : 0 < (s.copyTurn p line len).size := size_pos hlen
    have hle : (s.copyTurn p line len).size ≤ len := size_le
    have hnat := toNat_add_ofNat_user hhi hle
    have hl : line.toNat % pageSize +
        ((s.copyTurn p line len).vmm.bytesAt kva (s.copyTurn p line len).size).length ≤
        pageSize := by
      have hmod := Nat.mod_lt line.toNat (by decide : 0 < pageSize)
      rw [length_bytesAt, size_copyTurn]
      omega
    obtain ⟨hisolated, hentry⟩ := @Isolated.putTurn _ _ len _ _ h hclean hu hl
    obtain ⟨hmem, hpdir, -⟩ :=
      @putBytes_frame (s.copyTurn p line len).vmm (s.copyTurn p line len).pa
        ((s.copyTurn p line len).vmm.bytesAt kva (s.copyTurn p line len).size)
    obtain ⟨hframe, haffords⟩ :=
      @copyoutFrom_present hproc fuel _ (kva + BitVec.ofNat 32 (s.copyTurn p line len).size)
        (line + BitVec.ofNat 32 (s.copyTurn p line len).size)
        (len - (s.copyTurn p line len).size) (by omega)
      hisolated (h.clean_putTurn hclean hu hl) (by omega) (by omega)
    have hpages : vpages line.toNat len = insert (line.toNat / pageSize)
        (vpages (line + BitVec.ofNat 32 (s.copyTurn p line len).size).toNat
          (len - (s.copyTurn p line len).size)) := by
      rw [vpages_eq_insert hlen, hnat, size_copyTurn]
    refine ⟨fun va hva hout => ?_, fun hpresent => ?_⟩
    · rw [hpages, Finset.mem_insert, not_or] at hout
      rw [hframe va hva hout.2, hentry p va hva]
      exact (h.widens_copyTurn hu len).1.entry p va hva (.inr fun hc => hout.1 hc.2)
    · -- the page of the first turn is not in the rest of the range, so it was present when memory
      -- was accessed
      have hout : line.toNat / pageSize ∉ vpages
        (line + BitVec.ofNat 32 (s.copyTurn p line len).size).toNat
          (len - (s.copyTurn p line len).size) := by
        intro hmem
        obtain ⟨i, hi, heq⟩ := mem_vpages.1 hmem
        rw [hnat, size_copyTurn] at heq
        rw [size_copyTurn] at hi
        have hsplit := Nat.div_add_mod line.toNat pageSize
        rw [pageSize] at *
        omega
      have hfirst := hpresent 0 hlen
      rw [BitVec.add_zero, hframe line hu hout, hentry p line hu, entry_copyTurn] at hfirst
      refine (h.firstTurn_iff hproc hlen hlo hhi).2 ⟨(copyTurn_mapped_iff hlen).2 hfirst, ?_⟩
      have hrest := haffords fun i hi => by
        have := hpresent ((s.copyTurn p line len).size + i) (by omega)
        rwa [BitVec.ofNat_add, ← BitVec.add_assoc] at this
      rw [hmem, pagesFor_congr (fun v hv =>
        hentry p _ (userAddr_vpages hproc (by omega) (by omega) hv)) hpdir] at hrest
      exact hrest

theorem copyoutFromLoop_count :
    ∀ (fuel : Nat) {s : Vmm} {kva line : BitVec 32} {len : Nat}, len ≤ fuel →
    (copyoutFromLoop p fuel s kva line len).2 = len
  | 0, s, kva, line, len, hfuel => (Nat.le_zero.1 hfuel).symm
  | fuel + 1, s, kva, line, len, hfuel => by
    rw [copyoutFromLoop]
    by_cases h0 : len = 0
    · rw [if_pos h0, h0]
    have hsize : 0 < (s.copyTurn p line len).size := size_pos (Nat.pos_of_ne_zero h0)
    have hle : (s.copyTurn p line len).size ≤ len := size_le
    rw [if_neg h0]
    dsimp only
    rw [copyoutFromLoop_count fuel (by omega)]
    omega

/-- The result of the end of the call, with `n` characters before the NUL. -/
theorem readlineCopy_ret {buf len : BitVec 32}
    (hn : min (s.strnlen buf (readlineBuflen - 1)) len.toNat = n) (hlt : n < readlineBuflen) :
    (s.readlineCopy p buf line len).1 =
        ((s.putByte (buf + BitVec.ofNat 32 n) 0).ptCopyoutFrom p buf line
          (BitVec.ofNat 32 (n + 1))).1 ∧
      (s.readlineCopy p buf line len).2 =
        if copyTest line buf (BitVec.ofNat 32 (n + 1)) then .succ (n + 1) else if 0 < n then .mem
        else .succ 0 := by
  have hnat : (BitVec.ofNat 32 (n + 1)).toNat = n + 1 := by
    rw [readlineBuflen] at hlt
    rw [BitVec.toNat_ofNat, Nat.mod_eq_of_lt (by omega)]
  simp only [readlineCopy, hn, ptCopyoutFrom]
  split
  · rw [copyoutFromLoop_count _ le_rfl, hnat, if_neg (by omega)]
    exact ⟨rfl, rfl⟩
  · by_cases h0 : 0 < n <;> simp [h0]

end Vmm

/-! ## Lines that fit -/

/-- The call stores `n` bytes, not more than the buffer has: the line, cut so that it fits with a
NUL, and the NUL. It changes no other byte that a process sees. -/
def StoresLine (s : Vmm) (p : Nat) (linebuf line len : BitVec 32) (keys : List (BitVec 8))
    (eol : BitVec 8) (rest : List (BitVec 8)) : Prop :=
  ∃ s' n, s.sysReadlineFrom p linebuf line len (keys ++ eol :: rest) = some (s', .succ n, rest) ∧
    n ≤ len.toNat ∧ (0 < len.toNat → n = ((typedLine keys).take (len.toNat - 1)).length + 1 ∧
      ∀ i c, ((typedLine keys).take (len.toNat - 1) ++ [0])[i]? = some c →
        s'.user (p, line + BitVec.ofNat 32 i) = some c) ∧
    ∀ q va b, s.user (q, va) = some b →
    ¬ (q = p ∧ line.toNat ≤ va.toNat ∧ va.toNat < line.toNat + n) →
      s'.user (q, va) = some b

/-- The line is shorter than the buffer, the buffer does not wrap around, and the process can have
the pages that are missing for the line and the NUL; or the buffer is empty and at the end of user
memory, where nothing is stored. -/
def LineFits (s : Vmm) (p : Nat) (line len : BitVec 32) (keys : List (BitVec 8)) : Prop :=
  ((typedLine keys).length < len.toNat ∧ line.toNat + len.toNat ≤ vmUserHi ∧
    s.mem.Affords p (s.pagesFor p (vpages line.toNat ((typedLine keys).length + 1)))) ∨
  len.toNat = 0 ∧ line.toNat = vmUserHi

section
variable {s : Vmm} {p : Nat} {linebuf line len : BitVec 32} {keys rest : List (BitVec 8)}
  {eol : BitVec 8} (h : s.Isolated) (hproc : p ≠ 0 ∧ p < numIds)
  (hbuf : s.KernelBuffer linebuf readlineBuflen) (haccepted : Vmm.AcceptsLine line len)
  (hkeys : ∀ c ∈ keys, IsKey c) (heol : IsEol eol)
include h hproc hbuf haccepted hkeys heol

/-- A line that is shorter than the buffer is stored. -/
theorem storesLine_of_lt (hshort : (typedLine keys).length < len.toNat)
    (hhi : line.toNat + len.toNat ≤ vmUserHi)
    (hquota : s.mem.Affords p (s.pagesFor p (vpages line.toNat ((typedLine keys).length + 1)))) :
    StoresLine s p linebuf line len keys eol rest := by
  have hmin : min (typedLine keys).length len.toNat = (typedLine keys).length :=
    min_eq_left hshort.le
  have hlo := haccepted.1.1
  have hready : s.Ready p (vpages line.toNat ((typedLine keys).length + 1)) line
      (min (typedLine keys).length len.toNat + 1) := by
    rw [hmin]
    have hend : line.toNat + ((typedLine keys).length + 1) ≤ vmUserHi := by omega
    exact ⟨h, hproc, hlo, hend, subset_rfl, fun v hv =>
      Vmm.userAddr_vpages hproc hlo hend hv, hquota⟩
  obtain ⟨s', hcall, hextends⟩ :=
    @Vmm.sysReadlineFrom_eq _ _ _ _ _ _ rest _ _ hbuf hkeys heol haccepted hready
  rw [hmin] at hcall
  rw [List.take_of_length_le hshort.le] at hextends
  have hlength : (typedLine keys ++ [0]).length = (typedLine keys).length + 1 := List.length_append
  obtain ⟨hwritten, hothers⟩ := Vmm.written_user (by rw [vmUserHi] at hhi; omega) hextends
  rw [hlength] at hothers
  refine ⟨s', _, hcall, hshort, fun _ => ?_, hothers⟩
  rw [List.take_of_length_le (by omega)]
  exact ⟨rfl, hwritten⟩

omit hproc in
/-- Nothing is stored in an empty buffer at the end of user memory. -/
theorem storesLine_of_end (hlen : len.toNat = 0) (hend : line.toNat = vmUserHi) :
    StoresLine s p linebuf line len keys eol rest := by
  obtain ⟨s', hcall, hsame, -, hstrnlen⟩ :=
    @Vmm.sysReadlineFrom_keys _ p _ line _ _ rest _ hbuf hkeys heol haccepted
  obtain ⟨hstate, hret⟩ := @Vmm.readlineCopy_ret s' p 0 line linebuf len (by omega) (by decide)
  have htest : ¬ Vmm.copyTest line linebuf (BitVec.ofNat 32 (0 + 1)) := by
    have hsum : (line + BitVec.ofNat 32 (0 + 1)).toNat = vmUserHi + 1 := by
      rw [BitVec.toNat_add, hend]
      rfl
    rw [Vmm.copyTest, decide_eq_true_eq, hsum]
    omega
  rw [if_neg htest, if_neg (Nat.lt_irrefl 0)] at hret
  rw [Vmm.ptCopyoutFrom, if_neg htest] at hstate
  have hsame' := hsame.putByte (b := 0) (hbuf.notMem (by decide : 0 < readlineBuflen))
  refine ⟨_, 0, hret ▸ hcall, Nat.zero_le _, fun hpos => absurd hpos (by omega),
    fun q va b hb _ => ?_⟩
  rw [hstate, hsame'.user h]
  exact hb

/-- If the line is stored, then it fits. -/
theorem StoresLine.lineFits (hclean : s.Clean p)
    (hstores : StoresLine s p linebuf line len keys eol rest) :
    LineFits s p line len keys := by
  obtain ⟨s₁, n, hcall₁, hn, htext, -⟩ := hstores
  obtain ⟨s', hcall, hsame, hline, hstrnlen⟩ :=
    @Vmm.sysReadlineFrom_keys _ p _ line _ _ rest _ hbuf hkeys heol haccepted
  have hshort := hline.short
  obtain ⟨hstate, hret⟩ :=
    @Vmm.readlineCopy_ret s' p (min (typedLine keys).length len.toNat) line linebuf
      len (by rw [hstrnlen]) (by omega)
  rw [hcall, Option.some.injEq, Prod.mk.injEq, Prod.mk.injEq] at hcall₁
  obtain ⟨rfl, hsucc, -⟩ := hcall₁
  rw [hsucc] at hret
  have hsmall : len.toNat < 1024 := haccepted.2
  by_cases htest :
    Vmm.copyTest line linebuf (BitVec.ofNat 32 (min (typedLine keys).length len.toNat + 1))
  case neg =>
    -- the copy was refused: nothing is stored, so the buffer is empty
    rw [if_neg htest] at hret
    split at hret
    · cases hret
    obtain rfl : n = 0 := ReadlineRet.succ.inj hret
    have hzero : len.toNat = 0 := by
      by_contra hne
      exact absurd (htext (Nat.pos_of_ne_zero hne)).1 (by omega)
    refine .inr ⟨hzero, ?_⟩
    by_contra hne
    have hsum : (line + len).toNat = line.toNat := by
      rw [BitVec.toNat_add, hzero, Nat.add_zero, Nat.mod_eq_of_lt line.isLt]
    have hle := haccepted.1.2
    refine htest (Vmm.copyTest_of_le haccepted.1.1 ?_ ?_) <;>
      rw [hzero, Nat.min_zero, show (BitVec.ofNat 32 (0 + 1)).toNat = 1 from rfl]
    · omega
    · exact (Nat.add_le_add_left (by decide) _).trans hbuf.hi
  case pos =>
    rw [if_pos htest] at hret
    obtain rfl : n = _ := ReadlineRet.succ.inj hret
    have hlt : (typedLine keys).length < len.toNat := by omega
    have hmin : min (typedLine keys).length len.toNat = (typedLine keys).length :=
      min_eq_left hlt.le
    rw [hmin] at hstate htest
    have htaken : (typedLine keys).take (len.toNat - 1) = typedLine keys :=
      List.take_of_length_le (by omega)
    have hbytes := (htext (by omega)).2
    rw [htaken] at hbytes
    -- every byte that is stored is in a present page
    have hpresent : ∀ i < (typedLine keys).length + 1, UserAddr p (line + BitVec.ofNat 32 i) ∧
        Present ((s'.readlineCopy p linebuf line len).1.getPtblEntryByVa
          p (line + BitVec.ofNat 32 i)) := by
      intro i hi
      have hget : i < (typedLine keys ++ [0]).length := by rwa [List.length_append]
      obtain ⟨pa, hpa, -⟩ := Option.map_eq_some_iff.1 (hbytes i _ (List.getElem?_eq_getElem hget))
      exact ⟨(Vmm.userPa_eq_some.1 hpa).1, (Vmm.userPa_eq_some.1 hpa).2.1⟩
    have huser := (hpresent 0 (Nat.succ_pos _)).1.2.2
    rw [BitVec.add_zero] at huser
    have hwrap : line.toNat + len.toNat < 2 ^ 32 := by
      have := huser.2
      rw [vmUserHi] at this
      omega
    have hhi : line.toNat + len.toNat ≤ vmUserHi := by
      rw [← Vmm.toNat_add_of_lt hwrap]
      exact haccepted.1.2
    refine .inl ⟨hlt, hhi, ?_⟩
    have hsame' := hsame.putByte (b := 0)
      (hbuf.notMem (show (typedLine keys).length < readlineBuflen by omega))
    obtain ⟨hisolated, hentry⟩ := hsame'.isolated h subset_rfl
    have hnat : (BitVec.ofNat 32 ((typedLine keys).length + 1)).toNat =
        (typedLine keys).length + 1 := by
      rw [BitVec.toNat_ofNat, Nat.mod_eq_of_lt (by omega)]
    rw [Vmm.ptCopyoutFrom, if_pos htest, hnat] at hstate
    have haffords :=
      (Vmm.Isolated.copyoutFrom_present hproc _ le_rfl hisolated (fun va hva habsent => ?_)
        haccepted.1.1 (by omega)).2 (hstate ▸ fun i hi => (hpresent i hi).2)
    · rw [hsame'.mem, Vmm.pagesFor_congr (fun v hv => hentry p _ ?_) hsame'.pdir] at haffords
      · exact haffords
      · exact Vmm.userAddr_vpages hproc haccepted.1.1 (by omega) hv
    · rw [hentry p va hva] at habsent ⊢
      exact hclean va hva habsent

/-- **A line is stored in the caller's buffer, with a NUL behind it**, exactly if it fits: for
every accepted buffer, and every line that is typed and ended. Reference: `sys_readline`
(`kern/trap/TSyscall/TSyscall.c:60`). -/
theorem sysReadlineFrom_stores_line (rest : List (BitVec 8)) :
    (LineFits s p line len keys → StoresLine s p linebuf line len keys eol rest) ∧
      (s.Clean p → StoresLine s p linebuf line len keys eol rest →
        LineFits s p line len keys) := by
  refine ⟨fun hfits => ?_, fun hclean hstores => hstores.lineFits h hproc hbuf haccepted
    hkeys heol hclean⟩
  rcases hfits with ⟨hshort, hhi, hquota⟩ | ⟨hlen, hend⟩
  · exact storesLine_of_lt h hproc hbuf haccepted hkeys heol hshort hhi hquota
  · exact storesLine_of_end h hbuf haccepted hkeys heol hlen hend

end

/-- A character is deleted, and the line goes across a page boundary into a buffer of five
bytes. -/
theorem sysReadlineFrom_stores_line_deleted :
    ∃ s', threeVmm.sysReadlineFrom 1 0x1000000 0x40000ffe 5 [0x6c, 0x73, 0x78, 0x08, 0x74, 0x0d] =
        some (s', .succ 4, []) ∧
      s'.user (1, 0x40000fff) = some 0x73 ∧ s'.user (1, 0x40001000) = some 0x74 ∧
      s'.user (1, 0x40001001) = some 0 := by
  have hbuf : threeVmm.KernelBuffer 0x1000000 readlineBuflen := by
    refine ⟨by decide, fun i hi => ?_⟩
    rw [threeVmm, normal_childPages, Finset.mem_Ico]
    rw [readlineBuflen] at hi
    rw [pageSize, show (0x1000000 : BitVec 32).toNat = 0x1000000 from rfl]
    omega
  have hline : typedLine [0x6c, 0x73, 0x78, 0x08, 0x74] = [0x6c, 0x73, 0x74] := by decide
  have hfits : LineFits threeVmm 1 0x40000ffe 5 [0x6c, 0x73, 0x78, 0x08, 0x74] := by
    refine .inl ⟨by decide, by decide, (affords_childPages 3 _ (by decide)).mono ?_⟩
    rw [hline]
    decide +kernel
  obtain ⟨s', n, hcall, -, htext, -⟩ :=
    (@sysReadlineFrom_stores_line threeVmm 1 0x1000000 0x40000ffe 5 [0x6c, 0x73, 0x78, 0x08, 0x74]
      0x0d (isolated_childPages _ _) (by decide) hbuf
    ⟨by decide, by decide⟩ (by decide) (.inr rfl) []).1 hfits
  obtain ⟨hn, hchars⟩ := htext (by decide)
  rw [hline] at hn hchars
  subst hn
  exact ⟨s', hcall, hchars 1 0x73 rfl, hchars 2 0x74 rfl, hchars 3 0 rfl⟩

/-! ## A line that fills the buffer -/

/-- Process 1 has a page at the start of user memory. -/
def onePage : Vmm := ((childPages 3 fun _ _ => 0x41414141).allocPage 1 0x40000000 7).1

theorem onePage_isolated : onePage.Isolated ∧ onePage.mem.table.normal =
    Finset.Ico 0x40000 0x40004 := by
  have hu : UserAddr 1 0x40000000 := by decide
  have habsent : ¬ Present ((childPages 3 fun _ _ => 0x41414141).getPtblEntryByVa 1 0x40000000) :=
    by decide +kernel
  have hperm : (7 : BitVec 32).toNat < 4096 := by decide
  obtain ⟨hwidens, -⟩ := (isolated_childPages _ _).user_allocPage hu hperm habsent
  exact ⟨hwidens.isolated, hwidens.normal.trans (normal_childPages _ _)⟩

theorem onePage_buffer {kva : BitVec 32} {len : Nat} (h : kva.toNat + len ≤ vmUserLo) :
    onePage.KernelBuffer kva len := by
  refine ⟨h.trans (by decide), fun i hi => ?_⟩
  rw [onePage_isolated.2, Finset.mem_Ico]
  rw [vmUserLo, pageSize] at *
  omega

theorem onePage_ready {n : Nat} (h : n ≤ 4) :
    onePage.Ready 1 (vpages (0x40000000 : BitVec 32).toNat n) 0x40000000 n := by
  have hhi : (0x40000000 : BitVec 32).toNat + n ≤ vmUserHi :=
    Nat.le_trans (Nat.add_le_add_left h _) (by decide)
  refine onePage_isolated.1.ready (by decide) (by decide) hhi fun i hi => ?_
  have hi : i < 4 := hi.trans_le h
  interval_cases i <;> decide +kernel

/-- The caller's buffer has three bytes, and three characters are typed: the NUL goes to the byte
behind the buffer. A character that is not ASCII makes `readline` return a null pointer: what is
stored then was not typed, but comes from the first page of physical memory. -/
theorem sysReadlineFrom_past_buffer :
    onePage.user (1, 0x40000003) = some 0x41 ∧
    (∃ s', onePage.sysReadlineFrom 1 0x1000000 0x40000000 3 [0x78, 0x79, 0x7a, 0x0a] =
      some (s', .succ 4, []) ∧
      s'.user (1, 0x40000003) = some 0) ∧
    ∃ s', onePage.sysReadlineFrom 1 0x1000000 0x40000000 3 [0xe9, 0x0a] =
    some (s', .succ 3, [0x0a]) ∧
      s'.user (1, 0x40000000) = some 0x03 := by
  refine ⟨by decide +kernel, ?_, ?_⟩
  · have hline : typedLine [0x78, 0x79, 0x7a] = [0x78, 0x79, 0x7a] := by decide
    have hready := onePage_ready (show min (typedLine [0x78, 0x79, 0x7a]).length
      3 + 1 ≤ 4 by decide)
    have hcall := @Vmm.sysReadlineFrom_eq onePage 1 0x1000000 0x40000000
      0x0a [0x78, 0x79, 0x7a] [] _ 3 (onePage_buffer (by decide)) (by decide) (.inl rfl)
      ⟨by decide, by decide⟩ hready
    rw [hline] at hcall
    obtain ⟨s', hcall, hextends⟩ := hcall
    exact ⟨s', hcall, (Vmm.written_user (by decide) hextends).1 3 0 rfl⟩
  · have hn : min (onePage.strnlen 0 (readlineBuflen - 1)) (3 : BitVec 32).toNat = 2 := by
      decide +kernel
    obtain ⟨hret, hextends⟩ :=
      (onePage_ready (show 3 ≤ 4 by decide)).readlineCopy hn (onePage_buffer (by decide))
    have hbyte : onePage.bytesAt 0 2 = [0x03, 0x01] := by decide +kernel
    rw [hbyte] at hextends
    have hread : Vmm.readline 0x1000000 onePage 0 [0xe9, 0x0a] = some (onePage, 0, [0x0a]) := rfl
    refine ⟨_, ?_, (Vmm.written_user (by decide) hextends).1 0 0x03 rfl⟩
    rw [Vmm.sysReadlineFrom, if_neg (by decide), hread, ← hret]

end MCertikos
