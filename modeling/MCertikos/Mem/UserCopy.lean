import MCertikos.Fs.Sysfile
import MCertikos.Mem.Copy

/-!
# User addresses of system calls

The user memory that system calls access. Each call tests the range that it was given, and copies
it with `pt_copyin` or `pt_copyout`, which test it again. All tests add the length to the address
as unsigned 32-bit words. A range that wraps around at the end of the address space may pass them,
and is then copied although its addresses belong to the kernel. The calls keep to user addresses
exactly if they make no such copy.
-/

namespace MCertikos

/-- Reference: `BUFLEN` (`kern/trap/TSyscall/TSyscall.c:13`). -/
def readlineBuflen : Nat := 1024

namespace Vmm

variable (p : Nat) (kva : BitVec 32)

/-- The number of bytes of the next chunk of `sys_puts`
(`kern/trap/TSyscall/TSyscall.c:40`). -/
def putsChunk (remain : BitVec 32) : BitVec 32 :=
  if remain.toNat < pageSize - 1 then remain else BitVec.ofNat 32 (pageSize - 1)

/-- The loop of `sys_puts`, in chunks that leave room for a NUL in a page; a turn prints at least
one byte, so `remain` turns suffice. Reference: `sys_puts` (`kern/trap/TSyscall/TSyscall.c:39`). -/
def putsLoop : (fuel : Nat) → Vmm → (pos remain : BitVec 32) → Vmm × List Turn
  | 0, s, _, _ => (s, [])
  | fuel + 1, s, pos, remain =>
    if remain = 0 then (s, [])
    else
      let nbytes := putsChunk remain
      let r := s.ptCopyin p pos kva nbytes
      -- `E_MEM`
      if r.2.1.length ≠ nbytes.toNat then (r.1, r.2.2)
      else
        let rest := putsLoop fuel r.1 (pos + nbytes) (remain - nbytes)
        (rest.1, r.2.2 ++ rest.2)

/-- Reference: `sys_puts` (`kern/trap/TSyscall/TSyscall.c:21`). -/
def sysPuts (s : Vmm) (strUva strLen : BitVec 32) : Vmm × List Turn :=
  if ¬ (vmUserLo ≤ strUva.toNat ∧ (strUva + strLen).toNat ≤ vmUserHi) then (s, [])
  else s.putsLoop p kva strLen.toNat strUva strLen

/-- The number of characters that `sys_readline` copies, where `input` is in the buffer of the
console (`kern/trap/TSyscall/TSyscall.c:75`). -/
def readlineChars (input : List (BitVec 8)) (len : BitVec 32) : Nat :=
  -- `strnlen(buf, BUFLEN - 1)`
  min (min (input.takeWhile (· ≠ 0)).length (readlineBuflen - 1)) len.toNat

/-- Copies the line that was read, cut to `len` bytes, with a NUL. Reference: `sys_readline`
(`kern/trap/TSyscall/TSyscall.c:61`). -/
def sysReadline (s : Vmm) (input : List (BitVec 8)) (line len : BitVec 32) : Vmm × List Turn :=
  if ¬ (vmUserLo ≤ line.toNat ∧ (line + len).toNat ≤ vmUserHi) ∨
    readlineBuflen ≤ len.toNat then (s, [])
  else
    let n := readlineChars input len
    s.ptCopyout p (fun k => if k < n then input.getD k 0 else 0) kva line (BitVec.ofNat 32 (n + 1))

end Vmm

/-- The tests of a copy accept a range that wraps around. -/
def Vmm.CopyWraps (uva kva len : BitVec 32) : Prop :=
  copyTest uva kva len ∧ 2 ^ 32 ≤ uva.toNat + len.toNat

/-- A system call with its range arguments, and the bytes or the number of bytes that the rest of
the call provides. -/
inductive UserCall where
  /-- `sys_read`, in which `file_read` has returned `count`, which is at most what it was asked
  for. -/
  | read (buf buflen count : BitVec 32) (fsbuf : Nat → BitVec 8) (le : count ≤ buflen)
  | write (buf buflen : BitVec 32)
  | fstat (stat : BitVec 32) (fsStat : Nat → BitVec 8)
  | puts (strUva strLen : BitVec 32)
  | readline (line len : BitVec 32) (input : List (BitVec 8))
  /-- `sys_open`, `sys_unlink`, `sys_mkdir` and `sys_chdir`. -/
  | path (buf buflen : BitVec 32)
  | link (uold oldlen unew newlen : BitVec 32)

namespace UserCall

/-- The turns of the copies that a call of a process makes, where its kernel buffers are at `kva`
and `kva'`. Other tests of the calls only make them copy less. Reference: `sys_read`, `sys_write`,
`sys_fstat`, `sys_link` and the other calls with a path (`kern/fs/sysfile.c`). -/
def turns (s : Vmm) (p : Nat) (kva kva' : BitVec 32) : UserCall → List Turn
  | read buf buflen count fsbuf _ =>
    if checkBuf buf buflen buflenMax then (s.ptCopyout p fsbuf kva buf count).2 else []
  | write buf buflen =>
    if checkBuf buf buflen buflenMax then (s.ptCopyin p buf kva buflen).2.2 else []
  | fstat stat fsStat =>
    if checkBuf stat fileStatSize 0 then (s.ptCopyout p fsStat kva stat fileStatSize).2 else []
  | puts strUva strLen => (s.sysPuts p kva strUva strLen).2
  | readline line len input => (s.sysReadline p kva input line len).2
  | path buf buflen => if checkBuf buf buflen 128 then (s.ptCopyin p buf kva buflen).2.2 else []
  | link uold oldlen unew newlen =>
    if checkBuf uold oldlen 128 && checkBuf unew newlen 128 then
      let r := s.ptCopyin p uold kva oldlen
      r.2.2 ++ (r.1.ptCopyin p unew kva' newlen).2.2
    else []

/-- The call makes a copy whose range wraps around. `sys_puts` does so only with its first
chunk. -/
def Wraps (kva kva' : BitVec 32) : UserCall → Prop
  | read buf buflen count _ _ => checkBuf buf buflen buflenMax ∧ Vmm.CopyWraps buf kva count
  | write buf buflen => checkBuf buf buflen buflenMax ∧ Vmm.CopyWraps buf kva buflen
  | fstat stat _ => checkBuf stat fileStatSize 0 ∧ Vmm.CopyWraps stat kva fileStatSize
  | puts strUva strLen => (vmUserLo ≤ strUva.toNat ∧ (strUva + strLen).toNat ≤ vmUserHi) ∧
      Vmm.CopyWraps strUva kva (Vmm.putsChunk strLen)
  | readline line len input =>
    ((vmUserLo ≤ line.toNat ∧ (line + len).toNat ≤ vmUserHi) ∧ len.toNat < readlineBuflen) ∧
      Vmm.CopyWraps line kva (BitVec.ofNat 32 (Vmm.readlineChars input len + 1))
  | path buf buflen => checkBuf buf buflen 128 ∧ Vmm.CopyWraps buf kva buflen
  | link uold oldlen unew newlen => (checkBuf uold oldlen 128 ∧ checkBuf unew newlen 128) ∧
      (Vmm.CopyWraps uold kva oldlen ∨ Vmm.CopyWraps unew kva' newlen)

end UserCall

/-- Each byte that the turn accesses has a user address. -/
def Turn.InUser (t : Turn) : Prop :=
  ∀ k < t.size, vmUserLo ≤ (t.uva + BitVec.ofNat 32 k).toNat ∧
    (t.uva + BitVec.ofNat 32 k).toNat < vmUserHi

/-- The sum of a user address and an offset in a range does not wrap around. -/
theorem toNat_add_ofNat_user {uva : BitVec 32} {len n : Nat} (hhi : uva.toNat + len ≤ vmUserHi)
    (hn : n ≤ len) : (uva + BitVec.ofNat 32 n).toNat = uva.toNat + n := by
  rw [vmUserHi] at hhi
  rw [BitVec.toNat_add, BitVec.toNat_ofNat, Nat.mod_eq_of_lt (a := n) (by omega),
    Nat.mod_eq_of_lt (by omega)]

theorem Turns.inUser {p : Nat} {uva : BitVec 32} {n : Nat} {ts : List Turn} (h : Turns p uva n ts)
    (hlo : vmUserLo ≤ uva.toNat) (hhi : uva.toNat + n ≤ vmUserHi) {t : Turn} (ht : t ∈ ts) :
    t.InUser := by
  intro k hk
  obtain ⟨i, hi, heq⟩ := h.addresses ht hk
  rw [heq, toNat_add_ofNat_user hhi hi.le]
  omega

/-- A copy whose range goes to the end of the address space accesses an address that is not a user
address. -/
theorem Turns.not_inUser {p : Nat} {uva : BitVec 32} {n : Nat} {ts : List Turn}
    (h : Turns p uva n ts) (hwrap : 2 ^ 32 ≤ uva.toNat + n) : ¬ ∀ t ∈ ts, t.InUser := by
  intro hin
  have huva := uva.isLt
  obtain ⟨t, ht, k, hk, heq⟩ := h.covers (i := 2 ^ 32 - 1 - uva.toNat) (by omega)
  have hlast : (uva + BitVec.ofNat 32 (2 ^ 32 - 1 - uva.toNat)).toNat = 2 ^ 32 - 1 := by
    rw [BitVec.toNat_add, BitVec.toNat_ofNat]
    omega
  have hhi := (hin t ht k hk).2
  rw [heq, hlast] at hhi
  exact absurd hhi (by decide)

namespace Vmm

variable {s : Vmm} {p : Nat} {uva kva len : BitVec 32} {kbyte : Nat → BitVec 8}

theorem toNat_add_of_lt {a b : BitVec 32} (h : a.toNat + b.toNat < 2 ^ 32) :
    (a + b).toNat = a.toNat + b.toNat := by
  rw [BitVec.toNat_add, Nat.mod_eq_of_lt h]

/-- The test of a copy is exact if the sum does not wrap around. -/
theorem copyTest_range (hwrap : uva.toNat + len.toNat < 2 ^ 32) (h : copyTest uva kva len) :
    vmUserLo ≤ uva.toNat ∧ uva.toNat + len.toNat ≤ vmUserHi := by
  simp only [copyTest, decide_eq_true_eq, toNat_add_of_lt hwrap] at h
  exact h.1

/-- The turns of a copy that has passed the test. -/
theorem inUser_iff_of_turns {ts : List Turn} (htest : copyTest uva kva len)
    (h : Turns p uva len.toNat ts) : (∀ t ∈ ts, t.InUser) ↔ ¬ CopyWraps uva kva len := by
  constructor
  · exact fun hin hwraps => h.not_inUser hwraps.2 hin
  · intro hwraps t ht
    obtain ⟨hlo, hhi⟩ := copyTest_range (Nat.lt_of_not_le fun hle => hwraps ⟨htest, hle⟩) htest
    exact h.inUser hlo hhi ht

/-- `pt_copyin` keeps to user addresses exactly if no range that wraps around passes its test. -/
theorem ptCopyin_inUser_iff :
    (∀ t ∈ (s.ptCopyin p uva kva len).2.2, t.InUser) ↔ ¬ CopyWraps uva kva len := by
  rw [ptCopyin]
  by_cases htest : copyTest uva kva len
  · rw [if_pos htest]
    exact inUser_iff_of_turns htest (copyinLoop_turns p _ s uva _ le_rfl).1
  · rw [if_neg htest]
    exact ⟨fun _ hwraps => htest hwraps.1, fun _ => nofun⟩

/-- `pt_copyout` keeps to user addresses exactly if no range that wraps around passes its test. -/
theorem ptCopyout_inUser_iff :
    (∀ t ∈ (s.ptCopyout p kbyte kva uva len).2, t.InUser) ↔ ¬ CopyWraps uva kva len := by
  rw [ptCopyout]
  by_cases htest : copyTest uva kva len
  · have hlen : ((List.range len.toNat).map kbyte).length = len.toNat := by simp
    have hturns := copyoutLoop_turns p len.toNat s uva ((List.range len.toNat).map kbyte) hlen.le
    rw [hlen] at hturns
    rw [if_pos htest]
    exact inUser_iff_of_turns htest hturns
  · rw [if_neg htest]
    exact ⟨fun _ hwraps => htest hwraps.1, fun _ => nofun⟩

/-! ## The chunks of `sys_puts` -/

theorem putsChunk_lt (remain : BitVec 32) : (putsChunk remain).toNat < pageSize := by
  rw [putsChunk]
  split
  · rw [pageSize] at *
    omega
  · decide

theorem putsChunk_ne_zero {remain : BitVec 32} (h : remain ≠ 0) : putsChunk remain ≠ 0 := by
  rw [putsChunk]
  split
  · exact h
  · decide

/-- A chunk is read whole exactly if it passes the test. -/
theorem length_ptCopyin : (s.ptCopyin p uva kva len).2.1.length =
    if copyTest uva kva len then len.toNat else 0 := by
  rw [ptCopyin]
  split
  · exact (copyinLoop_turns p _ s uva _ le_rfl).2
  · rfl

/-- The chunks of `sys_puts` keep to user addresses exactly if the first one does. The chunks
behind an accepted one that does not wrap around begin at a user address, and are too short to wrap
around. -/
theorem putsLoop_inUser_iff (p : Nat) (kva : BitVec 32) :
    ∀ (fuel : Nat) (s : Vmm) (pos remain : BitVec 32), 0 < fuel →
    ((∀ t ∈ (s.putsLoop p kva fuel pos remain).2, t.InUser) ↔
      ¬ CopyWraps pos kva (putsChunk remain))
  | fuel + 1, s, pos, remain, _ => by
    have hpos := pos.isLt
    rw [putsLoop]
    by_cases h0 : remain = 0
    · rw [if_pos h0, h0]
      refine ⟨fun _ hwraps => ?_, fun _ => nofun⟩
      exact absurd hwraps.2 (Nat.not_le.2 hpos)
    rw [if_neg h0]
    dsimp only
    have hchunk := @ptCopyin_inUser_iff s p pos kva (putsChunk remain)
    split
    case isTrue => exact hchunk
    case isFalse hfull =>
      rw [not_not, length_ptCopyin] at hfull
      simp only [List.forall_mem_append, hchunk]
      refine and_iff_left_of_imp fun hwraps => ?_
      cases fuel with
      | zero => nofun
      | succ fuel =>
        rw [putsLoop_inUser_iff p kva (fuel + 1) _ _ _ (Nat.succ_pos _)]
        rintro ⟨-, hnext⟩
        -- the chunk is not empty, so it was read because it passed the test
        have htest : copyTest pos kva (putsChunk remain) := by
          by_contra htest
          rw [if_neg htest] at hfull
          exact putsChunk_ne_zero h0 (BitVec.eq_of_toNat_eq hfull.symm)
        have hlt := Nat.lt_of_not_le fun hle => hwraps ⟨htest, hle⟩
        have hhi := (copyTest_range hlt htest).2
        have hshort := putsChunk_lt (remain - putsChunk remain)
        rw [toNat_add_of_lt hlt] at hnext
        rw [vmUserHi] at hhi
        rw [pageSize] at hshort
        omega

theorem sysPuts_inUser_iff {strUva strLen : BitVec 32} :
    (∀ t ∈ (s.sysPuts p kva strUva strLen).2, t.InUser) ↔
      ¬ ((vmUserLo ≤ strUva.toNat ∧ (strUva + strLen).toNat ≤ vmUserHi) ∧
        CopyWraps strUva kva (putsChunk strLen)) := by
  rw [sysPuts]
  split
  case isTrue hrefused => exact ⟨fun _ hc => hrefused hc.1, fun _ => nofun⟩
  case isFalse haccepted =>
    rw [not_not] at haccepted
    rw [not_and, imp_iff_right haccepted]
    rcases Nat.eq_zero_or_pos strLen.toNat with h0 | hlen
    · obtain rfl : strLen = 0 := BitVec.eq_of_toNat_eq h0
      exact ⟨fun _ hwraps => absurd hwraps.2 (Nat.not_le.2 strUva.isLt), fun _ => nofun⟩
    · exact putsLoop_inUser_iff p kva _ s strUva strLen hlen

theorem sysReadline_inUser_iff {input : List (BitVec 8)} {line : BitVec 32} :
    (∀ t ∈ (s.sysReadline p kva input line len).2, t.InUser) ↔
      ¬ (((vmUserLo ≤ line.toNat ∧ (line + len).toNat ≤ vmUserHi) ∧ len.toNat < readlineBuflen) ∧
        CopyWraps line kva (BitVec.ofNat 32 (readlineChars input len + 1))) := by
  rw [sysReadline]
  split
  case isTrue hrefused =>
    refine ⟨fun _ hc => ?_, fun _ => nofun⟩
    exact hrefused.elim (fun h => h hc.1.1) fun h => absurd hc.1.2 (Nat.not_lt.2 h)
  case isFalse haccepted =>
    rw [not_or, not_not, Nat.not_le] at haccepted
    rw [not_and, imp_iff_right haccepted]
    exact ptCopyout_inUser_iff

end Vmm

/-- A call accesses user addresses only, exactly if it makes no copy whose range wraps around. -/
theorem copies_in_user_range (s : Vmm) (p : Nat) (kva kva' : BitVec 32) (c : UserCall) :
    (∀ t ∈ c.turns s p kva kva', t.InUser) ↔ ¬ c.Wraps kva kva' := by
  -- a call that tests its range and then copies it
  have htested : ∀ {test : Bool} {ts : List Turn} {wraps : Prop},
    ((∀ t ∈ ts, t.InUser) ↔ ¬ wraps) →
      ((∀ t ∈ if test then ts else [], t.InUser) ↔ ¬ (test = true ∧ wraps)) := by
    intro test ts wraps h
    cases test with
    | true => simpa using h
    | false => exact ⟨fun _ hc => absurd hc.1 nofun, fun _ => nofun⟩
  cases c with
  | read buf buflen count fsbuf hcount => exact htested Vmm.ptCopyout_inUser_iff
  | write buf buflen => exact htested Vmm.ptCopyin_inUser_iff
  | fstat stat fsStat => exact htested Vmm.ptCopyout_inUser_iff
  | puts strUva strLen => exact Vmm.sysPuts_inUser_iff
  | readline line len input => exact Vmm.sysReadline_inUser_iff
  | path buf buflen => exact htested Vmm.ptCopyin_inUser_iff
  | link uold oldlen unew newlen =>
    have hboth : (∀ t ∈ (s.ptCopyin p uold kva oldlen).2.2 ++
          ((s.ptCopyin p uold kva oldlen).1.ptCopyin p unew kva' newlen).2.2, t.InUser) ↔
        ¬ (Vmm.CopyWraps uold kva oldlen ∨ Vmm.CopyWraps unew kva' newlen) := by
      rw [List.forall_mem_append, Vmm.ptCopyin_inUser_iff, Vmm.ptCopyin_inUser_iff, not_or]
    rw [UserCall.Wraps, ← Bool.and_eq_true]
    exact htested hboth

/-- Process 1 writes eight bytes that cross a page. -/
theorem copies_in_user_range_write :
    ((UserCall.write 0x40000ffc 8).turns fourVmm 1 0x100000 0x100000).map
      (fun t => (t.uva, t.size)) = [(0x40000ffc, 4), (0x40001000, 4)] ∧
    ∀ t ∈ (UserCall.write 0x40000ffc 8).turns fourVmm 1 0x100000 0x100000, t.InUser :=
  ⟨by decide +kernel, (copies_in_user_range fourVmm 1 _ _ (.write 0x40000ffc 8)).2
    fun hwraps => absurd hwraps.2.2 (by decide)⟩

/-- The result of `sys_fstat` with the address `0xfffffff0`, and a write from `0xfffff000`: the
range ends at a small address, so the tests accept it. -/
theorem copies_wrap_around :
    checkBuf 0xfffffff0 fileStatSize 0 ∧
    ((UserCall.fstat 0xfffffff0 fun _ => 0).turns fourVmm 1 0x100000 0x100000).map
      (fun t => (t.uva, t.pa, t.size)) = [(0xfffffff0, 0xfffffff0, 16), (0, 0, 4)] ∧
    ((UserCall.write 0xfffff000 4098).turns fourVmm 1 0x100000 0x100000).map
      (fun t => (t.uva, t.pa, t.size)) = [(0xfffff000, 0xfffff000, 4096), (0, 0, 2)] ∧
    ¬ (vmUserLo ≤ (0xfffffff0 : BitVec 32).toNat ∧ (0xfffffff0 : BitVec 32).toNat < vmUserHi) := by
  refine ⟨by decide, ?_, ?_, by decide⟩ <;> decide +kernel

end MCertikos
