import MCertikos.Fs.BufCache
import MCertikos.Fs.Mkfs
import MCertikos.Fs.Sysfile
import MCertikos.Mem.Copy
import Mathlib.Data.List.TakeWhile

/-!
# The path arguments of system calls

A system call with a path copies `buflen` bytes of the user into a buffer on the kernel's stack
(`pt_copyin`), and then reads the buffer as a string. Nothing puts a NUL behind the bytes, so the
string may go on into what was in the buffer before, and behind it. The string ends within the
user's bytes exactly if they have a NUL, and then the call depends on nothing else.
-/

namespace MCertikos

open Program

/-- The memory and the path buffer after `pt_copyin`. The buffer is at `kva`, and `stack` is what
was in it and behind it. -/
def copyPath (s : Vmm) (p : Nat) (buf kva buflen : BitVec 32) (stack : List Byte) :
    Vmm × List Byte :=
  let r := s.ptCopyin p buf kva buflen
  (r.1, r.2.1 ++ stack.drop r.2.1.length)

/-- The calls that take paths. -/
inductive PathCall where
  | open (buf omode buflen : BitVec 32)
  | mkdir (buf buflen : BitVec 32)
  | unlink (buf buflen : BitVec 32)
  | chdir (buf buflen : BitVec 32)
  | link (uold unew oldlen newlen : BitVec 32)

/-- What is on the stack where the path buffers of a call are, and behind them. Only `sys_link` has
a second one. -/
structure PathStack where
  path : List Byte
  second : List Byte

namespace PathCall

variable (s : Vmm) (p : Nat) (kva kva' : BitVec 32)

/-- The path buffers of a call, each with its length, when the strings are read. The buffers are at
`kva` and `kva'`. -/
def buffers (stack : PathStack) : PathCall → List (BitVec 32 × List Byte)
  | .open buf _ buflen | .mkdir buf buflen | .unlink buf buflen | .chdir buf buflen =>
    [(buflen, (copyPath s p buf kva buflen stack.path).2)]
  | .link uold unew oldlen newlen =>
    let r := copyPath s p uold kva oldlen stack.path
    [(oldlen, r.2), (newlen, (copyPath r.1 p unew kva' newlen stack.second).2)]

/-- The code of a call of process `p`. -/
def code (stack : PathStack) : PathCall → Fs SysRet
  | .open buf omode buflen => sysOpen buf omode buflen (copyPath s p buf kva buflen stack.path).2
  | .mkdir buf buflen => sysMkdir buf buflen (copyPath s p buf kva buflen stack.path).2
  | .unlink buf buflen => sysUnlink buf buflen (copyPath s p buf kva buflen stack.path).2
  | .chdir buf buflen => sysChdir buf buflen (copyPath s p buf kva buflen stack.path).2
  | .link uold unew oldlen newlen =>
    let r := copyPath s p uold kva oldlen stack.path
    sysLink uold unew oldlen newlen r.2 (copyPath r.1 p unew kva' newlen stack.second).2

/-- The bytes that `pt_copyin` reads, for each path. -/
def copied : PathCall → List (List Byte)
  | .open buf _ buflen | .mkdir buf buflen | .unlink buf buflen | .chdir buf buflen =>
    [(s.ptCopyin p buf kva buflen).2.1]
  | .link uold unew oldlen newlen =>
    let r := s.ptCopyin p uold kva oldlen
    [r.2.1, (r.1.ptCopyin p unew kva' newlen).2.1]

/-- The call accepts its ranges and copies the paths. -/
def Accepted : PathCall → Prop
  | .open buf _ buflen | .mkdir buf buflen | .unlink buf buflen | .chdir buf buflen =>
    checkBuf buf buflen 128
  | .link uold unew oldlen newlen => checkBuf uold oldlen 128 ∧ checkBuf unew newlen 128

/-- The call depends only on what the user passed: with any two contents of the stack it is the
same program, so it has the same result and effect in every state of the file system; and the
strings that it reads end in front of `buflen`. -/
structure DependsOnUser (c : PathCall) : Prop where
  code : ∀ st st', c.code s p kva kva' st = c.code s p kva kva' st'
  strings : c.Accepted → ∀ st, ∀ b ∈ c.buffers s p kva kva' st, (cstring b.2).length < b.1.toNat

end PathCall

/-! ## Strings that end in the bytes of the user -/

section
variable {s : Vmm} {p : Nat} {buf kva buflen : BitVec 32} {bs stack : List Byte}

theorem length_cstring_lt (h : (0 : Byte) ∈ bs) : (cstring bs).length < bs.length := by
  refine lt_of_le_of_ne (List.takeWhile_prefix _).length_le fun heq => ?_
  have hself : cstring bs = bs := (List.takeWhile_prefix _).eq_of_length heq
  have hne : (0 : Byte) ∈ cstring bs := hself.symm ▸ h
  simpa using List.all_eq_true.1 List.all_takeWhile _ hne

theorem cstring_append (h : (0 : Byte) ∈ bs) : cstring (bs ++ stack) = cstring bs :=
  List.takeWhile_append.trans (if_neg (length_cstring_lt h).ne)

theorem length_ptCopyin_le : (s.ptCopyin p buf kva buflen).2.1.length ≤ buflen.toNat := by
  unfold Vmm.ptCopyin
  split
  · exact (Vmm.copyinLoop_turns p _ s buf _ le_rfl).2.le
  · exact Nat.zero_le _

/-- With a NUL in the user's bytes, they give the string, and it ends in front of `buflen`. -/
theorem cstring_copyPath (stack : List Byte) (h : (0 : Byte) ∈ (s.ptCopyin p buf kva buflen).2.1) :
    cstring (copyPath s p buf kva buflen stack).2 = cstring (s.ptCopyin p buf kva buflen).2.1 ∧
      (cstring (copyPath s p buf kva buflen stack).2).length < buflen.toNat := by
  have heq : cstring (copyPath s p buf kva buflen stack).2 =
      cstring (s.ptCopyin p buf kva buflen).2.1 :=
    cstring_append h
  exact ⟨heq, by rw [heq]; exact (length_cstring_lt h).trans_le length_ptCopyin_le⟩

/-- Without a NUL in the user's bytes, the string goes on behind them, if the stack does. -/
theorem length_le_cstring_copyPath (h : (0 : Byte) ∉ (s.ptCopyin p buf kva buflen).2.1) :
    buflen.toNat ≤
      (cstring (copyPath s p buf kva buflen (List.replicate buflen.toNat 1)).2).length := by
  have hself : cstring (copyPath s p buf kva buflen (List.replicate buflen.toNat 1)).2 = _ :=
    List.takeWhile_eq_self_iff.2 fun b hb => decide_eq_true ?_
  · rw [hself, copyPath, List.length_append, List.length_drop, List.length_replicate]
    omega
  rintro rfl
  rw [copyPath, List.drop_replicate] at hb
  rcases List.mem_append.1 hb with hb | hb
  · exact h hb
  · exact absurd (List.eq_of_mem_replicate hb) (by decide)

variable {kva' : BitVec 32} {c : PathCall} {st st' : PathStack}

/-- The call reads its buffers as strings only. -/
theorem PathCall.code_congr (h : (c.buffers s p kva kva' st).map (fun b => cstring b.2) =
    (c.buffers s p kva kva' st').map fun b => cstring b.2) :
    c.code s p kva kva' st = c.code s p kva kva' st' := by
  cases c <;> simp only [buffers, List.map_cons, List.map_nil, List.cons.injEq, and_true] at h
  case «open» => rw [code, code, sysOpen, sysOpen, h]
  case mkdir => rw [code, code, sysMkdir, sysMkdir, h]
  case unlink => rw [code, code, sysUnlink, sysUnlink, h]
  case chdir => rw [code, code, sysChdir, sysChdir, h]
  case link =>
    dsimp only [code]
    rw [sysLink, sysLink, h.1, h.2]

/-- With a NUL in the bytes of each path, they give the strings. -/
theorem PathCall.cstring_buffers (st : PathStack)
    (h : ∀ bs ∈ c.copied s p kva kva', (0 : Byte) ∈ bs) :
    (c.buffers s p kva kva' st).map (fun b => cstring b.2) = (c.copied s p kva kva').map cstring ∧
      ∀ b ∈ c.buffers s p kva kva' st, (cstring b.2).length < b.1.toNat := by
  cases c with
  | «open» buf _ buflen | mkdir buf buflen | unlink buf buflen | chdir buf buflen =>
    obtain ⟨heq, hlen⟩ := cstring_copyPath st.path (h _ (.head _))
    exact ⟨congrArg (fun x => [x]) heq, fun b hb => List.mem_singleton.1 hb ▸ hlen⟩
  | link uold unew oldlen newlen =>
    obtain ⟨heq, hlen⟩ := cstring_copyPath st.path (h _ (.head _))
    obtain ⟨heq', hlen'⟩ := cstring_copyPath st.second (h _ (.tail _ (.head _)))
    refine ⟨congrArg₂ (fun x y => [x, y]) heq heq', fun b hb => ?_⟩
    rcases List.mem_cons.1 hb with rfl | hb
    · exact hlen
    · exact List.mem_singleton.1 hb ▸ hlen'

/-- A call that refuses its ranges does not read the buffers. -/
theorem PathCall.code_of_refused (h : ¬ c.Accepted) :
    c.code s p kva kva' st = c.code s p kva kva' st' := by
  cases c with
  | «open» => simp only [code, sysOpen, Bool.eq_false_of_not_eq_true h, Bool.not_false, if_true]
  | mkdir => simp only [code, sysMkdir, Bool.eq_false_of_not_eq_true h, Bool.not_false, if_true]
  | unlink => simp only [code, sysUnlink, Bool.eq_false_of_not_eq_true h, Bool.not_false, if_true]
  | chdir => simp only [code, sysChdir, Bool.eq_false_of_not_eq_true h, Bool.not_false, if_true]
  | link uold unew oldlen newlen =>
    have htest : (!checkBuf uold oldlen 128 || !checkBuf unew newlen 128) = true := by
      rw [← Bool.not_and, Bool.not_eq_true', Bool.eq_false_iff, ne_eq, Bool.and_eq_true]
      exact h
    simp only [code, sysLink, htest, if_true]

end

/-- Process 1 after it has written `/` and a NUL at the start of its memory. -/
def slashVmm : Vmm :=
  (fourVmm.ptCopyout 1 (fun k => if k = 0 then slash else 0) 0x100000 0x40000000 2).1

end MCertikos
