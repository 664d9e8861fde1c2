import Mathlib.Data.BitVec
import MCertikos.Lib.RingBuffer

/-!
# The input of the console

Characters from the serial line and the keyboard go to a buffer, and `cons_getc` takes them out
(`kern/dev/console.c`). The code does not check for space. The buffer is a queue that loses all
that is in it when it would get its 512th character (`cons_refines_pending`).
-/

namespace MCertikos

open RingBuffer

/-- Reference: `CONSOLE_BUFFER_SIZE` (`kern/dev/console.h:6`). -/
def consoleBufferSize : Nat := 512

/-- Reference: `cons` (`kern/dev/console.c:16`). -/
structure Console where
  buf : Nat → BitVec 8
  rpos : Nat
  wpos : Nat

/-- What the kernel does with the console, with what the devices have: the values that
`serial_proc_data` or `kbd_proc_data` return before -1. The lock is held meanwhile. -/
inductive ConsCall where
  | intr (data : List (BitVec 8))
  | getc (serial keyboard : List (BitVec 8))

namespace Console

/-- Reference: `cons_init` (`kern/dev/console.c:21`). -/
def consInit : Console := ⟨fun _ => 0, 0, 0⟩

/-- Reference: `cons_intr` (`kern/dev/console.c:29`). -/
def consIntr (c : Console) : List (BitVec 8) → Console
  | [] => c
  | b :: data =>
    if b = 0 then consIntr c data
    else
      consIntr { c with
        buf := Function.update c.buf c.wpos b
        wpos := next consoleBufferSize c.wpos } data

variable (c : Console)

/-- Reference: `cons_getc` (`kern/dev/console.c:44`). -/
def consGetc (serial keyboard : List (BitVec 8)) : Console × BitVec 8 :=
  let c := (c.consIntr serial).consIntr keyboard
  if c.rpos ≠ c.wpos then ({ c with rpos := next consoleBufferSize c.rpos }, c.buf c.rpos)
  else (c, 0)

def call : ConsCall → Console × List (BitVec 8)
  | .intr data => (c.consIntr data, [])
  | .getc serial keyboard => ((c.consGetc serial keyboard).1, [(c.consGetc serial keyboard).2])

end Console

/-! ## The queue -/

/-- The pending characters after more have come. -/
def pendingIntr (q : List (BitVec 8)) : List (BitVec 8) → List (BitVec 8)
  | [] => q
  | b :: data =>
    if b = 0 then pendingIntr q data
    else pendingIntr (if q.length + 1 = consoleBufferSize then [] else q ++ [b]) data

def pendingCall (q : List (BitVec 8)) : ConsCall → List (BitVec 8) × List (BitVec 8)
  | .intr data => (pendingIntr q data, [])
  | .getc serial keyboard =>
    let q := pendingIntr (pendingIntr q serial) keyboard
    (q.tail, [q.headD 0])

/-- What calls return, one after the other. -/
def consOutputs {σ : Type} (call : σ → ConsCall → σ × List (BitVec 8)) :
    σ → List ConsCall → List (BitVec 8)
  | _, [] => []
  | s, x :: xs => (call s x).2 ++ consOutputs call (call s x).1 xs

section
variable {c : Console} {q : List (BitVec 8)}

/-- The characters in the buffer. -/
abbrev Console.Pending (c : Console) (q : List (BitVec 8)) : Prop :=
  Holds consoleBufferSize c.buf c.rpos c.wpos q

theorem Console.Pending.consIntr (h : c.Pending q) (data : List (BitVec 8)) :
    (c.consIntr data).Pending (pendingIntr q data) := by
  induction data generalizing c q with
  | nil => exact h
  | cons b data ih =>
    rw [Console.consIntr, pendingIntr]
    split_ifs with hb hfull
    · exact ih h
    · exact ih (h.overflow hfull)
    · exact ih (h.put (Nat.lt_of_le_of_ne h.length hfull))

theorem Console.Pending.call (h : c.Pending q) (x : ConsCall) :
    (c.call x).1.Pending (pendingCall q x).1 ∧ (c.call x).2 = (pendingCall q x).2 := by
  cases x with
  | intr data => exact ⟨h.consIntr data, rfl⟩
  | getc serial keyboard =>
    have h' := (h.consIntr serial).consIntr keyboard
    rw [Console.call, consGetc, pendingCall]
    generalize (c.consIntr serial).consIntr keyboard = c' at h'
    cases hq : pendingIntr (pendingIntr q serial) keyboard with
    | nil =>
      rw [hq] at h'
      simpa [h'.eq_of_nil] using h'
    | cons b q' =>
      rw [hq] at h'
      obtain ⟨hne, hb, hget⟩ := h'.get
      simpa [hne, hb] using hget

end

/-- The console is a queue of the characters that came in, as long as fewer than 512 are pending.
The 512th one makes the kernel forget all of them. Reference: `cons_intr` and `cons_getc`
(`kern/dev/console.c:29`, `:44`). -/
theorem cons_refines_pending (xs : List ConsCall) :
    consOutputs Console.call .consInit xs = consOutputs pendingCall [] xs := by
  suffices h : ∀ c q, Console.Pending c q → consOutputs Console.call c xs =
    consOutputs pendingCall q xs from h _ _ (holds_nil (by decide))
  induction xs with
  | nil => exact fun _ _ _ => rfl
  | cons x xs ih =>
    intro c q h
    obtain ⟨h', heq⟩ := h.call x
    rw [consOutputs, consOutputs, heq, ih _ _ h']

end MCertikos
