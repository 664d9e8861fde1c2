import MCertikos.Thread.Queue

/-!
# Spinlocks

The lock around the critical sections of the kernel (`kern/lib/spinlock.c`), shared by the
processors. Each access to a word of the lock is a step of its own: other processors may run
between the `xchg` that takes the lock and the store to `lock_holder`, and between the two loads of
`spinlock_holding`. The field `has` is a history variable. It holds from the `xchg` that took the
lock to the `xchg` that gives it up.
-/

namespace MCertikos

open Transition Function

/-- What a call has returned. -/
inductive SpinRet where
  | tried (old : BitVec 32)
  | held (answer : Bool)

/-- Where a processor is in the code, with the access that comes next. The versions of the
functions for debugging are not modelled. -/
inductive SpinPc where
  | out
  /-- `spinlock_acquire_A`: the `xchg`. -/
  | acquire
  /-- `spinlock_try_acquire_A`: the `xchg`. -/
  | tryAcquire
  /-- The store to `lock_holder` in one of the two. -/
  | won (tried : Bool)
  /-- `spinlock_release_A`: the store to `lock_holder`. -/
  | release
  /-- Its `xchg`. -/
  | unlock
  /-- `spinlock_holding`: the load of `lock`. -/
  | holding
  /-- Its load of `lock_holder`. -/
  | compare

/-- A spinlock and the processors. Reference: `spinlock_t` (`kern/lib/spinlock.h:10`). -/
structure SpinSys where
  lockHolder : Nat
  lock : BitVec 32
  pc : Nat → SpinPc
  /-- What the last call of the processor has returned. -/
  ret : Nat → Option SpinRet
  /-- The processor has the lock. -/
  has : Nat → Bool

namespace SpinSys

/-- Reference: `spinlock_init` (`kern/lib/spinlock.c:10`). -/
def spinlockInit : SpinSys where
  lockHolder := numCpus + 1
  lock := 0
  pc _ := .out
  ret _ := none
  has _ := false

variable (s : SpinSys) (c : Nat)

/-- The processor goes on elsewhere; a call that ends returns `r`. -/
def goto (pc : SpinPc) (r : Option SpinRet) : SpinSys :=
  { s with pc := update s.pc c pc, ret := update s.ret c r }

/-- The `xchg` that gave 0. -/
def take (tried : Bool) : SpinSys :=
  { s.goto c (.won tried) none with lock := 1, has := update s.has c true }

/-- The next access of a processor to the lock. Reference: `spinlock_acquire_A`,
`spinlock_try_acquire_A`, `spinlock_release_A`, `spinlock_holding` (`kern/lib/spinlock.c:41`,
`:52`, `:63`, `:16`). -/
def advance : Option SpinSys :=
  match s.pc c with
  | .out => none
  | .acquire => if s.lock ≠ 0 then some { s with lock := 1 } else some (s.take c false)
  | .tryAcquire =>
    if s.lock = 0 then some (s.take c true)
    else some { s.goto c .out (some (.tried s.lock)) with lock := 1 }
  | .won tried =>
    some { s.goto c .out (if tried then some (.tried 0) else none) with lockHolder := c }
  | .release => some { s.goto c .unlock none with lockHolder := numCpus + 1 }
  | .unlock => some { s.goto c .out none with lock := 0, has := update s.has c false }
  | .holding =>
    if s.lock = 0 then some (s.goto c .out (some (.held false))) else some (s.goto c .compare none)
  | .compare => some (s.goto c .out (some (.held (s.lockHolder = c))))

end SpinSys

inductive SpinAction where
  | acquire (c : Nat)
  | tryAcquire (c : Nat)
  | release (c : Nat)
  | holding (c : Nat)
  | advance (c : Nat)

/-- A processor that is outside of the code calls a function. -/
def SpinSys.call (s : SpinSys) (c : Nat) (pc : SpinPc) : Option SpinSys :=
  match s.pc c with
  | .out => if c < numCpus then some (s.goto c pc none) else none
  | _ => none

/-- The processors call the functions of one lock and run them, in any order. -/
def spinMachine : Machine SpinSys SpinAction where
  Init s := s = .spinlockInit
  step s
    | .acquire c => s.call c .acquire
    | .tryAcquire c => s.call c .tryAcquire
    | .release c => s.call c .release
    | .holding c => s.call c .holding
    | .advance c => s.advance c

/-- A processor gives up only the lock that it has. -/
def SpinSys.Disciplined (s : SpinSys) : SpinAction → Prop
  | .release c => s.has c = true
  | _ => True

/-! ## The owner of the lock -/

/-- The code runs only with the lock. -/
def SpinPc.inside : SpinPc → Bool
  | .won _ | .release | .unlock => true
  | _ => false

/-- A processor with the lock has stored its number to `lock_holder`. -/
def SpinPc.stored : SpinPc → Bool
  | .won _ | .unlock => false
  | _ => true

/-- What a processor was told, or is going to be told, is right. -/
def SpinRet.Right (own : Prop) : SpinRet → Prop
  | .tried old => old = 0 → own
  | .held answer => own ↔ answer = true

/-- The lock has the owner `o`. -/
structure SpinSys.Owned (s : SpinSys) (o : Option Nat) : Prop where
  has : ∀ c, s.has c = true ↔ o = some c
  word : s.lock = 0 ↔ o = none
  holder : s.lockHolder = o.elim (numCpus + 1) fun c => if (s.pc c).stored then c else numCpus + 1
  cpu : ∀ c, s.pc c = .out ∨ c < numCpus
  inside : ∀ c, (s.pc c).inside = true → o = some c
  right : ∀ c, ∀ r ∈ s.ret c, r.Right (o = some c)

namespace SpinSys

variable {s s' : SpinSys} {c : Nat} {o o' : Option Nat} {pc : SpinPc} {r : Option SpinRet}

theorem owned_spinlockInit : spinlockInit.Owned none := by
  constructor <;> simp [spinlockInit, SpinPc.inside]

/-- A step of one processor: what is known of the others does not change. -/
theorem Owned.move {holder : Nat} {lock : BitVec 32} {has : Nat → Bool} (h : s.Owned o)
    (ho : ∀ c' ≠ c, o' = some c' ↔ o = some c') (hhas : ∀ c, has c = true ↔ o' = some c)
    (hword : lock = 0 ↔ o' = none)
    (hholder : holder = o'.elim (numCpus + 1) fun c' => if ((s.goto c pc r).pc c').stored then
      c' else numCpus + 1) (hcpu : c < numCpus) (hinside : pc.inside = true → o' = some c)
        (hright : ∀ x ∈ r, x.Right (o' = some c)) :
    Owned { s.goto c pc r with lockHolder := holder, lock, has } o' := by
  refine ⟨hhas, hword, hholder, fun c' => ?_, fun c' => ?_, fun c' => ?_⟩ <;>
    simp only [SpinSys.goto] <;> rcases eq_or_ne c' c with rfl | hne
  · exact .inr hcpu
  · rw [update_of_ne hne]
    exact h.cpu c'
  · rwa [update_self]
  · rw [update_of_ne hne, ho c' hne]
    exact h.inside c'
  · rwa [update_self]
  · rw [update_of_ne hne, ho c' hne]
    exact h.right c'

/-- A step that does not store to the lock. -/
theorem Owned.goto (h : s.Owned o) (hcpu : c < numCpus) (hstored : pc.stored = (s.pc c).stored)
    (hinside : pc.inside = true → o = some c) (hright : ∀ x ∈ r, x.Right (o = some c)) :
    (s.goto c pc r).Owned o := by
  refine h.move (fun _ _ => Iff.rfl) h.has h.word (h.holder.trans ?_) hcpu hinside hright
  congr
  funext c'
  rcases eq_or_ne c' c with rfl | hne
  · simp [SpinSys.goto, hstored]
  · simp [SpinSys.goto, hne]

theorem Owned.call (h : s.Owned o) (hs : s.call c pc = some s') (hstored : pc.stored = true)
    (hinside : pc.inside = true → s.has c = true) : s'.Owned o := by
  rw [SpinSys.call] at hs
  split at hs
  · next hout =>
    obtain ⟨hc, hs⟩ := Option.ite_none_right_eq_some.1 hs
    obtain rfl := Option.some.inj hs
    exact h.goto hc (by rw [hout, hstored]; rfl) (fun hin => (h.has c).1 (hinside hin)) (by simp)
  · cases hs

theorem Owned.take {tried : Bool} (h : s.Owned o) (hlock : s.lock = 0) (hc : c < numCpus) :
    (s.take c tried).Owned (some c) := by
  obtain rfl := h.word.1 hlock
  refine h.move (fun c' hne => by simp [hne.symm]) (fun c' => ?_) (by simp) ?_
    hc (fun _ => rfl) (by simp)
  · rcases eq_or_ne c' c with rfl | hne
    · simp
    · simpa [SpinSys.take, hne, hne.symm] using h.has c'
  · simpa [SpinSys.take, SpinSys.goto, SpinPc.stored] using h.holder

/-- The two loads of `spinlock_holding` are not one step, but its answer is right. -/
theorem Owned.compare (h : s.Owned o) (hc : c < numCpus) (hstored : (s.pc c).stored = true) :
    o = some c ↔ s.lockHolder = c := by
  rw [h.holder]
  cases o with
  | none => simpa using fun he : numCpus + 1 = c => by omega
  | some c' =>
    rw [Option.some.injEq, Option.elim_some]
    refine ⟨fun he => by rw [he, if_pos hstored], fun he => ?_⟩
    split at he
    · exact he
    · omega

/-- Whatever a processor does next, the lock has one owner at most. -/
theorem Owned.advance (h : s.Owned o) (hs : s.advance c = some s') : ∃ o', s'.Owned o' := by
  have hin := h.inside c
  have hcpu := h.cpu c
  rw [SpinSys.advance] at hs
  cases hpc : s.pc c <;> simp only [hpc, SpinPc.inside, reduceCtorEq, false_or, forall_const]
    at hs hin hcpu
  case acquire =>
    split at hs <;> cases hs
    · next hlock => exact ⟨o, h.has, by
        simpa using mt h.word.2 hlock, h.holder, h.cpu, h.inside, h.right⟩
    · next hlock => exact ⟨_, h.take (not_not.1 hlock) hcpu⟩
  case tryAcquire =>
    split at hs <;> cases hs
    · next hlock => exact ⟨_, h.take hlock hcpu⟩
    · next hlock =>
      have h' : (s.goto c .out (some (.tried s.lock))).Owned o :=
        h.goto hcpu (by rw [hpc]; rfl)
          nofun (by simpa [SpinRet.Right] using fun h0 => absurd h0 hlock)
      exact ⟨o, h'.has, by simpa using mt h.word.2 hlock, h'.holder, h'.cpu, h'.inside, h'.right⟩
  case won tried =>
    cases hs
    refine ⟨o, h.move (fun _ _ => Iff.rfl) h.has h.word ?_ hcpu nofun ?_⟩
    · simp [hin, SpinSys.goto, SpinPc.stored]
    · cases tried <;> simp [SpinRet.Right, hin]
  case release =>
    cases hs
    refine ⟨o, h.move (fun _ _ => Iff.rfl) h.has h.word ?_ hcpu (fun _ => hin) (by simp)⟩
    simp [hin, SpinSys.goto, SpinPc.stored]
  case unlock =>
    cases hs
    have hholder := h.holder
    rw [hin, Option.elim_some, hpc, if_neg (by decide)] at hholder
    refine ⟨none, h.move (fun c' hne => by simp [hin, hne.symm]) (fun c' => ?_) (by simp) hholder
      hcpu nofun (by simp)⟩
    rcases eq_or_ne c' c with rfl | hne
    · simp
    · simpa [hne, hne.symm, hin] using h.has c'
  case holding =>
    split at hs <;> cases hs
    · next hlock =>
      exact ⟨o, h.goto hcpu (by rw [hpc]; rfl) nofun (by simp [SpinRet.Right, h.word.1 hlock])⟩
    · exact ⟨o, h.goto hcpu (by rw [hpc]; rfl) nofun (by simp)⟩
  case compare =>
    cases hs
    refine ⟨o, h.goto hcpu (by rw [hpc]; rfl) nofun ?_⟩
    simpa [SpinRet.Right] using h.compare hcpu (by rw [hpc]; rfl)

end SpinSys

/-- In every run in which the processors give up only the lock that they have, at most one of them
has it, and the word is 0 exactly when none has. `spinlock_holding` has told each processor whether
it has the lock, and one to which `spinlock_try_acquire` has returned 0 has it. Reference:
`kern/lib/spinlock.c:10`. -/
theorem spinlock_exclusive {s : SpinSys}
    (h : spinMachine.Runs SpinSys.Disciplined .spinlockInit s) :
    (∀ c c', s.has c = true → s.has c' = true → c = c') ∧ (s.lock = 0 ↔ ∀ c, s.has c = false) ∧
      (∀ c b, s.ret c = some (.held b) → s.has c = b) ∧ ∀ c, s.ret c = some (.tried 0) →
      s.has c = true := by
  obtain ⟨o, ho⟩ : ∃ o, s.Owned o := by
    refine h.invariant (I := fun s : SpinSys => ∃ o, s.Owned o) (fun t a u ⟨o, ho⟩ hok hu => ?_)
      ⟨none, SpinSys.owned_spinlockInit⟩
    cases a with
    | acquire c | tryAcquire c | holding c => exact ⟨o, ho.call hu rfl nofun⟩
    | release c => exact ⟨o, ho.call hu rfl fun _ => hok⟩
    | advance c => exact ho.advance hu
  refine ⟨fun c c' hc hc' => ?_, ho.word.trans ?_, fun c b hb => ?_, fun c h0 =>
    (ho.has c).2 (ho.right c _ h0 rfl)⟩
  · exact Option.some.inj (((ho.has c).1 hc).symm.trans ((ho.has c').1 hc'))
  · rw [Option.eq_none_iff_forall_ne_some]
    exact forall_congr' fun c => by rw [Ne, ← ho.has, Bool.not_eq_true]
  · exact Bool.eq_iff_iff.2 ((ho.has c).trans (ho.right c _ hb))

/-- While processor 0 is about to store its number, processor 1 is told that it does not have the
lock. -/
theorem spinlock_exclusive_interleaved :
    ∃ s, spinMachine.Runs SpinSys.Disciplined .spinlockInit s ∧ s.pc 0 = .won false ∧
    s.has 0 = true ∧
      s.ret 1 = some (.held false) ∧ ∀ c, s.has c = true → 0 = c := by
  have h₀ : spinMachine.Runs SpinSys.Disciplined .spinlockInit .spinlockInit := .refl
  have h₂ := (h₀.tail (a := SpinAction.acquire 0) trivial rfl).tail
    (a := SpinAction.holding 1) trivial rfl
  have h₄ := (h₂.tail (a := SpinAction.advance 0) trivial rfl).tail
    (a := SpinAction.advance 1) trivial rfl
  have h₅ := h₄.tail (a := SpinAction.advance 1) trivial rfl
  exact ⟨_, h₅, rfl, rfl, rfl, fun c => (spinlock_exclusive h₅).1 0 c rfl⟩

end MCertikos
