import Mathlib.Data.Finset.Insert
import MCertikos.Lib.Ring
import MCertikos.Lib.Transition
import MCertikos.Fs.Log

/-!
# The buffer cache under concurrent threads

The buffer cache of `kern/fs/bufcache.c` and the disk driver of `kern/dev/disk/ide.c` as any number
of threads use them at the same time, with the links `prev` and `next` between the buffers and the
queue of the disk. A thread inside a call is at one of the points of `Pc`; a step (`Cache.run`)
takes it from one point to the next, and other threads and the interrupts of the disk go on in
between. A thread that sleeps takes no step: in `bufcache_get` it then looks for its sector anew,
as after `goto loop`.

The disk is a map from sectors, so that what is read from a sector is what was last written to it.
A call of `KERN_PANIC` halts the kernel: there is no step.
-/

namespace MCertikos

open LinkedRing Transition Function

/-- The `dev` of a buffer without a sector: -1, as `bufcache_get` compares it with its
`uint32_t`. -/
def noDev : Nat := 2 ^ 32 - 1

/-- Reference: `struct buf` (`kern/lib/buf.h:6`). -/
structure DiskBuf where
  dev : Nat
  sector : Nat
  /-- `B_BUSY`. -/
  busy : Bool
  /-- `B_VALID`. -/
  valid : Bool
  /-- `B_DIRTY`. -/
  dirty : Bool
  data : Block

namespace DiskBuf

/-- The sector a buffer is for. -/
def key (v : DiskBuf) : Nat × Nat := (v.dev, v.sector)

/-- The condition that ends the wait in `ide_rw`. -/
def Synced (v : DiskBuf) : Prop := v.valid = true ∧ v.dirty = false

instance (v : DiskBuf) : Decidable v.Synced := inferInstanceAs (Decidable (_ ∧ _))

end DiskBuf

/-- Who calls `bufcache_read` or `bufcache_write`. -/
inductive Caller where
  /-- Code outside of the cache. -/
  | client
  /-- `log_write` of the buffer `b`, for the slot `i` of the log. -/
  | logWrite (b i : Nat)
  deriving DecidableEq

/-- Where a thread is in the code of the cache. -/
inductive Pc where
  /-- In no call. -/
  | idle
  /-- At the label `loop` of `bufcache_get`, awake or asleep. -/
  | get (c : Caller) (dev sector : Nat)
  /-- In `bufcache_read`, after `bufcache_get` has returned `b`. -/
  | got (c : Caller) (dev sector b : Nat)
  /-- In the wait of `ide_rw`, called by `bufcache_read`. -/
  | reading (c : Caller) (dev sector b : Nat)
  /-- At the `return b` of `bufcache_read`. -/
  | read (c : Caller) (dev sector b : Nat)
  /-- In the wait of `ide_rw`, called by `bufcache_write`. -/
  | writing (c : Caller) (b : Nat)
  /-- In `log_write`, after `bufcache_release`. -/
  | logged (b i : Nat)
  deriving DecidableEq

/-- The buffer cache with its disk, and the threads that use it. The buffers are 0 to `NBUF - 1`,
and the sentinel `bcache.head` of their list is the node `NBUF`. -/
structure Cache where
  /-- Reference: `bcache.buf` (`kern/fs/bufcache.c:33`). -/
  buf : Nat → DiskBuf
  links : Links Nat
  /-- Reference: `idequeue` (`kern/dev/disk/ide.c:15`). -/
  idequeue : List Nat
  disk : Nat × Nat → Block
  havedisk1 : Bool
  log : Log
  pc : Nat → Pc
  /-- The buffers a thread has from `bufcache_get` and has not passed to `bufcache_release`. -/
  held : Nat → Finset Nat
  /-- History variable: the buffer has been modified since it was last passed to `bufcache_write`
  or `log_write`. -/
  modified : Nat → Bool
  /-- History variable: what was last stored for a sector. -/
  stored : Nat × Nat → Block

/-- The links after boot. Reference: `bufcache_init` (`kern/fs/bufcache.c:40`). -/
def bufcacheInit (k : Links Nat) : Links Nat :=
  (List.range nBuf).foldl (fun k b => k.pushFront nBuf b) ((k.setPrev nBuf nBuf).setNext nBuf nBuf)

namespace Cache

variable (s : Cache)

/-- Assigns to a buffer. -/
def setBuf (b : Nat) (v : DiskBuf) : Cache := { s with buf := update s.buf b v }

/-- Takes a thread to another point. -/
def setPc (t : Nat) (p : Pc) : Cache := { s with pc := update s.pc t p }

/-- The first loop of `bufcache_get`. Reference: `bufcache_get` (`kern/fs/bufcache.c:71`). -/
def find (dev sector : Nat) : Option (Option Nat) :=
  scan s.links.next nBuf (fun b => decide ((s.buf b).key = (dev, sector))) (nBuf + 1)
    (s.links.next nBuf)

/-- The second loop of `bufcache_get`. Reference: `bufcache_get` (`kern/fs/bufcache.c:84`). -/
def victim : Option (Option Nat) :=
  scan s.links.prev nBuf (fun b => !(s.buf b).busy && !(s.buf b).dirty) (nBuf + 1)
    (s.links.prev nBuf)

/-- The thread `t` gets a buffer, which is then `v`. -/
def take (t b : Nat) (v : DiskBuf) : Cache :=
  { s.setBuf b v with held := update s.held t (insert b (s.held t)) }

/-- From the label `loop` on: returns the buffer for the sector, or recycles one, or sleeps.
Reference: `bufcache_get` (`kern/fs/bufcache.c:63`). -/
def bufcacheGet (t dev sector : Nat) : Option (Nat × Cache) := do
  match ← s.find dev sector with
  | some b =>
    if (s.buf b).busy then none
    else some (b, s.take t b { s.buf b with busy := true })
  | none =>
    match ← s.victim with
    | some b =>
      some (b, s.take t b
        { s.buf b with dev, sector, busy := true, valid := false, dirty := false })
    | none => none

/-- Puts a request for the disk into the queue, up to the wait for its end. Reference: `ide_rw`
(`kern/dev/disk/ide.c:116`). -/
def ideRw (b : Nat) : Option Cache :=
  if (s.buf b).busy = false then none
  else if (s.buf b).Synced then none
  else if (s.buf b).dev ≠ 0 ∧ s.havedisk1 = false then none
  else some { s with idequeue := s.idequeue ++ [b] }

/-- The disk has served the first request. Reference: `ide_intr` (`kern/dev/disk/ide.c:82`), with
the transfer of `ide_start`. -/
def ideIntr : Cache :=
  match s.idequeue with
  | [] => s
  | b :: q =>
    let v := s.buf b
    if v.dirty then
      { s.setBuf b { v with valid := true, dirty := false } with
        idequeue := q, disk := update s.disk v.key v.data }
    else { s.setBuf b { v with data := s.disk v.key, valid := true } with idequeue := q }

/-- Assigns to the contents of a buffer. -/
def assign (b : Nat) (data : Block) : Cache :=
  { s.setBuf b { s.buf b with data } with
    modified := update s.modified b true
    stored := update s.stored (s.buf b).key data }

/-- `b->flags |= B_DIRTY`. -/
def markDirty (b : Nat) : Cache :=
  { s.setBuf b { s.buf b with dirty := true } with modified := update s.modified b false }

/-- Up to the wait in `ide_rw`. Reference: `bufcache_write` (`kern/fs/bufcache.c:114`). -/
def bufcacheWrite (b : Nat) : Option Cache :=
  if (s.buf b).busy = false then none else (s.markDirty b).ideRw b

/-- Reference: `bufcache_release` (`kern/fs/bufcache.c:127`). -/
def bufcacheRelease (t b : Nat) : Option Cache :=
  if (s.buf b).busy = false then none
  else some { s.setBuf b { s.buf b with busy := false } with
    links := (s.links.unlink b).pushFront nBuf b
    held := update s.held t ((s.held t).erase b) }

/-- The end of `log_write`: `log.lh.n++` for a slot that is new. -/
def logAppend (i : Nat) : Cache :=
  if i = s.log.n then { s with log := { s.log with n := s.log.n + 1 } } else s

/-- `log_write` up to its call of `bufcache_read`. Reference: `log_write` (`kern/fs/log.c:152`). -/
def logWrite (t b : Nat) : Option Cache :=
  if logSize ≤ s.log.n ∨ s.log.size ≤ s.log.n + 1 then none
  else if s.log.busy = false then none
  else
    let i := s.log.slotOf (s.buf b).sector
    some ({ s with log := { s.log with sector := update s.log.sector i (s.buf b).sector } }.setPc t
      (.get (.logWrite b i) (s.buf b).dev (s.log.start + i + 1)))

/-- A thread goes on in its call, unless it sleeps. -/
def run (t : Nat) : Option Cache :=
  match s.pc t with
  | .idle => none
  | .get c dev sector => do
    let (b, s) ← s.bufcacheGet t dev sector
    return s.setPc t (.got c dev sector b)
  | .got c dev sector b =>
    if (s.buf b).valid then some (s.setPc t (.read c dev sector b))
    else do return (← s.ideRw b).setPc t (.reading c dev sector b)
  | .reading c dev sector b =>
    if (s.buf b).Synced then some (s.setPc t (.read c dev sector b)) else none
  | .read .client _ _ _ => some (s.setPc t .idle)
  | .read (.logWrite b i) _ _ lbuf => do
    -- `memmove(lbuf->data, b->data, BSIZE)`
    return (← (s.assign lbuf (s.buf b).data).bufcacheWrite lbuf).setPc
      t (.writing (.logWrite b i) lbuf)
  | .writing .client b => if (s.buf b).Synced then some (s.setPc t .idle) else none
  | .writing (.logWrite b i) lbuf =>
    if (s.buf lbuf).Synced then do return (← s.bufcacheRelease t lbuf).setPc t (.logged b i)
    else none
  | .logged b i => some (((s.logAppend i).markDirty b).setPc t .idle)

/-- A thread that is in no call has the buffer. -/
def Free (t b : Nat) : Prop := s.pc t = .idle ∧ b ∈ s.held t

instance (t b : Nat) : Decidable (s.Free t b) := inferInstanceAs (Decidable (_ ∧ _))

end Cache

/-- What happens to the cache. -/
inductive CacheAct where
  /-- Thread `t` calls `bufcache_read`. -/
  | read (t dev sector : Nat)
  /-- Thread `t` modifies a buffer. -/
  | assign (t b : Nat) (data : Block)
  /-- Thread `t` calls `bufcache_write`. -/
  | write (t b : Nat)
  /-- Thread `t` calls `log_write`. -/
  | logWrite (t b : Nat)
  /-- Thread `t` calls `bufcache_release`. -/
  | release (t b : Nat)
  /-- Thread `t` goes on in its call. -/
  | run (t : Nat)
  /-- An interrupt of the disk. -/
  | intr
  /-- `log.busy = busy`, in `begin_trans` and `commit_trans`. -/
  | setBusy (busy : Bool)
  /-- `log.lh.n = 0`, in `commit_trans`. -/
  | clearLog

/-- The threads, the cache and the disk. A thread modifies and passes on only buffers that it
holds, and passes a modified buffer to `bufcache_write` or `log_write` before it releases it. -/
def cacheMachine : Machine Cache CacheAct where
  Init s :=
    (∃ k, s.links = bufcacheInit k) ∧
    (∀ b, (s.buf b).key = (noDev, 0) ∧ (s.buf b).busy = false ∧ (s.buf b).valid = false ∧
      (s.buf b).dirty = false) ∧
    s.idequeue = [] ∧ (∀ t, s.pc t = .idle ∧ s.held t = ∅) ∧ (∀ b, s.modified b = false) ∧
    s.stored = s.disk
  step s
    | .read t dev sector =>
      if s.pc t = .idle then some (s.setPc t (.get .client dev sector)) else none
    | .assign t b data => if s.Free t b then some (s.assign b data) else none
    | .write t b =>
      if s.Free t b then do return (← s.bufcacheWrite b).setPc t (.writing .client b) else none
    | .logWrite t b => if s.Free t b then s.logWrite t b else none
    | .release t b => if s.Free t b ∧ s.modified b = false then s.bufcacheRelease t b else none
    | .run t => s.run t
    | .intr => some s.ideIntr
    | .setBusy busy => some { s with log := { s.log with busy } }
    | .clearLog => some { s with log := { s.log with n := 0 } }

end MCertikos
