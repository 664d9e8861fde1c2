import MCertikos.Fs.State

/-!
# Disk buffers as a store

What the buffer cache implements: a store of sector contents, some of which are locked by a thread
(`busy`), some pinned in memory until they are written (`dirty`), and some changed by the thread
that holds them and not yet passed on to `log_write` or `bufcache_write` (`modified`). Which buffer
holds which sector does not show; only the number of buffers does, since locked and dirty sectors
cannot be evicted. The store also keeps the disk behind it, and the sectors written to it so far,
in order.
-/

namespace MCertikos

open Program

/-- A disk: the contents of its sectors. -/
abbrev Disk := Nat → Block

/-- The disk after some sector writes, the first one first. -/
def Disk.apply (d : Disk) (writes : List (Nat × Block)) : Disk :=
  writes.foldl (fun d w => Function.update d w.1 w.2) d

/-- The state of the store. -/
structure Store where
  data : Nat → Block
  busy : Finset Nat
  dirty : Finset Nat
  modified : Finset Nat
  disk : Disk
  writes : List (Nat × Block)

namespace Store

/-- A sector is locked unless it is locked already, and unless every buffer is needed for another
sector. -/
def bread (sector : Nat) (b : Store) : Outcome Panic Store Block :=
  if sector ∈ b.busy then .blocked b
  else if sector ∉ b.dirty ∧ nBuf ≤ (b.busy ∪ b.dirty).card then .panic .noBuffers b
  else .ok (b.data sector) { b with busy := insert sector b.busy }

/-- The contents of a locked sector. -/
def bget (sector : Nat) (b : Store) : Outcome Panic Store Block :=
  if sector ∈ b.busy then .ok (b.data sector) b else .panic .misuse b

/-- New contents for a locked sector. -/
def bset (sector : Nat) (data : Block) (b : Store) : Outcome Panic Store Unit :=
  if sector ∈ b.busy then
    .ok () { b with
      data := Function.update b.data sector data
      modified := insert sector b.modified }
  else .panic .misuse b

/-- A locked sector is written to disk. -/
def bwrite (sector : Nat) (b : Store) : Outcome Panic Store Unit :=
  if sector ∈ b.busy then
    .ok () { b with
      dirty := b.dirty.erase sector
      modified := b.modified.erase sector
      disk := Function.update b.disk sector (b.data sector)
      writes := b.writes ++ [(sector, b.data sector)] }
  else .panic .bwrite b

/-- A locked sector is unlocked. -/
def brelse (sector : Nat) (b : Store) : Outcome Panic Store Unit :=
  if sector ∈ b.busy then
    if sector ∈ b.modified then .panic .unsaved b
    else .ok () { b with busy := b.busy.erase sector }
  else .panic .brelse b

/-- A locked sector is pinned in memory. -/
def bdirty (sector : Nat) (b : Store) : Outcome Panic Store Unit :=
  if sector ∈ b.busy then
    .ok () { b with dirty := insert sector b.dirty, modified := b.modified.erase sector }
  else .panic .misuse b

/-- The store as a layer of disk buffers. -/
def layer : BufLayer Store where
  bread := bread
  bget := bget
  bset := bset
  bwrite := bwrite
  brelse := brelse
  bdirty := bdirty

/-- What is neither dirty nor being changed is on the disk, and only locked sectors are changed. -/
structure Ok (b : Store) : Prop where
  clean : ∀ sector, sector ∉ b.dirty → sector ∉ b.modified → b.data sector = b.disk sector
  locked : b.modified ⊆ b.busy

end Store

end MCertikos
