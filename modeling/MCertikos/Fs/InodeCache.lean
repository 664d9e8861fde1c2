import MCertikos.Fs.Ops

/-!
# The inode cache

The critical sections of `kern/fs/inode.c` on `inode_cache`, each under `inode_cache.lock`.
-/

namespace MCertikos

open Function

/-- Reference: `inode_cache.inode` (`kern/fs/inode.c:20`). -/
abbrev InodeCache := Nat → Inode

/-- What the scan of `inode_get` finds. -/
inductive Scan where
  /-- An entry in use for this inode. -/
  | hit (ip : Nat)
  /-- No such entry, and a free one. -/
  | empty (ip : Nat)
  /-- Neither. -/
  | full
  deriving DecidableEq

namespace InodeCache

variable (c : InodeCache) {dev inum : Nat} {l : List Nat} {e : Option Nat}

/-- The scan of `inode_get`, which looks for the inode and remembers the first free entry.
Reference: `inode_get` (`kern/fs/inode.c:95`). -/
def scan (dev inum : Nat) : List Nat → Option Nat → Scan
  | [], some e => .empty e
  | [], none => .full
  | ip :: ips, e =>
    if 0 < (c ip).ref ∧ (c ip).dev = dev ∧ (c ip).inum = inum then .hit ip
    else scan dev inum ips (if e = none ∧ (c ip).ref = 0 then some ip else e)

variable {c}

/-- A hit is an entry in use for the inode. -/
theorem scan_hit {ip : Nat} (h : c.scan dev inum l e = .hit ip) :
    ip ∈ l ∧ 0 < (c ip).ref ∧ (c ip).dev = dev ∧ (c ip).inum = inum := by
  induction l generalizing e with
  | nil => cases e <;> cases h
  | cons j l ih =>
    rw [scan] at h
    split_ifs at h with hj
    · cases h
      exact ⟨List.mem_cons_self, hj⟩
    · exact ⟨List.mem_cons_of_mem j (ih h).1, (ih h).2⟩
    · exact ⟨List.mem_cons_of_mem j (ih h).1, (ih h).2⟩

/-- An entry is recycled when none is in use for the inode, and only if it is free. -/
theorem scan_empty {ip : Nat} (h : c.scan dev inum l e = .empty ip) :
    (∀ j ∈ l, ¬ (0 < (c j).ref ∧ (c j).dev = dev ∧ (c j).inum = inum)) ∧
      (e = some ip ∨ ip ∈ l ∧ (c ip).ref = 0) := by
  induction l generalizing e with
  | nil =>
    cases e with
    | none => cases h
    | some e =>
      cases h
      exact ⟨fun j hj => absurd hj List.not_mem_nil, .inl rfl⟩
  | cons j l ih =>
    rw [scan] at h
    split_ifs at h with hj he
    · obtain ⟨hno, hip⟩ := ih h
      refine ⟨List.forall_mem_cons.2 ⟨hj, hno⟩, .inr ?_⟩
      rcases hip with hip | hip
      · cases hip
        exact ⟨List.mem_cons_self, he.2⟩
      · exact ⟨List.mem_cons_of_mem j hip.1, hip.2⟩
    · obtain ⟨hno, hip⟩ := ih h
      exact ⟨List.forall_mem_cons.2 ⟨hj, hno⟩,
        hip.imp_right fun hip => ⟨List.mem_cons_of_mem j hip.1, hip.2⟩⟩

/-- The table is full when every entry is in use for another inode. -/
theorem scan_full (h : c.scan dev inum l e = .full) :
    e = none ∧ ∀ j ∈ l, (c j).ref ≠ 0 ∧
    ¬ (0 < (c j).ref ∧ (c j).dev = dev ∧ (c j).inum = inum) := by
  induction l generalizing e with
  | nil =>
    cases e with
    | none => exact ⟨rfl, fun j hj => absurd hj List.not_mem_nil⟩
    | some e => cases h
  | cons j l ih =>
    rw [scan] at h
    split_ifs at h with hj he
    · exact absurd (ih h).1 nofun
    · obtain ⟨rfl, hl⟩ := ih h
      exact ⟨rfl, List.forall_mem_cons.2 ⟨⟨fun h0 => he ⟨rfl, h0⟩, hj⟩, hl⟩⟩

variable (c)

/-- The cache and the entry that `inode_get` returns, or none when it panics. Reference:
`inode_get` (`kern/fs/inode.c:89`). -/
def inodeGet (dev inum : Nat) : Option (InodeCache × Nat) :=
  match scan c dev inum (List.range nInode) none with
  | .hit ip => some (update c ip { c ip with ref := (c ip).ref + 1 }, ip)
  | .empty ip =>
    some (update c ip
      { c ip with dev, inum, ref := 1, busy := false, valid := false, flock := flockInit }, ip)
  | .full => none

/-- Reference: `inode_dup` (`kern/fs/inode.c:128`). -/
def inodeDup (ip : Nat) : InodeCache := update c ip { c ip with ref := (c ip).ref + 1 }

/-- Sets and clears `I_BUSY`. -/
def setBusy (ip : Nat) (busy : Bool) : InodeCache := update c ip { c ip with busy }

/-- `ip->flags |= I_VALID`. -/
def setValid (ip : Nat) : InodeCache := update c ip { c ip with valid := true }

/-- Assigns to the copy of the disk inode. -/
def setDin (ip : Nat) (din : Dinode) : InodeCache := update c ip { c ip with din }

/-- The test of `inode_put`: this is the last reference to an inode without links. Reference:
`inode_put` (`kern/fs/inode.c:195`). -/
def Last (ip : Nat) : Prop := (c ip).ref = 1 ∧ (c ip).valid = true ∧ (c ip).din.nlink = 0

instance (ip : Nat) : Decidable (c.Last ip) := inferInstanceAs (Decidable (_ ∧ _ ∧ _))

/-- `ip->ref--`. -/
def dropRef (ip : Nat) : InodeCache := update c ip { c ip with ref := (c ip).ref - 1 }

/-- The end of `inode_put` after the inode was freed: `ip->flags = 0`, `ip->ref--`. -/
def dropFreed (ip : Nat) : InodeCache :=
  update c ip { c ip with busy := false, valid := false, ref := (c ip).ref - 1 }

/-- `flock_release` on the lock object of an entry. -/
def flockRelease (ip : Nat) (lockType : BitVec 32) : InodeCache :=
  update c ip { c ip with flock := ((c ip).flock.flockRelease lockType).1 }

end InodeCache

end MCertikos
