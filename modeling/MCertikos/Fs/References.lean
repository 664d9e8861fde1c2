import MCertikos.Fs.BufCache
import MCertikos.Fs.Mkfs
import MCertikos.Fs.Owning

/-!
# The reference counts of the inode cache

In every interleaving of file system calls, the reference count of an entry of the inode cache is
the number of its owners (`Accounted`), so that an entry with an open file is never recycled, and
no two entries in use are for the same inode. So all open files of an inode have the same lock
object, and it is never initialised while one of them is open.
-/

namespace MCertikos

open Program Transition Function

/-! ## Accounting -/

/-- The sum of a quantity over all processes. -/
def total (g : Nat → Own) (F : Own → Nat) : Nat := ∑ pid ∈ Finset.range numIds, F (g pid)

/-- The entries in use are in the table, and no two of them are for the same inode. -/
structure InodeCache.Unique (c : InodeCache) : Prop where
  lt : ∀ i, 0 < (c i).ref → i < nInode
  eq : ∀ i j, 0 < (c i).ref → 0 < (c j).ref → (c i).dev = (c j).dev → (c i).inum =
    (c j).inum → i = j

namespace InodeCache.Unique

/-- A change that neither takes a free entry into use nor renames one in use. -/
theorem mono {c c' : InodeCache} (h : c.Unique)
    (hle : ∀ i, 0 < (c' i).ref →
      0 < (c i).ref ∧ (c' i).dev = (c i).dev ∧ (c' i).inum = (c i).inum) : c'.Unique := by
  refine ⟨fun i hi => h.lt i (hle i hi).1, fun i j hri hrj hdev hinum => ?_⟩
  obtain ⟨hri', hdi, hni⟩ := hle i hri
  obtain ⟨hrj', hdj, hnj⟩ := hle j hrj
  exact h.eq i j hri' hrj' (hdi ▸ hdj ▸ hdev) (hni ▸ hnj ▸ hinum)

/-- An entry that is taken into use for an inode which no other entry is for. -/
theorem recycle {c : InodeCache} (h : c.Unique) {dev inum ip : Nat} {v : Inode} (hip : ip < nInode)
    (hno : ∀ j < nInode, ¬ (0 < (c j).ref ∧ (c j).dev = dev ∧ (c j).inum = inum))
    (hdev : v.dev = dev) (hinum : v.inum = inum) :
    InodeCache.Unique (update c ip v) := by
  refine ⟨fun i hi => ?_, fun i j hri hrj hd hn => ?_⟩
  · rcases eq_or_ne i ip with rfl | hne
    · exact hip
    · rw [update_of_ne hne] at hi
      exact h.lt i hi
  · rcases eq_or_ne i ip with rfl | hine
    · rcases eq_or_ne j i with rfl | hjne
      · rfl
      · simp only [update_self, update_of_ne hjne] at hrj hd hn
        exact absurd ⟨hrj, hd.symm.trans hdev, hn.symm.trans hinum⟩ (hno j (h.lt j hrj))
    · rcases eq_or_ne j ip with rfl | hjne
      · simp only [update_self, update_of_ne hine] at hri hd hn
        exact absurd ⟨hri, hd.trans hdev, hn.trans hinum⟩ (hno i (h.lt i hri))
      · simp only [update_of_ne hine, update_of_ne hjne] at hri hrj hd hn
        exact h.eq i j hri hrj hd hn

end InodeCache.Unique

/-- A file that is allocated and has no inode yet. -/
def File.Fresh (f : File) : Prop := f.ref = 1 ∧ f.type ≠ .inode

/-- A file that is open on an inode. -/
def File.Open (f : File) : Prop := f.type = .inode

instance (f : File) : Decidable f.Fresh := inferInstanceAs (Decidable (_ ∧ _))

instance (f : File) : Decidable f.Open := inferInstanceAs (Decidable (_ = _))

/-- The number of open files of an entry of the inode cache. -/
def opens (file : Nat → File) (ip : Nat) : Nat :=
  ∑ f ∈ Finset.range nFile, if (file f).Open ∧ (file f).ip = ip then 1 else 0

section
variable {g : Nat → Own} {pid : Nat}

/-- A change of what one process owns. -/
theorem total_update (hp : pid < numIds) (t : Own) (F : Own → Nat) :
    total (update g pid t) F + F (g pid) = total g F + F t :=
  Table.sum_range_update hp F g t

theorem le_total (hp : pid < numIds) (F : Own → Nat) : F (g pid) ≤ total g F :=
  Finset.single_le_sum (fun q _ => Nat.zero_le (F (g q))) (Finset.mem_range.2 hp)

/-- A change of one file. -/
theorem opens_update (file : Nat → File) {f : Nat} (hf : f < nFile) (v : File) (ip : Nat) :
    opens (update file f v) ip +
        (if (file f).Open ∧ (file f).ip = ip then 1 else 0) =
      opens file ip + if v.Open ∧ v.ip = ip then 1 else 0 :=
  Table.sum_range_update hf (fun x : File => if x.Open ∧ x.ip = ip then 1 else 0) file v

theorem opens_pos {file : Nat → File} {f : Nat} (hf : f < nFile) (hopen : (file f).Open) :
    0 < opens file (file f).ip := by
  have hle := Finset.single_le_sum
    (fun x _ => Nat.zero_le (if (file x).Open ∧ (file x).ip = (file f).ip then 1 else 0))
    (Finset.mem_range.2 hf)
  rw [if_pos ⟨hopen, rfl⟩] at hle
  exact hle

end

section
variable {B : Type}

/-- Every reference and every file has its owner. -/
structure Accounted (s : FsState B) (g : Nat → Own) : Prop where
  desc : ∀ pid, (g pid).desc = s.openfiles pid
  cwd : ∀ pid, (g pid).cwd = s.cwd pid
  ref : ∀ ip, (s.inode ip).ref = total g (·.refs.count ip) + opens s.file ip
  fresh : ∀ f, total g (·.fresh.count f) = if (s.file f).Fresh then 1 else 0
  files : ∀ f, total g (·.files.count f) = if (s.file f).Open then 1 else 0
  file : ∀ f, (s.file f).ref = 0 ∧ ¬ (s.file f).Open ∨ (s.file f).ref = 1 ∧ f < nFile
  unique : s.inode.Unique

/-- Two states that differ in nothing that is accounted. -/
structure FsState.SameOwners (s u : FsState B) : Prop where
  inode : ∀ ip, (u.inode ip).ref = (s.inode ip).ref ∧ (u.inode ip).dev = (s.inode ip).dev ∧
    (u.inode ip).inum = (s.inode ip).inum
  file : ∀ f, (u.file f).ref = (s.file f).ref ∧ (u.file f).type = (s.file f).type ∧
    (u.file f).ip = (s.file f).ip
  openfiles : u.openfiles = s.openfiles
  cwd : u.cwd = s.cwd

namespace FsState.SameOwners

variable {s u : FsState B}

theorem refl : s.SameOwners s := ⟨fun _ => ⟨rfl, rfl, rfl⟩, fun _ => ⟨rfl, rfl, rfl⟩, rfl, rfl⟩

theorem of_only {p : FsPart} (h : s.Only p u) (hp : p = .bufs ∨ p = .log) : s.SameOwners u := by
  have hrest : p ≠ .inode ∧ p ≠ .file ∧ p ≠ .table := by rcases hp with rfl | rfl <;> simp
  obtain ⟨hfiles, hcwd⟩ := h.table hrest.2.2
  refine ⟨fun ip => ?_, fun f => ?_, hfiles, hcwd⟩
  · rw [h.inode hrest.1]
    exact ⟨rfl, rfl, rfl⟩
  · rw [h.file hrest.2.1]
    exact ⟨rfl, rfl, rfl⟩

theorem of_inode {ip : Nat} {v : Inode} (href : v.ref = (s.inode ip).ref)
    (hdev : v.dev = (s.inode ip).dev) (hinum : v.inum = (s.inode ip).inum) :
    s.SameOwners { s with inode := update s.inode ip v } := by
  refine ⟨fun i => ?_, fun _ => ⟨rfl, rfl, rfl⟩, rfl, rfl⟩
  rcases eq_or_ne i ip with rfl | hne
  · simp [href, hdev, hinum]
  · simp [update_of_ne hne]

theorem of_file {f : Nat} {v : File} (href : v.ref = (s.file f).ref)
    (htype : v.type = (s.file f).type) (hip : v.ip = (s.file f).ip) :
    s.SameOwners { s with file := update s.file f v } := by
  refine ⟨fun _ => ⟨rfl, rfl, rfl⟩, fun i => ?_, rfl, rfl⟩
  rcases eq_or_ne i f with rfl | hne
  · simp [href, htype, hip]
  · simp [update_of_ne hne]

end FsState.SameOwners

/-- An element that is taken out of a multiset. -/
theorem count_erase_add {R : Multiset Nat} {a : Nat} (h : a ∈ R) (x : Nat) :
    (R.erase a).count x + (if x = a then 1 else 0) = R.count x := by
  rw [← Multiset.count_cons, Multiset.cons_erase h]

namespace Accounted

variable {s u : FsState B} {g : Nat → Own} {pid : Nat}

section
variable (h : Accounted s g)
include h

theorem congr (hu : s.SameOwners u) : Accounted u g where
  desc := by rw [hu.openfiles]; exact h.desc
  cwd := by rw [hu.cwd]; exact h.cwd
  ref ip := by
    have : opens u.file ip = opens s.file ip :=
      Finset.sum_congr rfl fun f _ =>
        if_congr (by rw [File.Open, File.Open, (hu.file f).2.1, (hu.file f).2.2]) rfl rfl
    rw [this, (hu.inode ip).1, h.ref]
  fresh f := by simp only [File.Fresh, hu.file f]; exact h.fresh f
  files f := by simp only [File.Open, hu.file f]; exact h.files f
  file f := by simp only [File.Open, hu.file f]; exact h.file f
  unique := h.unique.mono fun i hi => by rwa [(hu.inode i).1, and_iff_left (hu.inode i).2] at *

theorem ref_pos (hp : pid < numIds) {ip : Nat} (hip : ip ∈ (g pid).refs) :
    0 < (s.inode ip).ref := by
  have hle := le_total hp (·.refs.count ip) (g := g)
  have hpos := Multiset.count_pos.2 hip
  rw [h.ref]
  omega

theorem file_fresh (hp : pid < numIds) {f : Nat} (hf : f ∈ (g pid).fresh) : (s.file f).Fresh := by
  by_contra hno
  have hle := le_total hp (·.fresh.count f) (g := g)
  have hpos := Multiset.count_pos.2 hf
  rw [h.fresh, if_neg hno] at hle
  omega

theorem file_open (hp : pid < numIds) {f : Nat} (hf : f ∈ (g pid).files) : (s.file f).Open := by
  by_contra hno
  have hle := le_total hp (·.files.count f) (g := g)
  have hpos := Multiset.count_pos.2 hf
  rw [h.files, if_neg hno] at hle
  omega

/-- A file in use is in the table, and has one owner. -/
theorem file_one {f : Nat} (hf : (s.file f).Fresh ∨ (s.file f).Open) :
    (s.file f).ref = 1 ∧ f < nFile := by
  rcases h.file f with ⟨h0, hno⟩ | h1
  · rcases hf with hf | hf
    · exact absurd (hf.1.symm.trans h0) (by decide)
    · exact absurd hf hno
  · exact h1

section
variable (hp : pid < numIds)
include hp

/-- The process takes or gives references. -/
theorem refs {c : InodeCache} {R : Multiset Nat}
    (hR : ∀ ip, (c ip).ref + (g pid).refs.count ip = (s.inode ip).ref + R.count ip)
    (hc : c.Unique) :
    Accounted { s with inode := c } (update g pid { g pid with refs := R }) where
  desc q := by
    rcases eq_or_ne q pid with rfl | hne
    · simp [h.desc]
    · simp [update_of_ne hne, h.desc]
  cwd q := by
    rcases eq_or_ne q pid with rfl | hne
    · simp [h.cwd]
    · simp [update_of_ne hne, h.cwd]
  ref ip := by
    have hsum := total_update hp { g pid with refs := R } (·.refs.count ip) (g := g)
    have href := h.ref ip
    have := hR ip
    dsimp only at hsum ⊢
    omega
  fresh f := by
    rw [← h.fresh]
    exact Nat.add_right_cancel (total_update hp { g pid with refs := R } (·.fresh.count f))
  files f := by
    rw [← h.files]
    exact Nat.add_right_cancel (total_update hp { g pid with refs := R } (·.files.count f))
  file := h.file
  unique := hc

/-- The process changes its descriptor table or its working directory. -/
theorem tables {t : Own} (hinode : u.inode = s.inode) (hfile : u.file = s.file)
    (hopen : u.openfiles = update s.openfiles pid t.desc) (hcwd : u.cwd = update s.cwd pid t.cwd)
    (hrefs : t.refs = (g pid).refs) (hfresh : t.fresh = (g pid).fresh)
    (hfiles : t.files = (g pid).files) :
    Accounted u (update g pid t) where
  desc q := by
    rw [hopen]
    rcases eq_or_ne q pid with rfl | hne
    · simp
    · simp [update_of_ne hne, h.desc]
  cwd q := by
    rw [hcwd]
    rcases eq_or_ne q pid with rfl | hne
    · simp
    · simp [update_of_ne hne, h.cwd]
  ref ip := by
    have hsum := total_update hp t (·.refs.count ip) (g := g)
    rw [hinode, hfile, h.ref, Nat.add_right_cancel (hsum.trans (by rw [hrefs]))]
  fresh f := by
    have hsum := total_update hp t (·.fresh.count f) (g := g)
    rw [hfile, ← h.fresh, Nat.add_right_cancel (hsum.trans (by rw [hfresh]))]
  files f := by
    have hsum := total_update hp t (·.files.count f) (g := g)
    rw [hfile, ← h.files, Nat.add_right_cancel (hsum.trans (by rw [hfiles]))]
  file := by rw [hfile]; exact h.file
  unique := by rw [hinode]; exact h.unique

/-- `inode_get` gives the process a reference. -/
theorem inodeGet {dev inum ip : Nat} {c : InodeCache}
    (hget : s.inode.inodeGet dev inum = some (c, ip)) :
    ip < nInode ∧ Accounted { s with inode := c } (update g pid ((g pid).take ip)) := by
  unfold InodeCache.inodeGet at hget
  have hcount : ∀ v : Inode, v.ref = (s.inode ip).ref + 1 → ∀ x,
      (update s.inode ip v x).ref + (g pid).refs.count x =
        (s.inode x).ref + (ip ::ₘ (g pid).refs).count x := by
    intro v hv x
    rw [Multiset.count_cons]
    rcases eq_or_ne x ip with rfl | hne
    · simp only [update_self, hv, if_true]
      omega
    · simp [hne]
  split at hget
  case h_1 ip' hscan =>
    obtain ⟨hmem, hpos, -⟩ := InodeCache.scan_hit hscan
    cases hget
    refine ⟨List.mem_range.1 hmem, h.refs hp (hcount _ rfl) (h.unique.mono fun i hi => ?_)⟩
    rcases eq_or_ne i ip with rfl | hne
    · simp [hpos]
    · simpa [update_of_ne hne] using hi
  case h_2 ip' hscan =>
    obtain ⟨hno, hfree⟩ := InodeCache.scan_empty hscan
    cases hget
    obtain ⟨hmem, hzero⟩ := hfree.resolve_left nofun
    refine ⟨List.mem_range.1 hmem, h.refs hp (hcount _ (by rw [hzero]; rfl)) ?_⟩
    exact h.unique.recycle (List.mem_range.1 hmem)
      (fun j hj => hno j (List.mem_range.2 hj)) rfl rfl
  case h_3 => cases hget

/-- `inode_dup` gives the process another reference. -/
theorem inodeDup {ip : Nat} (hip : ip ∈ (g pid).refs) :
    Accounted { s with inode := s.inode.inodeDup ip }
      (update g pid ((g pid).take ip)) := by
  refine h.refs hp (fun x => ?_) (h.unique.mono fun i hi => ?_)
  · rw [Multiset.count_cons, InodeCache.inodeDup]
    rcases eq_or_ne x ip with rfl | hne
    · simp only [update_self, if_true]
      omega
    · simp [hne]
  · rcases eq_or_ne i ip with rfl | hne
    · simp [InodeCache.inodeDup, h.ref_pos hp hip]
    · simpa [InodeCache.inodeDup, update_of_ne hne] using hi

/-- The process gives up a reference. -/
theorem dropRef {ip : Nat} (hip : ip ∈ (g pid).refs) {v : Inode}
    (href : v.ref = (s.inode ip).ref - 1) (hdev : v.dev = (s.inode ip).dev)
    (hinum : v.inum = (s.inode ip).inum) :
    Accounted { s with inode := update s.inode ip v }
      (update g pid ((g pid).drop ip)) := by
  refine h.refs hp (fun x => ?_) (h.unique.mono fun i hi => ?_)
  · have := count_erase_add hip x
    rcases eq_or_ne x ip with rfl | hne
    · simp only [update_self, href, if_true] at this ⊢
      omega
    · simp only [update_of_ne hne, hne, if_false] at this ⊢
      omega
  · rcases eq_or_ne i ip with rfl | hne
    · simp only [update_self] at hi ⊢
      exact ⟨h.ref_pos hp hip, hdev, hinum⟩
    · simpa [update_of_ne hne] using hi

/-- One file changes hands. -/
theorem setFile {f : Nat} (hf : f < nFile) {v : File} {t : Own} (hdesc : t.desc = (g pid).desc)
    (hcwd : t.cwd = (g pid).cwd)
    (hrefs : ∀ ip, t.refs.count ip + (if v.Open ∧ v.ip = ip then 1 else 0) =
      (g pid).refs.count ip + if (s.file f).Open ∧ (s.file f).ip = ip then 1 else 0)
    (hfresh : ∀ x, t.fresh.count x + (if x = f ∧ (s.file f).Fresh then 1 else 0) =
      (g pid).fresh.count x + if x = f ∧ v.Fresh then 1 else 0)
    (hfiles : ∀ x, t.files.count x + (if x = f ∧ (s.file f).Open then 1 else 0) =
      (g pid).files.count x + if x = f ∧ v.Open then 1 else 0)
    (hv : v.ref = 0 ∧ ¬ v.Open ∨ v.ref = 1) :
    Accounted { s with file := update s.file f v } (update g pid t) where
  desc q := by
    rcases eq_or_ne q pid with rfl | hne
    · simp [hdesc, h.desc]
    · simp [update_of_ne hne, h.desc]
  cwd q := by
    rcases eq_or_ne q pid with rfl | hne
    · simp [hcwd, h.cwd]
    · simp [update_of_ne hne, h.cwd]
  ref ip := by
    have hsum := total_update hp t (·.refs.count ip) (g := g)
    have hopens := opens_update s.file hf v ip
    have href := h.ref ip
    have := hrefs ip
    dsimp only at hsum ⊢
    omega
  fresh x := by
    have hsum := total_update hp t (·.fresh.count x) (g := g)
    have hold := h.fresh x
    have := hfresh x
    dsimp only at hsum ⊢
    rcases eq_or_ne x f with rfl | hne
    · simp only [update_self, true_and] at this ⊢
      omega
    · simp only [update_of_ne hne, hne, false_and, if_false] at this ⊢
      omega
  files x := by
    have hsum := total_update hp t (·.files.count x) (g := g)
    have hold := h.files x
    have := hfiles x
    dsimp only at hsum ⊢
    rcases eq_or_ne x f with rfl | hne
    · simp only [update_self, true_and] at this ⊢
      omega
    · simp only [update_of_ne hne, hne, false_and, if_false] at this ⊢
      omega
  file x := by
    rcases eq_or_ne x f with rfl | hne
    · simp only [update_self]
      exact hv.imp_right fun h1 => ⟨h1, hf⟩
    · simp only [update_of_ne hne]
      exact h.file x
  unique := h.unique

/-- `file_alloc` gives the process a fresh file. -/
theorem fileAlloc {f : Nat} (halloc : s.fileAlloc.2 = some f) : f < nFile ∧ Accounted s.fileAlloc.1
      (update g pid { g pid with fresh := f ::ₘ (g pid).fresh }) := by
  unfold FsState.fileAlloc at halloc ⊢
  split at halloc
  case h_2 => cases halloc
  case h_1 f' hfind =>
    cases halloc
    have hlt : f < nFile := List.mem_range.1 (List.mem_of_find?_eq_some hfind)
    have hzero : (s.file f).ref = 0 := by simpa using List.find?_some hfind
    have hclosed : ¬ (s.file f).Open := by
      intro ho
      have := (h.file_one (.inr ho)).1
      omega
    have hfree : ¬ (s.file f).Fresh := fun ho => absurd (hzero.symm.trans ho.1) (by decide)
    refine ⟨hlt, h.setFile hp hlt rfl rfl (fun ip => ?_) (fun x => ?_) (fun x => ?_) (.inr rfl)⟩
    · rw [if_neg fun ho => hclosed ho.1, if_neg fun ho => hclosed ho.1]
    · rw [Multiset.count_cons, if_neg (c := x = f ∧ (s.file f).Fresh) fun ho => hfree ho.2]
      exact congrArg _ (if_congr ⟨fun hx => ⟨hx, rfl, hclosed⟩, And.left⟩ rfl rfl)
    · rw [if_neg fun ho => hclosed ho.2, if_neg fun ho => hclosed ho.2]

end

end

theorem fileAlloc_none (h : s.fileAlloc.2 = none) : s.fileAlloc.1 = s := by
  unfold FsState.fileAlloc at h ⊢
  split at h
  · cases h
  · rfl

/-- The process gives up a fresh file. -/
theorem dropFresh (h : Accounted s g) (hp : pid < numIds) {f : Nat} (hf : f ∈ (g pid).fresh)
    {v : File} (hv : v.ref = 0) (hopen : ¬ v.Open) :
    Accounted { s with file := update s.file f v }
      (update g pid { g pid with fresh := (g pid).fresh.erase f }) := by
  have hfresh := h.file_fresh hp hf
  have hclosed : ¬ (s.file f).Open := hfresh.2
  have hgone : ¬ v.Fresh := fun ho => absurd (hv.symm.trans ho.1) (by decide)
  refine h.setFile hp (h.file_one (.inl hfresh)).2 rfl rfl (fun ip => ?_)
    (fun x => ?_) (fun x => ?_) (.inl ⟨hv, hopen⟩)
  · rw [if_neg fun ho => hopen ho.1, if_neg fun ho => hclosed ho.1]
  · rw [if_neg (c := x = f ∧ v.Fresh) fun ho => hgone ho.2, ← count_erase_add hf x, add_zero]
    exact congrArg _ (if_congr ⟨And.left, fun hx => ⟨hx, hfresh⟩⟩ rfl rfl)
  · rw [if_neg fun ho => hclosed ho.2, if_neg fun ho => hopen ho.2]

/-- The process closes a file and takes over its reference to the inode. -/
theorem dropFile (h : Accounted s g) (hp : pid < numIds) {f : Nat} (hf : f ∈ (g pid).files)
    {v : File} (hv : v.ref = 0) (hopen : ¬ v.Open) :
    Accounted { s with file := update s.file f v }
      (update g pid { g pid with
        files := (g pid).files.erase f, refs := (s.file f).ip ::ₘ (g pid).refs }) := by
  have hwas := h.file_open hp hf
  have hgone : ¬ v.Fresh := fun ho => absurd (hv.symm.trans ho.1) (by decide)
  refine h.setFile hp (h.file_one (.inr hwas)).2 rfl rfl (fun ip => ?_) (fun x => ?_) (fun x => ?_)
    (.inl ⟨hv, hopen⟩)
  · rw [if_neg fun ho => hopen ho.1, Multiset.count_cons, add_zero]
    exact congrArg _ (if_congr ⟨fun hx => ⟨hwas, hx.symm⟩, fun hx => hx.2.symm⟩ rfl rfl)
  · rw [if_neg fun ho => ho.2.2 hwas, if_neg fun ho => hgone ho.2]
  · rw [if_neg (c := x = f ∧ v.Open) fun ho => hopen ho.2, ← count_erase_add hf x, add_zero]
    exact congrArg _ (if_congr ⟨And.left, fun hx => ⟨hx, hwas⟩⟩ rfl rfl)

/-- The process opens a fresh file on an inode and passes its reference on to the file. -/
theorem openFile (h : Accounted s g) (hp : pid < numIds) {f ip : Nat} (hf : f ∈ (g pid).fresh)
    (hip : ip ∈ (g pid).refs) {v : File} (hv : v.ref = (s.file f).ref) (hopen : v.Open)
    (hvip : v.ip = ip) :
    Accounted { s with file := update s.file f v }
      (update g pid { g pid with
        fresh := (g pid).fresh.erase f, files := f ::ₘ (g pid).files
        refs := (g pid).refs.erase ip }) := by
  have hfresh := h.file_fresh hp hf
  have hclosed : ¬ (s.file f).Open := hfresh.2
  refine h.setFile hp (h.file_one (.inl hfresh)).2 rfl rfl (fun i => ?_)
    (fun x => ?_) (fun x => ?_) (.inr (hv.trans hfresh.1))
  · rw [if_neg (c := (s.file f).Open ∧ (s.file f).ip = i) fun ho => hclosed ho.1,
      ← count_erase_add hip i, add_zero]
    exact congrArg _ (if_congr ⟨fun hx => hx.2.symm.trans hvip, fun hx =>
      ⟨hopen, hvip.trans hx.symm⟩⟩ rfl rfl)
  · rw [if_neg (c := x = f ∧ v.Fresh) fun ho => ho.2.2 hopen, ← count_erase_add hf x, add_zero]
    exact congrArg _ (if_congr ⟨And.left, fun hx => ⟨hx, hfresh⟩⟩ rfl rfl)
  · rw [if_neg fun ho => hclosed ho.2, Multiset.count_cons, add_zero]
    exact congrArg _ (if_congr ⟨fun hx => ⟨hx, hopen⟩, And.left⟩ rfl rfl)

end Accounted

/-! ## Operations -/

/-- The operations take and give references as `ownSpec` says. -/
theorem sound_ownSpec (L : BufLayer B) :
    Sound numIds (fsHandler L) ownSpec Accounted fun _ _ _ => True where
  panic _ h hrun := by
    obtain ⟨b, rfl⟩ := fsHandler_panic hrun
    exact h.congr { FsState.SameOwners.refl with }
  ret := by
    intro pid o s g r u Q hp h _ hQ hrun
    have hsame : s.SameOwners u → Accounted u (update g pid (g pid)) := fun hu => by
      rw [update_eq_self]
      exact h.congr hu
    cases o with
    | bread | bget | bset | bwrite | brelse | bdirty =>
      exact ⟨g pid, hQ r, hsame (.of_only (fsHandler_ok_only hrun) (.inl rfl))⟩
    | logGet | logSetArea | logSetSector | logSetN | logAcquire | logRelease | logCheck =>
      exact ⟨g pid, hQ r, hsame (.of_only (fsHandler_ok_only hrun) (.inr rfl))⟩
    | inodeRead =>
      cases hrun
      exact ⟨g pid, hQ _, hsame .refl⟩
    | fileGet =>
      cases hrun
      exact ⟨g pid, hQ.2 _, hsame .refl⟩
    | inodeGet dev inum =>
      rw [fsHandler] at hrun
      split at hrun
      case h_2 => cases hrun
      case h_1 c ip hget =>
        cases hrun
        obtain ⟨hlt, hacc⟩ := h.inodeGet hp hget
        exact ⟨_, hQ _ hlt, hacc⟩
    | inodeDup ip =>
      cases hrun
      exact ⟨_, hQ.2, h.inodeDup hp hQ.1⟩
    | inodeAcquire ip =>
      rw [fsHandler, FsState.inodeAcquire] at hrun
      split_ifs at hrun
      cases hrun
      exact ⟨g pid, hQ _, hsame (.of_inode rfl rfl rfl)⟩
    | inodeSet | inodeSetValid | flockRelease =>
      cases hrun
      exact ⟨g pid, hQ _, hsame (.of_inode rfl rfl rfl)⟩
    | inodeUnlock ip =>
      rw [fsHandler, FsState.inodeUnlock] at hrun
      split_ifs at hrun
      cases hrun
      exact ⟨g pid, hQ _, hsame (.of_inode rfl rfl rfl)⟩
    | inodePutTest ip =>
      rw [fsHandler, FsState.inodePutTest] at hrun
      split_ifs at hrun
      · cases hrun
        exact ⟨g pid, hQ.2.1, hsame (.of_inode rfl rfl rfl)⟩
      · cases hrun
        exact ⟨_, hQ.2.2, h.dropRef hp hQ.1 rfl rfl rfl⟩
    | inodePutDrop ip =>
      cases hrun
      exact ⟨_, hQ.2, h.dropRef hp hQ.1 rfl rfl rfl⟩
    | fileAlloc =>
      cases hrun
      cases halloc : s.fileAlloc.2 with
      | none =>
        refine ⟨g pid, hQ.1, hsame ?_⟩
        rw [Accounted.fileAlloc_none halloc]
        exact .refl
      | some f =>
        obtain ⟨hlt, hacc⟩ := h.fileAlloc hp halloc
        exact ⟨_, hQ.2 f hlt, hacc⟩
    | fileDrop f =>
      have hone : (s.file f).ref = 1 := hQ.elim
        (fun hf => (h.file_one (.inl (h.file_fresh hp hf.1))).1)
        fun hf => (h.file_one (.inr (h.file_open hp hf.1))).1
      rw [fsHandler, FsState.fileDrop, hone] at hrun
      cases hrun
      rcases hQ with ⟨hf, hQ⟩ | ⟨hf, hQ⟩
      · exact ⟨_, hQ _ (h.file_fresh hp hf).2, h.dropFresh hp hf rfl (by simp [File.Open])⟩
      · exact ⟨_, hQ _ (h.file_open hp hf), h.dropFile hp hf rfl (by simp [File.Open])⟩
    | fileAdvance f n =>
      cases hrun
      exact ⟨g pid, hQ _, hsame (.of_file rfl rfl rfl)⟩
    | fileSetInode f ip =>
      cases hrun
      exact ⟨_, hQ.2.2, h.openFile hp hQ.1 hQ.2.1 rfl rfl rfl⟩
    | getOpenfile fd =>
      cases hrun
      exact ⟨g pid, h.desc pid ▸ hQ, hsame .refl⟩
    | getCwd =>
      cases hrun
      exact ⟨g pid, h.cwd pid ▸ hQ, hsame .refl⟩
    | setOpenfile fd f =>
      cases hrun
      refine ⟨_, hQ, h.tables hp rfl rfl ?_ ?_ rfl rfl rfl⟩
      · rw [← h.desc pid]
      · exact (h.cwd pid ▸ update_eq_self pid s.cwd).symm
    | setCwd ip =>
      cases hrun
      refine ⟨_, hQ, h.tables hp rfl rfl ?_ rfl rfl rfl rfl⟩
      exact (h.desc pid ▸ update_eq_self pid s.openfiles).symm
    | halt => cases hrun

end

section
variable {B : Type} {s u : FsState B}

/-- A change of an entry of the inode cache that leaves its lock object alone. -/
theorem flock_update {c : InodeCache} {i : Nat} {v : Inode}
    (hv : v.flock = (c i).flock) (ip : Nat) :
    (update c i v ip).flock = (c ip).flock := by
  rcases eq_or_ne ip i with rfl | hne
  · simpa using hv
  · rw [update_of_ne hne]

/-- What an operation can do to the lock object of an entry. -/
theorem fsHandler_flock {L : BufLayer B} {pid : Nat} {o : FsOp} {r : o.Resp}
    (h : fsHandler L pid o s = .ok r u) (ip : Nat) :
    (u.inode ip).flock = (s.inode ip).flock ∨
      (∃ lockType, (u.inode ip).flock = ((s.inode ip).flock.flockRelease lockType).1) ∨
      ∃ dev inum, s.inode.scan dev inum (List.range nInode) none = .empty ip := by
  cases o with
  | inodeGet dev inum =>
    rw [fsHandler, InodeCache.inodeGet] at h
    cases hscan : s.inode.scan dev inum (List.range nInode) none with
    | hit i =>
      rw [hscan] at h
      cases h
      exact .inl (flock_update (by rfl) ip)
    | empty i =>
      rw [hscan] at h
      cases h
      rcases eq_or_ne ip r with rfl | hne
      · exact .inr (.inr ⟨dev, inum, hscan⟩)
      · exact .inl (congrArg Inode.flock (update_of_ne hne _ _))
    | full =>
      rw [hscan] at h
      cases h
  | inodeDup | inodeSet | inodeSetValid | inodePutDrop =>
    cases h
    exact .inl (flock_update (by rfl) ip)
  | inodeAcquire | inodeUnlock | inodePutTest =>
    simp only [fsHandler, FsState.inodeAcquire, FsState.inodeUnlock, FsState.inodePutTest] at h
    split_ifs at h <;> cases h <;> exact .inl (flock_update (by rfl) ip)
  | flockRelease i lockType =>
    cases h
    rcases eq_or_ne ip i with rfl | hne
    · exact .inr (.inl ⟨lockType, by simp [InodeCache.flockRelease]⟩)
    · exact .inl (by simp [InodeCache.flockRelease, update_of_ne hne])
  | _ => exact .inl (by rw [(fsHandler_ok_only h).inode (by rintro ⟨⟩)])

/-- The entry of an open file is in use. -/
theorem Accounted.open_ref {g : Nat → Own} (h : Accounted s g) {f : Nat} (hf : (s.file f).Open) :
    0 < (s.inode (s.file f).ip).ref := by
  have hpos := opens_pos (h.file_one (.inr hf)).2 hf
  rw [h.ref]
  omega

/-- An entry that `inode_get` recycles is not the entry of an open file. -/
theorem Accounted.recycled {g : Nat → Own} (h : Accounted s g) {dev inum ip f : Nat}
    (hscan : s.inode.scan dev inum (List.range nInode) none = .empty ip) (hf : (s.file f).Open) :
    (s.file f).ip ≠ ip := by
  rintro rfl
  have hzero := ((InodeCache.scan_empty hscan).2.resolve_left nofun).2
  have hpos := h.open_ref hf
  omega

end

/-! ## Clients of the inode layer -/

/-- The calls of a client of the inode layer. A client names the references that it got and still
holds by their position. -/
inductive InodeCall where
  | get (dev inum : Nat)
  | dup (i : Nat)
  | put (i : Nat)
  | beginTrans
  | commitTrans
  | sys (c : Syscall)

/-- Runs a sequence of calls; `held` are the references that the client holds. -/
def inodeCalls : List InodeCall → List Nat → Fs Unit
  | [], _ => return
  | .get dev inum :: calls, held => do
    let ip ← inodeGet dev inum
    inodeCalls calls (ip :: held)
  | .dup i :: calls, held =>
    match held[i]? with
    | none => inodeCalls calls held
    | some ip => do
      inodeDup ip
      inodeCalls calls (ip :: held)
  | .put i :: calls, held =>
    match held[i]? with
    | none => inodeCalls calls held
    | some ip => do
      inodePut ip
      inodeCalls calls (held.erase ip)
  | .beginTrans :: calls, held => do
    beginTrans
    inodeCalls calls held
  | .commitTrans :: calls, held => do
    commitTrans
    inodeCalls calls held
  | .sys c :: calls, held => do
    let _ ← c.code
    inodeCalls calls held

theorem Own.Rest.take {t : Own} {R : Multiset Nat} (h : t.Rest R) (ip : Nat) :
    (t.take ip).Rest (ip ::ₘ R) :=
  ⟨(congrArg (ip ::ₘ ·) h.refs).trans (Multiset.cons_swap ip t.cwd R), h.fresh, h.files⟩

theorem Own.Rest.drop {t : Own} {ip : Nat} {R : Multiset Nat} (h : t.Rest (ip ::ₘ R)) :
    (t.drop ip).Rest R := by
  refine ⟨?_, h.fresh, h.files⟩
  rw [Own.drop, h.refs, Multiset.cons_swap, Multiset.erase_cons_head]

/-- A client owns the references that it holds, besides others `R` that it no longer uses. -/
theorem owns_inodeCalls {calls : List InodeCall} {held : List Nat} {t : Own} {R : Multiset Nat}
    (h : t.Rest (↑held + R)) : Owns (inodeCalls calls held) (fun _ t => ∃ R, t.Rest R) t := by
  induction calls generalizing held t with
  | nil => exact ⟨_, h⟩
  | cons call calls ih =>
    cases call with
    | get dev inum =>
      refine .bind fun ip _ => ih ?_
      rw [← Multiset.cons_coe, Multiset.cons_add]
      exact h.take ip
    | dup i =>
      rw [inodeCalls]
      cases hi : held[i]? with
      | none => exact ih h
      | some ip =>
        have hmem : ip ∈ t.refs := by
          rw [h.refs]
          exact Multiset.mem_cons_of_mem
            (Multiset.mem_add.2 (.inl (Multiset.mem_coe.2 (List.mem_of_getElem? hi))))
        refine .bind ⟨hmem, ih ?_⟩
        rw [← Multiset.cons_coe, Multiset.cons_add]
        exact h.take ip
    | put i =>
      rw [inodeCalls]
      cases hi : held[i]? with
      | none => exact ih h
      | some ip =>
        have hmem := List.mem_of_getElem? hi
        have hheld : (↑held + R : Multiset Nat) = ip ::ₘ (↑(held.erase ip) + R) := by
          rw [← Multiset.cons_add, ← Multiset.coe_erase,
            Multiset.cons_erase (Multiset.mem_coe.2 hmem)]
        rw [hheld] at h
        refine .bind (owns_inodePut ?_ (ih h.drop))
        rw [h.refs]
        exact Multiset.mem_cons_of_mem (Multiset.mem_cons_self _ _)
    | beginTrans => exact .bind (owns_beginTrans (ih h))
    | commitTrans => exact .bind (owns_commitTrans (ih h))
    | sys c =>
      exact .bind ((c.owns h).mono ownSpec_mono fun _ _ hr => ih hr)

section
variable {B : Type}

/-- Processes that use the inode layer and the file system calls, from the boot of the kernel on,
with any disk and any log area. -/
def inodeSystem (L : BufLayer B) :
    Machine (Threads fsSig Panic (FsState B) Unit) (ThreadsAct (List InodeCall)) :=
  threads numIds (fsHandler L) (inodeCalls · []) fun s =>
    (∃ bufs log, s.shared = { FsState.booted bufs with log }) ∧
      (∀ pid, s.code pid = pure ()) ∧ s.panic = none

variable {L : BufLayer B} {s t : Threads fsSig Panic (FsState B) Unit}

/-- What a process owns at boot: its working directory. -/
def Own.boot : Own := { refs := {0}, fresh := 0, files := 0, desc := fun _ => none, cwd := 0 }

/-- The references after the boot. -/
theorem accounted_booted {bufs : B} {log : Log} :
    Accounted { FsState.booted bufs with log } fun _ => Own.boot where
  desc _ := rfl
  cwd _ := rfl
  ref ip := by
    rcases eq_or_ne ip 0 with rfl | hne
    · simp [FsState.booted, FsState.zeroed, total, opens, File.Open, Own.boot]
    · simp [FsState.booted, FsState.zeroed, total, opens, File.Open, Own.boot, hne]
  fresh f := by simp [total, Own.boot, File.Fresh, FsState.booted, FsState.zeroed]
  files f := by simp [total, Own.boot, File.Open, FsState.booted, FsState.zeroed]
  file f := .inl ⟨rfl, nofun⟩
  unique := by
    have hzero : ∀ i, 0 < (({ FsState.booted bufs with log } : FsState B).inode i).ref → i =
        0 := by
      intro i hi
      by_contra hne
      simp [FsState.booted, FsState.zeroed, hne] at hi
    exact ⟨fun i hi => hzero i hi ▸ by decide,
      fun i j hi hj _ _ => (hzero i hi).trans (hzero j hj).symm⟩

/-- The run lemma. -/
theorem inodeSystem_typed (h : (inodeSystem L).Reachable s) :
    Typed ownSpec Accounted (fun t => ∃ R, t.Rest R) s := by
  refine h.invariant ?_ fun _ _ _ ht hstep =>
    ht.step (sound_ownSpec L) (fun c t hR => ?_) (fun _ _ _ _ _ => trivial) hstep
  · rintro s ⟨⟨bufs, log, hs⟩, hcode, -⟩
    refine ⟨fun _ => Own.boot, hs ▸ accounted_booted, fun pid => ?_⟩
    rw [hcode]
    exact ⟨0, rfl, rfl, by simp [Own.boot, descFiles]⟩
  · obtain ⟨R, hR⟩ := hR
    exact owns_inodeCalls (by simpa using hR)

/-- **One lock object per file.** Whatever the processes do, no two entries of the inode cache in
use are for the same inode, so that all open files of an inode share its lock object; an entry that
`inode_get` recycles, and whose lock it initialises, has no open file; and so a step can change the
lock object of an open file only by releasing the lock. -/
theorem one_lock_per_file (h : (inodeSystem L).Reachable s) :
    (∀ i j, 0 < (s.shared.inode i).ref → 0 < (s.shared.inode j).ref →
        (s.shared.inode i).dev = (s.shared.inode j).dev →
        (s.shared.inode i).inum = (s.shared.inode j).inum → i = j) ∧
      (∀ f f', (s.shared.file f).type = .inode → (s.shared.file f').type = .inode →
        (s.shared.inode (s.shared.file f).ip).dev = (s.shared.inode (s.shared.file f').ip).dev →
        (s.shared.inode (s.shared.file f).ip).inum = (s.shared.inode (s.shared.file f').ip).inum →
        (s.shared.file f).ip = (s.shared.file f').ip) ∧
      (∀ dev inum ip, s.shared.inode.scan dev inum (List.range nInode) none = .empty ip →
        ∀ f, (s.shared.file f).type = .inode → (s.shared.file f).ip ≠ ip) ∧
      ∀ a t, (inodeSystem L).step s a = some t → ∀ f, (s.shared.file f).type = .inode →
        (t.shared.inode (s.shared.file f).ip).flock = (s.shared.inode (s.shared.file f).ip).flock ∨
          ∃ lockType, (t.shared.inode (s.shared.file f).ip).flock =
            ((s.shared.inode (s.shared.file f).ip).flock.flockRelease lockType).1 := by
  obtain ⟨g, hacc, -⟩ := inodeSystem_typed h
  refine ⟨hacc.unique.eq, fun f f' hf hf' hdev hinum => ?_, fun dev inum ip hscan f hf => ?_, ?_⟩
  · exact hacc.unique.eq _ _ (hacc.open_ref hf) (hacc.open_ref hf') hdev hinum
  · exact hacc.recycled hscan hf
  · intro a t hstep f hf
    rcases threads_step hstep with ⟨pid, c, r, -, -, -, rfl⟩ |
      ⟨pid, o, k, r, u, -, -, -, ho, rfl⟩ | ⟨pid, o, k, e, u, -, -, -, ho, rfl⟩
    · exact .inl rfl
    · rcases fsHandler_flock ho (s.shared.file f).ip with hsame | hrel | ⟨dev, inum, hscan⟩
      · exact .inl hsame
      · exact .inr hrel
      · exact absurd rfl (hacc.recycled hscan hf)
    · obtain ⟨b, rfl⟩ := fsHandler_panic ho
      exact .inl rfl

end

/-- The memory at boot, over the image of an empty file system. -/
def freshSystem : FsState BufCache :=
  { FsState.booted (.init emptyImage) with
    log := { start := 1014, size := 10, busy := false, n := 0, sector := fun _ => 0 } }

/-- Two processes create and open the file `/f`. -/
def openTwice : List (Nat × List InodeCall) :=
  [(1, [.sys (.open 0x40000000 0x202 3 [47, 102])]),
    (2, [.sys (.open 0x40000000 0x202 3 [47, 102])])]

/-- They share the lock object, which is in the second entry of the inode cache. -/
theorem one_lock_per_file_open_twice :
    ∃ s, (inodeSystem BufCache.layer).Reachable s ∧
      (s.shared.file 0).type = .inode ∧ (s.shared.file 1).type = .inode ∧
      (s.shared.file 0).ip = 1 ∧ (s.shared.file 0).ip = (s.shared.file 1).ip := by
  have hend : decide ((runCalls (fsHandler BufCache.layer) (inodeCalls · []) openTwice
    freshSystem).Sat
      (fun _ u => (u.file 0).type = .inode ∧ (u.file 1).type = .inode ∧ (u.file 0).ip = 1 ∧
        (u.inode 1).dev = (u.inode (u.file 1).ip).dev ∧
        (u.inode 1).inum = (u.inode (u.file 1).ip).inum)
      (fun _ _ => False) fun _ => False) = true := by decide +kernel
  have hinit : (inodeSystem BufCache.layer).Init
      { shared := freshSystem, code := fun _ => .pure (), panic := none } :=
    ⟨⟨_, _, rfl⟩, fun _ => rfl, rfl⟩
  have hpids : ∀ c ∈ openTwice, c.1 < numIds := by simp [openTwice, numIds]
  obtain ⟨u, c, hreach, h0, h1, hip, hdev, hinum⟩ := runCalls_reachable
    (fsHandler BufCache.layer) (inodeCalls · []) _ hinit hpids hend
  refine ⟨_, hreach, h0, h1, hip, (one_lock_per_file hreach).2.1 0 1 h0 h1 ?_ ?_⟩
  · rw [hip]
    exact hdev
  · rw [hip]
    exact hinum

end MCertikos
