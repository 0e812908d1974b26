import Xv6.Fs.Inode
import Xv6.Lib.Run

/-!
# The inode table

`iget`, `idup`, `ilock`, `iupdate`, `iunlock`, `iput` and `ialloc` of `kernel/fs.c`, called by any number
of processes. A step is a section of code under `itable.lock`, or what a process does to an inode between
two such sections while it has the inode's sleep lock; the inodes on disk are read and written as the
buffer cache presents them, one at a time. `iput` frees an inode in steps of its own: it gives
`itable.lock` up once it has the sleep lock, and takes it again to drop its reference.

Callers use an inode while they have a reference to it, change its fields and give the sleep lock up while
they have that lock, and call `iupdate` before `iunlock` if they have changed it; they leave its type
alone.
-/

namespace Xv6.Itables

open Fs (NINODE Ino zero_lt_ninode)
open Function (update update_apply update_eq_self update_of_ne update_self)

/-- `struct dinode` -/
structure Dinode where
  type : ℕ
  major : ℕ
  minor : ℕ
  nlink : ℕ
  size : ℕ
  addrs : ℕ → ℕ

/-- `struct inode`: the sleep lock with the process that holds it, the copy of the disk inode, and
whether the copy was changed since it was last read or written. -/
structure Entry (ι : Type) where
  dev : ℕ
  inum : ℕ
  ref : ℕ
  lock : Option ι
  valid : Bool
  copy : Dinode
  dirty : Bool

/-- Where a process is. -/
inductive Pc
  /-- in none of the functions -/
  | out
  /-- `ilock` before `acquiresleep` -/
  | lock (ip : Ino)
  /-- `ilock` after `acquiresleep` -/
  | load (ip : Ino)
  /-- `ialloc` before `iget` -/
  | ialloc (dev inum : ℕ)
  /-- `iput` before `itrunc` -/
  | trunc (ip : Ino)
  /-- `iput` before the type is cleared on disk -/
  | free (ip : Ino)
  /-- `iput` before `valid` is cleared and the sleep lock released -/
  | invalid (ip : Ino)
  /-- `iput` before `itable.lock` is taken again -/
  | drop (ip : Ino)
  deriving DecidableEq

/-- The table, the inodes on disk, and the processes with the number of references each has. -/
structure State (ι : Type) where
  entry : Ino → Entry ι
  disk : ℕ → ℕ → Dinode
  pc : ι → Pc
  refs : ι → Ino → ℕ

/-- A call, or the next step of a process that is in a function. -/
inductive Label (ι : Type)
  | iget (p : ι) (dev inum : ℕ)
  | idup (p : ι) (ip : Ino)
  | ilock (p : ι) (ip : Ino)
  | change (p : ι) (ip : Ino) (d : Dinode)
  | iupdate (p : ι) (ip : Ino)
  | iunlock (p : ι) (ip : Ino)
  | iput (p : ι) (ip : Ino)
  | ialloc (p : ι) (dev inum type : ℕ)
  | go (p : ι)

/-- The disk with another inode. -/
def write (disk : ℕ → ℕ → Dinode) (dev inum : ℕ) (d : Dinode) : ℕ → ℕ → Dinode := fun dev' inum' =>
  if dev' = dev ∧ inum' = inum then d else disk dev' inum'

section

variable {ι : Type} [DecidableEq ι]

/-- The process goes on at `pc`. -/
def State.goto (s : State ι) (p : ι) (pc : Pc) : State ι := { s with pc := update s.pc p pc }

/-- The state with an entry of the table changed. -/
def State.setEntry (s : State ι) (ip : Ino) (e : Entry ι) : State ι :=
  { s with entry := update s.entry ip e }

/-- `ip->ref` and the references of the process. -/
def State.setRef (s : State ι) (p : ι) (ip : Ino) (ref r : ℕ) : State ι :=
  { s with
    entry := update s.entry ip { s.entry ip with ref := ref }
    refs := update s.refs p (update (s.refs p) ip r) }

/-- `ip->ref++` -/
def State.hold (s : State ι) (p : ι) (ip : Ino) : State ι :=
  s.setRef p ip ((s.entry ip).ref + 1) (s.refs p ip + 1)

/-- `ip->ref--` -/
def State.drop (s : State ι) (p : ι) (ip : Ino) : State ι :=
  s.setRef p ip ((s.entry ip).ref - 1) (s.refs p ip - 1)

/-- The entry that `iget` recycles. -/
def State.recycle (s : State ι) (p : ι) (ip : Ino) (dev inum : ℕ) : State ι :=
  (s.setEntry ip { s.entry ip with dev := dev, inum := inum, valid := false }).setRef p ip 1
    (s.refs p ip + 1)

/-- `iget`, which panics when there is no entry left. -/
def State.iget (s : State ι) (p : ι) (dev inum : ℕ) : Option (State ι) :=
  match (List.finRange NINODE).find? fun ip =>
      0 < (s.entry ip).ref ∧ (s.entry ip).dev = dev ∧ (s.entry ip).inum = inum with
  | some ip => some (s.hold p ip)
  | none =>
    ((List.finRange NINODE).find? fun ip => (s.entry ip).ref = 0).map fun ip =>
      s.recycle p ip dev inum

/-- `itrunc`, without the blocks. -/
def Dinode.trunc (d : Dinode) : Dinode := { d with size := 0, addrs := fun _ => 0 }

/-- The entry and the inode on disk, after the fields were set and `iupdate` was called. -/
def State.update (s : State ι) (ip : Ino) (d : Dinode) : State ι :=
  { s with
    entry := Function.update s.entry ip { s.entry ip with copy := d, dirty := false }
    disk := write s.disk (s.entry ip).dev (s.entry ip).inum d }

/-- The next step of a process that is in a function. `ilock` panics if the inode has no type. -/
def go (s : State ι) (p : ι) : Option (State ι) :=
  match s.pc p with
  | .out => none
  | .lock ip =>
    if (s.entry ip).lock = none then
      some ((s.setEntry ip { s.entry ip with lock := some p }).goto p (.load ip))
    else none
  | .load ip =>
    let e := s.entry ip
    if e.valid then some (s.goto p .out)
    else if (s.disk e.dev e.inum).type = 0 then none
    else some ((s.setEntry ip { e with copy := s.disk e.dev e.inum, valid := true, dirty := false }).goto p .out)
  | .ialloc dev inum => (s.iget p dev inum).map (·.goto p .out)
  | .trunc ip => some ((s.update ip (s.entry ip).copy.trunc).goto p (.free ip))
  | .free ip => some ((s.update ip { (s.entry ip).copy with type := 0 }).goto p (.invalid ip))
  | .invalid ip =>
    some ((s.setEntry ip { s.entry ip with valid := false, lock := none }).goto p (.drop ip))
  | .drop ip => some ((s.drop p ip).goto p .out)

/-- A call by a process that is in none of the functions. -/
def call (s : State ι) : Label ι → Option (State ι)
  | .iget p dev inum => s.iget p dev inum
  | .idup p ip => if 0 < s.refs p ip then some (s.hold p ip) else none
  | .ilock p ip => if 0 < s.refs p ip then some (s.goto p (.lock ip)) else none
  | .change p ip d =>
    if (s.entry ip).lock = some p ∧ d.type ≠ 0 then
      some (s.setEntry ip { s.entry ip with copy := d, dirty := true })
    else none
  | .iupdate p ip => if (s.entry ip).lock = some p then some (s.update ip (s.entry ip).copy) else none
  | .iunlock p ip =>
    if (s.entry ip).lock = some p ∧ (s.entry ip).dirty = false then
      some (s.setEntry ip { s.entry ip with lock := none })
    else none
  | .iput p ip =>
    if 0 < s.refs p ip ∧ (s.entry ip).lock ≠ some p then
      if (s.entry ip).ref = 1 ∧ (s.entry ip).valid = true ∧ (s.entry ip).copy.nlink = 0 then
        if (s.entry ip).lock = none then
          some ((s.setEntry ip { s.entry ip with lock := some p }).goto p (.trunc ip))
        else none
      else some (s.drop p ip)
    else none
  | .ialloc p dev inum type =>
    if (s.disk dev inum).type = 0 ∧ type ≠ 0 then
      some ({ s with disk := write s.disk dev inum ⟨type, 0, 0, 0, 0, fun _ => 0⟩ }.goto p
        (.ialloc dev inum))
    else none
  | .go _ => none

/-- The process of a label. -/
def Label.proc : Label ι → ι
  | .iget p _ _ | .idup p _ | .ilock p _ | .change p _ _ | .iupdate p _ | .iunlock p _ | .iput p _
  | .ialloc p _ _ _ | .go p => p

/-- The state after a step, if it is possible. -/
def next (s : State ι) (l : Label ι) : Option (State ι) :=
  match l with
  | .go p => go s p
  | l => if s.pc l.proc = .out then call s l else none

/-- The table after `iinit`. -/
def State.init (disk : ℕ → ℕ → Dinode) : State ι where
  entry _ := ⟨0, 0, 0, none, false, ⟨0, 0, 0, 0, 0, fun _ => 0⟩, false⟩
  disk := disk
  pc _ := .out
  refs _ _ := 0

/-- The states reached. -/
def Run (disk : ℕ → ℕ → Dinode) : State ι → Prop :=
  Lib.Reach (State.init disk) (fun s l s' => next s l = some s') fun _ _ => True

end

/-! ## The invariant -/

/-- The inode on disk of an entry. -/
def State.dinode {ι : Type} (s : State ι) (ip : Ino) : Dinode := s.disk (s.entry ip).dev (s.entry ip).inum

/-- What a process in a function relies on. -/
def Fits {ι : Type} (s : State ι) (p : ι) : Pc → Prop
  | .out | .ialloc _ _ => True
  | .lock ip => 0 < s.refs p ip
  | .load ip | .invalid ip => (s.entry ip).lock = some p ∧ (s.entry ip).dirty = false
  | .trunc ip | .free ip =>
    (s.entry ip).lock = some p ∧ (s.entry ip).valid = true ∧ (s.entry ip).dirty = false ∧
      (s.entry ip).copy.nlink = 0
  | .drop ip => 0 < s.refs p ip ∧ (s.entry ip).lock ≠ some p

/-- The entry is not about to be invalidated. -/
def State.Stays {ι : Type} (s : State ι) (ip : Ino) : Prop :=
  ∀ p, (s.entry ip).lock = some p → s.pc p ≠ .invalid ip

/-- The copy of an entry agrees with the inode on disk. -/
structure Coherent {ι : Type} (s : State ι) (ip : Ino) : Prop where
  type : (s.entry ip).copy.type ≠ 0
  disk : (s.dinode ip).type ≠ 0
  copy : (s.entry ip).dirty = false → (s.entry ip).copy = s.dinode ip

/-- The invariant of the inode table. -/
structure Inv {ι : Type} [Fintype ι] (s : State ι) : Prop where
  count : ∀ ip, (s.entry ip).ref = ∑ p, s.refs p ip
  unique : ∀ ip jp, 0 < (s.entry ip).ref → 0 < (s.entry jp).ref → (s.entry ip).dev = (s.entry jp).dev →
    (s.entry ip).inum = (s.entry jp).inum → ip = jp
  locked : ∀ ip p, (s.entry ip).lock = some p → 0 < s.refs p ip
  fits : ∀ p, Fits s p (s.pc p)
  clean : ∀ ip, (s.entry ip).lock = none → (s.entry ip).dirty = false
  held : ∀ ip p, (s.entry ip).lock = some p →
    s.pc p = .load ip ∨ s.pc p = .invalid ip ∨ (s.entry ip).valid = true
  coherent : ∀ ip, 0 < (s.entry ip).ref → (s.entry ip).valid = true → s.Stays ip → Coherent s ip

section

variable {ι : Type} {s s' : State ι} {p q : ι} {ip jp : Ino} {dev inum : ℕ}

theorem Inv.refs_le [Fintype ι] (h : Inv s) (p : ι) (ip : Ino) : s.refs p ip ≤ (s.entry ip).ref := by
  rw [h.count]
  exact Finset.single_le_sum (f := fun p => s.refs p ip) (fun _ _ => Nat.zero_le _) (Finset.mem_univ p)

theorem Inv.lock_none [Fintype ι] (h : Inv s) (href : (s.entry ip).ref = 0) : (s.entry ip).lock = none := by
  cases hlock : (s.entry ip).lock with
  | none => rfl
  | some p =>
    have hpos := h.locked ip p hlock
    have hle := h.refs_le p ip
    omega

theorem Inv.valid_coherent [Fintype ι] (h : Inv s) (hrefs : 0 < s.refs p ip) (hv : (s.entry ip).valid = true)
    (hpc : (s.entry ip).lock = none ∨ (s.entry ip).lock = some p ∧ s.pc p ≠ .invalid ip) :
    Coherent s ip := by
  refine h.coherent ip ?_ hv fun q hq => ?_
  · exact hrefs.trans_le (h.refs_le p ip)
  · obtain hl | ⟨hl, hne⟩ := hpc
    · rw [hl] at hq
      cases hq
    · rw [hl] at hq
      cases hq
      exact hne

theorem coherent_iff (s : State ι) (ip : Ino) : Coherent s ip ↔ (s.entry ip).copy.type ≠ 0 ∧
    (s.dinode ip).type ≠ 0 ∧ ((s.entry ip).dirty = false → (s.entry ip).copy = s.dinode ip) :=
  ⟨fun h => ⟨h.type, h.disk, h.copy⟩, fun h => ⟨h.1, h.2.1, h.2.2⟩⟩

theorem Inv.rename [Fintype ι] (h : Inv s) (href : (s.entry ip).ref = 0) (dev inum : ℕ) :
    Inv (s.setEntry ip { s.entry ip with dev := dev, inum := inum, valid := false }) := by
  have hzero : ∀ q, s.refs q ip = 0 := by
    intro q
    have hle := h.refs_le q ip
    omega
  have hnone := h.lock_none href
  refine ⟨fun jp => ?_, fun jp kp => ?_, fun jp q => ?_, fun q => ?_, fun jp => ?_, fun jp q => ?_,
    fun jp => ?_⟩
  · have := h.count jp
    simp only [State.setEntry, update_apply]
    grind
  · have := h.unique jp kp
    simp only [State.setEntry, update_apply]
    grind
  · have := h.locked jp q
    simp only [State.setEntry, update_apply]
    grind
  · have hq := h.fits q
    have hl := fun jp => h.locked jp q
    simp only [State.setEntry]
    cases hpc : s.pc q <;> simp only [hpc, Fits, update_apply] at hq ⊢ <;> grind
  · have := h.clean jp
    simp only [State.setEntry, update_apply]
    grind
  · have := h.held jp q
    simp only [State.setEntry, update_apply]
    grind
  · have := h.coherent jp
    simp only [coherent_iff, State.Stays, State.dinode, State.setEntry, update_apply] at this ⊢
    grind

theorem init_inv [Fintype ι] (disk : ℕ → ℕ → Dinode) : Inv (State.init disk : State ι) where
  count ip := by simp [State.init]
  unique ip jp hip := absurd hip (lt_irrefl 0)
  locked ip p hp := nomatch hp
  fits p := trivial
  clean ip _ := rfl
  held ip p hp := nomatch hp
  coherent ip hip := absurd hip (lt_irrefl 0)

theorem write_self (disk : ℕ → ℕ → Dinode) (dev inum : ℕ) (d : Dinode) : write disk dev inum d dev inum = d :=
  if_pos ⟨rfl, rfl⟩

theorem write_of_ne {disk : ℕ → ℕ → Dinode} {dev inum dev' inum' : ℕ} {d : Dinode}
    (h : ¬(dev' = dev ∧ inum' = inum)) : write disk dev inum d dev' inum' = disk dev' inum' := if_neg h

variable [DecidableEq ι]

theorem iget_cases (h : s.iget p dev inum = some s') :
    (∃ ip, 0 < (s.entry ip).ref ∧ (s.entry ip).dev = dev ∧ (s.entry ip).inum = inum ∧ s' = s.hold p ip) ∨
    ∃ ip, (s.entry ip).ref = 0 ∧ s' = s.recycle p ip dev inum ∧
      ∀ jp, 0 < (s.entry jp).ref → ¬((s.entry jp).dev = dev ∧ (s.entry jp).inum = inum) := by
  unfold State.iget at h
  split at h
  next ip hfind =>
    cases h
    have := List.find?_some hfind
    simp only [decide_eq_true_eq] at this
    exact .inl ⟨ip, this.1, this.2.1, this.2.2, rfl⟩
  next hnone =>
    obtain ⟨ip, hfind, rfl⟩ := Option.map_eq_some_iff.mp h
    have href := List.find?_some hfind
    simp only [decide_eq_true_eq] at href
    refine .inr ⟨ip, href, rfl, fun jp hjp hsame => ?_⟩
    have := List.find?_eq_none.mp hnone jp (List.mem_finRange jp)
    simp only [decide_eq_true_eq] at this
    exact this ⟨hjp, hsame⟩

theorem refs_of_ne (s : State ι) (p q : ι) (r : ℕ) (h : jp ≠ ip) :
    update s.refs p (update (s.refs p) ip r) q jp = s.refs q jp := by
  by_cases hq : q = p
  · rw [hq, update_self, update_of_ne h]
  · rw [update_of_ne hq]

theorem stays_of_update {pc : Pc} (hfrom : s.pc p ≠ .invalid jp)
    (h : ∀ q, (s.entry jp).lock = some q → update s.pc p pc q ≠ .invalid jp) : s.Stays jp := by
  intro q hq
  by_cases hqp : q = p
  · rwa [hqp]
  · have := h q hq
    rwa [update_of_ne hqp] at this

theorem State.goto_self (h : s.pc p = .out) : s.goto p .out = s := by
  unfold State.goto
  rw [← h, update_eq_self]

variable [Fintype ι]

theorem Inv.only (h : Inv s) (href : (s.entry ip).ref = 1) (hp : 0 < s.refs p ip) (hq : 0 < s.refs q ip) :
    q = p := by
  by_contra hne
  have hsum : s.refs p ip + s.refs q ip ≤ ∑ r, s.refs r ip := by
    rw [← Finset.sum_pair (f := fun r => s.refs r ip) (Ne.symm hne)]
    exact Finset.sum_le_sum_of_subset (Finset.subset_univ _)
  rw [← h.count, href] at hsum
  omega

theorem sum_setRef (s : State ι) (p : ι) (ip : Ino) (r : ℕ) :
    (∑ q, update s.refs p (update (s.refs p) ip r) q ip) + s.refs p ip =
      (∑ q, s.refs q ip) + r := by
  have hrest : ∑ q ∈ Finset.univ.erase p, update s.refs p (update (s.refs p) ip r) q ip =
      ∑ q ∈ Finset.univ.erase p, s.refs q ip :=
    Finset.sum_congr rfl fun q hq => by rw [update_of_ne (Finset.ne_of_mem_erase hq)]
  rw [← Finset.add_sum_erase _ _ (Finset.mem_univ p), hrest,
    ← Finset.add_sum_erase Finset.univ (fun q => s.refs q ip) (Finset.mem_univ p), update_self,
    update_self]
  omega

theorem held_of_update {pc : Pc} (h : Inv s) (hload : s.pc p ≠ .load jp) (hinvalid : s.pc p ≠ .invalid jp)
    (hq : (s.entry jp).lock = some q) :
    update s.pc p pc q = .load jp ∨ update s.pc p pc q = .invalid jp ∨
      (s.entry jp).valid = true := by
  have hheld := h.held jp q hq
  by_cases hqp : q = p
  · rw [hqp] at hheld
    exact .inr (.inr ((hheld.resolve_left hload).resolve_left hinvalid))
  · rwa [update_of_ne hqp]

theorem Inv.setRef (h : Inv s) {n r : ℕ} (hload : ∀ jp, s.pc p ≠ .load jp)
    (hinvalid : ∀ jp, s.pc p ≠ .invalid jp) (href : n + s.refs p ip = (s.entry ip).ref + r)
    (hnew : 0 < (s.entry ip).ref ∨ (s.entry ip).valid = false ∧ ∀ jp, 0 < (s.entry jp).ref →
      ¬((s.entry jp).dev = (s.entry ip).dev ∧ (s.entry jp).inum = (s.entry ip).inum))
    (hlock : (s.entry ip).lock = some p → 0 < r) : Inv ((s.setRef p ip n r).goto p .out) := by
  have hsum := sum_setRef s p ip r
  refine ⟨fun jp => ?_, fun jp kp => ?_, fun jp q => ?_, fun q => ?_, fun jp => ?_, fun jp q => ?_,
    fun jp => ?_⟩
  · have hcount := h.count jp
    simp only [State.setRef, State.goto]
    by_cases hne : jp = ip
    · subst hne
      rw [update_self]
      dsimp only
      omega
    · rw [update_of_ne hne, hcount]
      exact Finset.sum_congr rfl fun q _ => (refs_of_ne s p q r hne).symm
  · have := h.unique jp kp
    simp only [State.setRef, State.goto, update_apply]
    grind
  · have := h.locked jp q
    simp only [State.setRef, State.goto, update_apply]
    grind
  · have hq := h.fits q
    by_cases hqp : q = p
    · subst hqp
      simp only [State.setRef, State.goto, update_self, Fits]
    · simp only [State.setRef, State.goto, update_of_ne hqp]
      cases hpc : s.pc q <;> simp only [hpc, Fits, update_apply] at hq ⊢ <;> grind
  · have := h.clean jp
    simp only [State.setRef, State.goto, update_apply]
    grind
  · have := h.held jp q
    simp only [State.setRef, State.goto, update_apply]
    grind
  · have := h.coherent jp
    simp only [coherent_iff, State.Stays, State.dinode, State.setRef, State.goto, update_apply] at this ⊢
    grind

theorem Inv.own (h : Inv s) {e : Entry ι} {disk : ℕ → ℕ → Dinode} {pc : Pc}
    (hload : ∀ jp, jp ≠ ip → s.pc p ≠ .load jp) (hinvalid : ∀ jp, jp ≠ ip → s.pc p ≠ .invalid jp)
    (hmine : ∀ q, (s.entry ip).lock = some q → q = p) (hrefs : 0 < s.refs p ip)
    (hdev : e.dev = (s.entry ip).dev) (hinum : e.inum = (s.entry ip).inum) (href : e.ref = (s.entry ip).ref)
    (hlock : e.lock = none ∨ e.lock = some p)
    (hdisk : ∀ dev inum, ¬(dev = (s.entry ip).dev ∧ inum = (s.entry ip).inum) → disk dev inum = s.disk dev inum)
    (hclean : e.lock = none → e.dirty = false)
    (hheld : e.lock = some p → pc = .load ip ∨ pc = .invalid ip ∨ e.valid = true)
    (hcoherent : e.valid = true → (e.lock = some p → pc ≠ .invalid ip) → e.copy.type ≠ 0 ∧
      (disk e.dev e.inum).type ≠ 0 ∧ (e.dirty = false → e.copy = disk e.dev e.inum))
    (hfits : Fits { s with entry := update s.entry ip e } p pc) :
    Inv { s with
      entry := update s.entry ip e, disk := disk, pc := update s.pc p pc } := by
  have hpos : 0 < (s.entry ip).ref := hrefs.trans_le (h.refs_le p ip)
  refine ⟨fun jp => ?_, fun jp kp => ?_, fun jp q => ?_, fun q => ?_, fun jp => ?_, fun jp q => ?_,
    fun jp => ?_⟩
  · have := h.count jp
    simp only [update_apply]
    grind
  · have := h.unique jp kp
    simp only [update_apply]
    grind
  · have := h.locked jp q
    simp only [update_apply]
    grind
  · have hq := h.fits q
    by_cases hqp : q = p
    · subst hqp
      simp only [update_self]
      cases pc <;> exact hfits
    · simp only [update_of_ne hqp]
      have := hmine q
      cases hpc : s.pc q <;> simp only [hpc, Fits, update_apply] at hq ⊢ <;> grind
  · have := h.clean jp
    simp only [update_apply]
    grind
  · have := h.held jp q
    have := hload jp
    have := hinvalid jp
    simp only [update_apply]
    grind
  · have := h.coherent jp
    have := h.unique jp ip
    have := hinvalid jp
    simp only [coherent_iff, State.Stays, State.dinode, update_apply] at *
    grind

theorem Inv.goto (h : Inv s) {disk : ℕ → ℕ → Dinode} {pc : Pc} (hout : s.pc p = .out)
    (hdisk : ∀ dev inum, (s.disk dev inum).type ≠ 0 → disk dev inum = s.disk dev inum)
    (hfits : Fits s p pc) : Inv { s with disk := disk, pc := update s.pc p pc } := by
  have hload : ∀ jp, s.pc p ≠ .load jp := by simp [hout]
  have hinvalid : ∀ jp, s.pc p ≠ .invalid jp := by simp [hout]
  refine ⟨h.count, h.unique, h.locked, fun q => ?_, h.clean,
    fun jp q hq => held_of_update h (hload jp) (hinvalid jp) hq, fun jp hjp hv hst => ?_⟩
  · change Fits _ q (update s.pc p pc q)
    by_cases hqp : q = p
    · rw [hqp, update_self]
      cases pc <;> exact hfits
    · rw [update_of_ne hqp]
      have hq := h.fits q
      cases hpc : s.pc q <;> rw [hpc] at hq <;> exact hq
  · have hc := h.coherent jp hjp hv (stays_of_update (hinvalid jp) hst)
    have hdin : disk (s.entry jp).dev (s.entry jp).inum = s.dinode jp := hdisk _ _ hc.disk
    exact ⟨hc.type, by rw [State.dinode]; change (disk _ _).type ≠ 0; rw [hdin]; exact hc.disk,
      fun hd => (hc.copy hd).trans hdin.symm⟩

theorem Inv.iget (h : Inv s) (hload : ∀ jp, s.pc p ≠ .load jp) (hinvalid : ∀ jp, s.pc p ≠ .invalid jp)
    (hs : s.iget p dev inum = some s') : Inv (s'.goto p .out) := by
  obtain ⟨ip, hpos, -, -, rfl⟩ | ⟨ip, href, rfl, hnone⟩ := iget_cases hs
  · exact h.setRef hload hinvalid (by omega) (.inl hpos) fun _ => Nat.succ_pos _
  · have hr := h.rename href dev inum
    set e : Entry ι := { s.entry ip with dev := dev, inum := inum, valid := false } with he
    have hself : (s.setEntry ip e).entry ip = e := update_self ..
    refine hr.setRef hload hinvalid ?_ (.inr ⟨?_, fun jp hjp => ?_⟩) fun _ => Nat.succ_pos _
    · rw [hself]
      change 1 + s.refs p ip = (s.entry ip).ref + (s.refs p ip + 1)
      omega
    · rw [hself]
    · by_cases hne : jp = ip
      · rw [hne, hself] at hjp
        change 0 < (s.entry ip).ref at hjp
        omega
      · have hsame : (s.setEntry ip e).entry jp = s.entry jp := update_of_ne hne _ _
        rw [hsame] at hjp
        rw [hself, hsame]
        exact hnone jp hjp

theorem Inv.go (h : Inv s) (hs : go s p = some s') : Inv s' := by
  have hfits := h.fits p
  unfold Itables.go at hs
  cases hpc : s.pc p with
  | out =>
    rw [hpc] at hs
    cases hs
  | lock ip =>
    rw [hpc] at hs hfits
    dsimp only at hs
    split_ifs at hs with hlock
    cases hs
    refine h.own (by simp [hpc]) (by simp [hpc]) (by simp [hlock]) hfits rfl rfl rfl (.inr rfl)
      (fun _ _ _ => rfl) (by simp) (fun _ => .inl rfl) (fun hv _ => ?_) ?_
    · have hc := h.valid_coherent hfits hv (.inl hlock)
      exact ⟨hc.type, hc.disk, hc.copy⟩
    · simp only [Fits, update_self]
      exact ⟨trivial, h.clean ip hlock⟩
  | load ip =>
    rw [hpc] at hs hfits
    obtain ⟨hl, -⟩ := hfits
    have hrefs := h.locked ip p hl
    dsimp only at hs
    split_ifs at hs with hv htype
    · cases hs
      have hc := h.valid_coherent hrefs hv (.inr ⟨hl, by simp [hpc]⟩)
      have hown : Inv { s with
          entry := update s.entry ip (s.entry ip), disk := s.disk
          pc := update s.pc p .out } :=
        h.own (fun jp hne => by simp [hpc, Ne.symm hne]) (by simp [hpc]) (by simp [hl]) hrefs rfl rfl rfl
          (.inr hl) (fun _ _ _ => rfl) (by simp [hl]) (fun _ => .inr (.inr hv))
          (fun _ _ => ⟨hc.type, hc.disk, hc.copy⟩) trivial
      rw [update_eq_self] at hown
      exact hown
    · cases hs
      refine h.own (fun jp hne => by simp [hpc, Ne.symm hne]) (by simp [hpc]) (by simp [hl]) hrefs rfl rfl rfl
        (.inr hl) (fun _ _ _ => rfl) (fun _ => rfl) (fun _ => .inr (.inr rfl)) (fun _ _ => ?_) trivial
      exact ⟨htype, htype, fun _ => rfl⟩
  | ialloc dev inum =>
    rw [hpc] at hs
    obtain ⟨t, ht, rfl⟩ := Option.map_eq_some_iff.mp hs
    exact h.iget (by simp [hpc]) (by simp [hpc]) ht
  | trunc ip =>
    rw [hpc] at hs hfits
    cases hs
    obtain ⟨hl, hv, hd, hn⟩ := hfits
    have hrefs := h.locked ip p hl
    have hc := h.valid_coherent hrefs hv (.inr ⟨hl, by simp [hpc]⟩)
    refine h.own (by simp [hpc]) (by simp [hpc]) (by simp [hl]) hrefs rfl rfl rfl (.inr hl)
      (fun _ _ hne => write_of_ne hne) (by simp) (fun _ => .inr (.inr hv)) (fun _ _ => ?_) ?_
    · have hw : (s.update ip (s.entry ip).copy.trunc).disk (s.entry ip).dev (s.entry ip).inum =
          (s.entry ip).copy.trunc := write_self ..
      refine ⟨hc.type, ?_, fun _ => hw.symm⟩
      change ((s.update ip (s.entry ip).copy.trunc).disk (s.entry ip).dev (s.entry ip).inum).type ≠ 0
      rw [hw]
      exact hc.type
    · simp only [Fits, update_self]
      exact ⟨hl, hv, trivial, hn⟩
  | free ip =>
    rw [hpc] at hs hfits
    cases hs
    obtain ⟨hl, hv, hd, hn⟩ := hfits
    refine h.own (by simp [hpc]) (by simp [hpc]) (by simp [hl]) (h.locked ip p hl) rfl rfl rfl (.inr hl)
      (fun _ _ hne => write_of_ne hne) (by simp) (fun _ => .inr (.inl rfl)) (fun _ hne => ?_) ?_
    · exact absurd rfl (hne hl)
    · simp only [Fits, update_self]
      exact ⟨hl, trivial⟩
  | invalid ip =>
    rw [hpc] at hs hfits
    cases hs
    obtain ⟨hl, hd⟩ := hfits
    have hrefs := h.locked ip p hl
    refine h.own (by simp [hpc]) (fun jp hne => by simp [hpc, Ne.symm hne]) (by simp [hl]) hrefs rfl rfl rfl
      (.inl rfl) (fun _ _ _ => rfl) (fun _ => hd) (by simp) (by simp) ?_
    simp only [Fits, update_self]
    exact ⟨hrefs, by simp⟩
  | drop ip =>
    rw [hpc] at hs hfits
    cases hs
    have hle := h.refs_le p ip
    have hpos : 0 < s.refs p ip := hfits.1
    exact h.setRef (by simp [hpc]) (by simp [hpc]) (by omega) (.inl (by omega)) fun hl => absurd hl hfits.2

theorem Inv.call {l : Label ι} (h : Inv s) (hout : s.pc l.proc = .out) (hs : call s l = some s') :
    Inv s' := by
  have hload : ∀ jp, s.pc l.proc ≠ .load jp := by simp [hout]
  have hinvalid : ∀ jp, s.pc l.proc ≠ .invalid jp := by simp [hout]
  -- The step does not move the process.
  have hstay : ∀ {t : State ι}, t.pc = s.pc → Inv (t.goto l.proc .out) → Inv t := by
    intro t ht hi
    rwa [State.goto_self (by rw [ht, hout])] at hi
  have hvalid : ∀ {ip}, (s.entry ip).lock = some l.proc → (s.entry ip).valid = true := by
    intro ip hl
    exact ((h.held ip _ hl).resolve_left (hload ip)).resolve_left (hinvalid ip)
  unfold Itables.call at hs
  cases l with
  | iget p dev inum =>
    have hpc : s'.pc = s.pc := by
      obtain ⟨ip, -, -, -, rfl⟩ | ⟨ip, -, rfl, -⟩ := iget_cases hs <;> rfl
    exact hstay hpc (h.iget hload hinvalid hs)
  | idup p ip =>
    dsimp only at hs
    split_ifs at hs with hrefs
    cases hs
    have hle : s.refs p ip ≤ (s.entry ip).ref := h.refs_le p ip
    exact hstay rfl (h.setRef (p := p) hload hinvalid (by omega) (.inl (by omega)) fun _ => Nat.succ_pos _)
  | ilock p ip =>
    dsimp only at hs
    split_ifs at hs with hrefs
    cases hs
    exact h.goto hout (fun _ _ _ => rfl) hrefs
  | change p ip d =>
    dsimp only at hs
    split_ifs at hs with hg
    cases hs
    have hrefs := h.locked ip p hg.1
    have hc := h.valid_coherent hrefs (hvalid hg.1) (.inr ⟨hg.1, hinvalid ip⟩)
    refine hstay rfl (h.own (fun jp _ => hload jp) (fun jp _ => hinvalid jp) (by simp [hg.1, Label.proc]) hrefs
      rfl rfl rfl (.inr hg.1) (fun _ _ _ => rfl) (by simp [hg.1]) (fun _ => .inr (.inr (hvalid hg.1)))
      (fun _ _ => ⟨hg.2, hc.disk, by simp⟩) trivial)
  | iupdate p ip =>
    dsimp only at hs
    split_ifs at hs with hg
    cases hs
    have hrefs := h.locked ip p hg
    have hc := h.valid_coherent hrefs (hvalid hg) (.inr ⟨hg, hinvalid ip⟩)
    have hw : (s.update ip (s.entry ip).copy).disk (s.entry ip).dev (s.entry ip).inum =
        (s.entry ip).copy := write_self ..
    refine hstay rfl (h.own (fun jp _ => hload jp) (fun jp _ => hinvalid jp) (by simp [hg, Label.proc]) hrefs
      rfl rfl rfl (.inr hg) (fun _ _ hne => write_of_ne hne) (by simp)
      (fun _ => .inr (.inr (hvalid hg))) (fun _ _ => ⟨hc.type, ?_, fun _ => hw.symm⟩) trivial)
    change ((s.update ip (s.entry ip).copy).disk (s.entry ip).dev (s.entry ip).inum).type ≠ 0
    rw [hw]
    exact hc.type
  | iunlock p ip =>
    dsimp only at hs
    split_ifs at hs with hg
    cases hs
    have hrefs := h.locked ip p hg.1
    have hc := h.valid_coherent hrefs (hvalid hg.1) (.inr ⟨hg.1, hinvalid ip⟩)
    exact hstay rfl (h.own (fun jp _ => hload jp) (fun jp _ => hinvalid jp) (by simp [hg.1, Label.proc]) hrefs
      rfl rfl rfl (.inl rfl) (fun _ _ _ => rfl) (fun _ => hg.2) (by simp)
      (fun _ _ => ⟨hc.type, hc.disk, hc.copy⟩) trivial)
  | iput p ip =>
    dsimp only at hs
    split_ifs at hs with hg hfree hlock
    · cases hs
      have hc := h.valid_coherent hg.1 hfree.2.1 (.inl hlock)
      refine h.own (fun jp _ => hload jp) (fun jp _ => hinvalid jp) (by simp [hlock]) hg.1
        rfl rfl rfl (.inr rfl) (fun _ _ _ => rfl) (by simp) (fun _ => .inr (.inr hfree.2.1))
        (fun _ _ => ⟨hc.type, hc.disk, hc.copy⟩) ?_
      simp only [Fits, update_self]
      exact ⟨trivial, hfree.2.1, h.clean ip hlock, hfree.2.2⟩
    · cases hs
      have hle : s.refs p ip ≤ (s.entry ip).ref := h.refs_le p ip
      exact hstay rfl (h.setRef (p := p) hload hinvalid (by omega) (.inl (by omega)) fun hl => absurd hl hg.2)
  | ialloc p dev inum type =>
    dsimp only at hs
    split_ifs at hs with hg
    cases hs
    refine h.goto hout (fun dev' inum' htype => write_of_ne ?_) trivial
    rintro ⟨rfl, rfl⟩
    exact htype hg.1
  | go p => cases hs

theorem Inv.step {l : Label ι} (h : Inv s) (hs : next s l = some s') : Inv s' := by
  unfold next at hs
  split at hs
  next p => exact h.go hs
  next =>
    split_ifs at hs with hout
    exact h.call hout hs

theorem Run.inv {disk : ℕ → ℕ → Dinode} (h : Run disk s) : Inv s :=
  h.invariant (P := Inv) (init_inv disk) fun _ _ _ hi _ hs => hi.step hs

/-- **The inode table is coherent.** At most one entry is in use for an inode. When `ilock` returns, the
entry is valid and has the fields of the inode on disk. `iput` decides to free an inode only if it has no
links, in memory and on disk, and nobody else has a reference or the lock; then, until the inode is free
on disk, it has no links and `iput` has the lock. -/
theorem itable_coherent {disk : ℕ → ℕ → Dinode} (h : Run disk s) :
    (∀ ip jp, 0 < (s.entry ip).ref → 0 < (s.entry jp).ref → (s.entry ip).dev = (s.entry jp).dev →
      (s.entry ip).inum = (s.entry jp).inum → ip = jp) ∧
    (∀ p ip s', s.pc p = .load ip → next s (.go p) = some s' →
      s'.pc p = .out ∧ (s'.entry ip).lock = some p ∧ (s'.entry ip).valid = true ∧
      (s'.entry ip).copy = s'.dinode ip) ∧
    (∀ p ip s', next s (.iput p ip) = some s' → s'.pc p = .trunc ip →
      (s.entry ip).ref = 1 ∧ s.refs p ip = 1 ∧ (∀ q, q ≠ p → s.refs q ip = 0) ∧
      (s.entry ip).lock = none ∧ (s.entry ip).copy.nlink = 0 ∧ (s.dinode ip).nlink = 0) ∧
    ∀ p ip, s.pc p = .trunc ip ∨ s.pc p = .free ip →
      (s.entry ip).lock = some p ∧ (s.entry ip).copy.nlink = 0 ∧ (s.dinode ip).nlink = 0 := by
  have hi := Run.inv h
  refine ⟨hi.unique, fun p ip s' hpc hs => ?_, fun p ip s' hs hpc => ?_, fun p ip hpc => ?_⟩
  · have hfits := hi.fits p
    rw [hpc] at hfits
    obtain ⟨hl, hd⟩ := hfits
    change go s p = some s' at hs
    unfold go at hs
    rw [hpc] at hs
    dsimp only at hs
    split_ifs at hs with hv htype
    · cases hs
      have hc := hi.valid_coherent (hi.locked ip p hl) hv (.inr ⟨hl, by simp [hpc]⟩)
      exact ⟨update_self .., hl, hv, hc.copy hd⟩
    · cases hs
      refine ⟨update_self .., ?_⟩
      simp only [State.dinode, State.goto, State.setEntry, update_self]
      exact ⟨hl, trivial, trivial⟩
  · unfold next at hs
    dsimp only at hs
    split_ifs at hs with hout
    change s.pc p = .out at hout
    unfold call at hs
    dsimp only at hs
    split_ifs at hs with hg hfree hlock
    · have hc := hi.valid_coherent hg.1 hfree.2.1 (.inl hlock)
      have hle := hi.refs_le p ip
      refine ⟨hfree.1, by omega, fun q hq => ?_, hlock, hfree.2.2, ?_⟩
      · by_contra hpos
        exact hq (hi.only hfree.1 hg.1 (Nat.pos_of_ne_zero hpos))
      · rw [← hc.copy (hi.clean ip hlock)]
        exact hfree.2.2
    · cases hs
      change s.pc p = .trunc ip at hpc
      rw [hout] at hpc
      cases hpc
  · have hfits := hi.fits p
    have hown : (s.entry ip).lock = some p ∧ (s.entry ip).valid = true ∧ (s.entry ip).dirty = false ∧
        (s.entry ip).copy.nlink = 0 := by
      obtain hpc | hpc := hpc <;> rw [hpc] at hfits <;> exact hfits
    obtain ⟨hl, hv, hd, hn⟩ := hown
    have hne : s.pc p ≠ .invalid ip := by
      obtain hpc | hpc := hpc <;> simp [hpc]
    have hc := hi.valid_coherent (hi.locked ip p hl) hv (.inr ⟨hl, hne⟩)
    exact ⟨hl, hn, by rw [← hc.copy hd]; exact hn⟩

end

/-- The first entry of the table. -/
def first : Ino := ⟨0, zero_lt_ninode⟩

/-- Process 0 frees inode 5, and process 1 allocates it again before process 0 has dropped its
reference. -/
def reallocate : List (Label (Fin 2)) :=
  let p : Fin 2 := ⟨0, Nat.zero_lt_two⟩
  let q : Fin 2 := ⟨1, Nat.one_lt_two⟩
  [.iget p 1 5, .ilock p first, .go p, .go p, .change p first ⟨2, 0, 0, 0, 0, fun _ => 0⟩, .iupdate p first,
    .iunlock p first, .iput p first, .go p, .go p, .ialloc q 1 5 2, .go q, .ilock q first, .go p, .go p, .go q]

theorem itable_coherent_reallocate : ∃ s : State (Fin 2),
    Run (fun _ _ => ⟨2, 0, 0, 1, 0, fun _ => 0⟩) s ∧ s.pc 1 = .load first ∧
    ∃ s', next s (.go 1) = some s' ∧ (s'.entry first).valid = true ∧ (s'.entry first).copy = s'.dinode first := by
  have hex : (Lib.execute next (fun _ _ => true)
      (State.init fun _ _ => ⟨2, 0, 0, 1, 0, fun _ => 0⟩ : State (Fin 2)) reallocate).map
      (fun s => (s.pc 1, (next s (.go 1)).isSome)) = some (.load first, true) := by
    decide +kernel
  obtain ⟨s, hs, hmap⟩ := Option.map_eq_some_iff.mp hex
  rw [Prod.mk.injEq] at hmap
  obtain ⟨s', hs'⟩ := Option.isSome_iff_exists.mp hmap.2
  have hrun : Run (fun _ _ => ⟨2, 0, 0, 1, 0, fun _ => 0⟩) s :=
    Lib.Reach.execute (fun _ _ _ h => h) (fun _ _ _ => trivial) .init hs
  have hcoh := (itable_coherent hrun).2.1 1 first s' hmap.1 hs'
  exact ⟨s, hrun, hmap.1, s', hs', hcoh.2.2.1, hcoh.2.2.2⟩

end Xv6.Itables
