import Xv6.Vm.Image
import Xv6.Vm.Map

/-!
# User address spaces

A user page table maps the pages below the size of the process, and the trapframe and the trampoline
at the top. `Space L s T n top f` says that the tree `T` is such a table with `n` pages; `f` counts the
owners of pages other than the table. The process can write a page in place only if nobody else owns
it, and no page is mapped twice. The image of an address space shows pages that are shared
copy-on-write as writable.
-/

namespace Xv6.Vm

open Function
open Lib (Bytes wp)

/-- The number of virtual pages below the trapframe. -/
def userPages : ℕ := TRAPFRAME / PGSIZE

/-- The owners that the entries for user pages are. -/
def Tree.user (T : Tree) : ℕ → ℕ := ∑ v ∈ Finset.range userPages, own (T.leaf v)

/-- An entry for a user page: it can be read, and is not both writable and copy-on-write. -/
structure UserLeaf (e : ℕ) : Prop where
  valid : e.testBit 0 = true
  read : e.testBit 1 = true
  cow : ¬ (e.testBit 2 = true ∧ e.testBit 8 = true)

/-- The tree is a user page table with `n` pages. -/
structure Space (L : Layout) (s : Phys) (T : Tree) (n : ℕ) (top f : ℕ → ℕ) : Prop where
  has : Has L s T (T.user + f)
  mapped : ∀ v, v < n → UserLeaf (T.leaf v)
  unmapped : ∀ v, n ≤ v → v < userPages → T.leaf v = 0
  top : ∀ v, userPages ≤ v → T.leaf v = top v
  inj : ∀ v w, v < n → w < n → ppn (T.leaf v) = ppn (T.leaf w) → v = w
  priv : ∀ v, v < n → (T.leaf v).testBit 2 = true → f (ppn (T.leaf v)) = 0
  le : n ≤ userPages

/-- What an operation on an address space does not do: it keeps the root of the page table, and
neither changes nor takes pages that others own. -/
structure Local (f : ℕ → ℕ) (s : Phys) (T : Tree) (s' : Phys) (T' : Tree) : Prop where
  root : T'.root = T.root
  keeps : Keeps f s s'
  user : ∀ q, f q ≠ 0 → T'.user q ≤ T.user q

/-! ## Images -/

/-- What an entry shows. -/
def viewOf (mem : ℕ → Page) (e : ℕ) : Option View :=
  if e.testBit 0 then some ⟨mem (ppn e), e.testBit 2 || e.testBit 8, e.testBit 3, e.testBit 4⟩
  else none

/-- What a page table shows below the trapframe. -/
def Tree.image (T : Tree) (mem : ℕ → Page) : Image := fun v =>
  if v < userPages then viewOf mem (T.leaf v) else none

section User

variable {T T' : Tree} {v n q e : ℕ}

theorem userPages_eq : userPages = 2 ^ 26 - 2 := rfl

theorem own_ne_zero : own e q ≠ 0 ↔ e.testBit 0 = true ∧ ppn e = q := by
  unfold own
  split_ifs with h
  · simp [h, ref, eq_comm]
  · simp [h]

theorem Tree.user_apply (T : Tree) (q : ℕ) :
    T.user q = ∑ v ∈ Finset.range userPages, own (T.leaf v) q := by
  rw [Tree.user, Finset.sum_apply]

theorem Tree.user_ne_zero :
    T.user q ≠ 0 ↔ ∃ v, v < userPages ∧ (T.leaf v).testBit 0 = true ∧ ppn (T.leaf v) = q := by
  rw [Tree.user_apply, Ne, Finset.sum_eq_zero_iff]
  push Not
  simp only [own_ne_zero, Finset.mem_range]

theorem Tree.user_congr (T T' : Tree) (h : ∀ v, v < userPages → T'.leaf v = T.leaf v) : T'.user = T.user :=
  Finset.sum_congr rfl fun v hv => by rw [h v (Finset.mem_range.mp hv)]

theorem Tree.user_update (T T' : Tree) (hleaf : T'.leaf = update T.leaf v e)
    (hv : v < userPages) :
    T'.user + own (T.leaf v) = T.user + own e := by
  have hmem : v ∈ Finset.range userPages := Finset.mem_range.mpr hv
  have hrest : ∑ w ∈ (Finset.range userPages).erase v, own (T'.leaf w) =
      ∑ w ∈ (Finset.range userPages).erase v, own (T.leaf w) :=
    Finset.sum_congr rfl fun w hw => by
      rw [hleaf, update_of_ne (Finset.ne_of_mem_erase hw)]
  rw [Tree.user, Tree.user, ← Finset.sum_erase_add _ _ hmem,
    ← Finset.sum_erase_add (Finset.range userPages) _ hmem, hrest, hleaf, update_self]
  abel

theorem Tree.user_clear (T : Tree) (v n : ℕ) (h : v + n ≤ userPages) :
    T.user = T.span v n + (T.clear v n).user := by
  induction n generalizing T v with
  | zero =>
    rw [Tree.clear_zero, Tree.span, Finset.sum_range_zero, zero_add]
  | succ n ih =>
    have hspan : (T.setLeaf v 0).span (v + 1) n = T.span (v + 1) n :=
      Tree.span_congr fun k _ => update_of_ne (by omega) _ _
    have hstep := T.user_update (T.setLeaf v 0) rfl (show v < userPages by omega)
    rw [own_zero, add_zero] at hstep
    rw [← hstep, ih (T.setLeaf v 0) (v + 1) (by omega), hspan, Tree.clear_succ, Tree.span_succ]
    abel

theorem viewOf_congr {mem mem' : ℕ → Page} (h : e.testBit 0 = true → mem' (ppn e) = mem (ppn e)) :
    viewOf mem' e = viewOf mem e := by
  unfold viewOf
  split_ifs with hv
  · rw [h hv]
  · rfl

end User

section Local

variable {f g : ℕ → ℕ} {s s' s'' : Phys} {T T' T'' : Tree}

theorem Local.refl (f : ℕ → ℕ) (s : Phys) (T : Tree) : Local f s T s T :=
  ⟨rfl, .refl f s, fun _ _ => le_rfl⟩

theorem Local.trans (h : Local f s T s' T') (h' : Local f s' T' s'' T'') : Local f s T s'' T'' :=
  ⟨h'.root.trans h.root, h.keeps.trans h'.keeps, fun q hq => (h'.user q hq).trans (h.user q hq)⟩

end Local

section Space

variable {L : Layout} {s s' : Phys} {T T' : Tree} {n v p : ℕ} {top f : ℕ → ℕ}

theorem Space.user_ne_zero (h : Space L s T n top f) (hv : v < n) : T.user (ppn (T.leaf v)) ≠ 0 :=
  Tree.user_ne_zero.mpr ⟨v, hv.trans_le h.le, (h.mapped v hv).valid, rfl⟩

theorem Space.inRam (h : Space L s T n top f) (hv : v < n) : InRam L (ppn (T.leaf v)) :=
  h.has.acct.inRam _ (by simp [h.user_ne_zero hv])

/-- A process has fewer pages than there are in memory, so it never reaches the trapframe. -/
theorem Space.lt_ram (h : Space L s T n top f) : n ≤ 0x88000 := by
  have hcard := Finset.card_le_card_of_injOn (s := Finset.range n) (t := Finset.range 0x88000)
    (fun v => ppn (T.leaf v))
    (fun v hv => Finset.mem_range.mpr (h.inRam (Finset.mem_range.mp hv)).lt)
    (fun v hv w hw => h.inj v w (Finset.mem_range.mp hv) (Finset.mem_range.mp hw))
  simpa using hcard

theorem Space.va_lt (h : Space L s T n top f) (hv : v ≤ n) : v * PGSIZE < MAXVA := by
  have := h.lt_ram
  unfold PGSIZE MAXVA
  omega

theorem Space.valid_iff (h : Space L s T n top f) (hv : v < userPages) :
    (T.leaf v).testBit 0 = true ↔ v < n := by
  refine ⟨fun hvalid => ?_, fun hlt => (h.mapped v hlt).valid⟩
  by_contra hge
  rw [h.unmapped v (by omega) hv] at hvalid
  simp at hvalid

theorem Space.pt_eq_zero (h : Space L s T n top f) {q : ℕ} (hq : T.user q ≠ 0 ∨ f q ≠ 0) :
    T.pt q = 0 :=
  h.has.pt_eq_zero (by rw [Pi.add_apply]; omega)

theorem Space.image_of_le (h : Space L s T n top f) (hv : n ≤ v) (mem : ℕ → Page) :
    T.image mem v = none := by
  unfold Tree.image
  split_ifs with hlt
  · rw [h.unmapped v hv hlt]
    simp [viewOf]
  · rfl

theorem Space.image_of_lt (h : Space L s T n top f) (hv : v < n) (mem : ℕ → Page) :
    T.image mem v = some ⟨mem (ppn (T.leaf v)), (T.leaf v).testBit 2 || (T.leaf v).testBit 8,
      (T.leaf v).testBit 3, (T.leaf v).testBit 4⟩ := by
  rw [Tree.image, if_pos (hv.trans_le h.le), viewOf, if_pos (h.mapped v hv).valid]

theorem Space.image_truncate (h : Space L s T n top f) : (T.image s.mem).truncate n = T.image s.mem := by
  funext v
  unfold Image.truncate
  split_ifs with hv
  · rfl
  · exact (h.image_of_le (by omega) _).symm

/-- An address space is not affected by what happens to pages it does not own, as long as no other
owner appears for a page that it can write in place or that is part of its table. -/
theorem Space.frame (h : Space L s T n top f) {g : ℕ → ℕ} (hacct : Acct L s' (T.pt + (T.user + g)))
    (hmem : ∀ q, T.pt q ≠ 0 → s'.mem q = s.mem q) (hpt : ∀ q, T.pt q ≠ 0 → g q = 0)
    (hpriv : ∀ v, v < n → (T.leaf v).testBit 2 = true → g (ppn (T.leaf v)) = 0) :
    Space L s' T n top g where
  has := h.has.frame hacct hmem fun q hq => by
    have hzero := h.has.excl q hq
    rw [Pi.add_apply] at hzero ⊢
    have := hpt q hq
    omega
  mapped := h.mapped
  unmapped := h.unmapped
  top := h.top
  inj := h.inj
  priv := hpriv
  le := h.le

end Space

end Xv6.Vm
