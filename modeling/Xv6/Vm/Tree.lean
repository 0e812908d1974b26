import Xv6.Vm.Vm

/-!
# Page tables as trees

A page table is three levels of pages. `Tree` names the page of each place in it (`Slot`) and the
entries of the lowest level, and `Rep mem T` says that memory holds the tree. `Has L s T f` adds the
allocator: the pages of the tree have the tree as their only owner, and all other owners are those
that `f` counts. The specifications below keep `f`, so that code which adds or drops page-table pages
says nothing about the rest of memory except that pages counted by `f` are unchanged.
-/

namespace Xv6.Vm

open Function Lib

/-- The places of page-table pages: the root, the pages below its entries, and the lowest level. -/
inductive Slot
  | root
  | mid (i : ℕ)
  | low (k : ℕ)
  deriving DecidableEq

/-- A page table: where its pages are, and the entries for the virtual pages. -/
structure Tree where
  root : ℕ
  mid : ℕ → Option ℕ
  low : ℕ → Option ℕ
  leaf : ℕ → ℕ

/-- An entry of an upper level: nothing, or a page of the next level. -/
def dirEntry : Option ℕ → ℕ
  | none => 0
  | some p => mkPte p PTE_V

/-- The owner that a place of the tree is for its page. -/
def pageRef : Option ℕ → ℕ → ℕ
  | none => 0
  | some p => ref p

namespace Tree

/-- The page at a place. -/
def page (T : Tree) : Slot → Option ℕ
  | .root => some T.root
  | .mid i => T.mid i
  | .low k => T.low k

/-- Entry `j` of the page at a place. -/
def entry (T : Tree) : Slot → ℕ → ℕ
  | .root, j => dirEntry (T.mid j)
  | .mid i, j => dirEntry (T.low (512 * i + j))
  | .low k, j => T.leaf (512 * k + j)

/-- The tree with page `p` at a place. -/
def put (T : Tree) (p : Option ℕ) : Slot → Tree
  | .root => T
  | .mid i => { T with mid := update T.mid i p }
  | .low k => { T with low := update T.low k p }

/-- The tree with another entry for virtual page `v`. -/
def setLeaf (T : Tree) (v e : ℕ) : Tree := { T with leaf := update T.leaf v e }

end Tree

/-- The places that exist. -/
def slots : Finset Slot :=
  insert .root ((Finset.range 512).image .mid ∪ (Finset.range (512 * 512)).image .low)

/-- The place and the index of the entry that points to a place. -/
def Slot.parent : Slot → Option (Slot × ℕ)
  | .root => none
  | .mid i => some (.root, i)
  | .low k => some (.mid (k / 512), k % 512)

/-- The owners of pages that the tree's own pages amount to. -/
def Tree.pt (T : Tree) : ℕ → ℕ := ∑ x ∈ slots, pageRef (T.page x)

/-- Memory holds the tree. -/
structure Rep (mem : ℕ → Page) (T : Tree) : Prop where
  slot : ∀ x, T.page x ≠ none → x ∈ slots
  entry : ∀ x p, T.page x = some p → ∀ j, j < 512 → (mem p).le (8 * j) 8 = T.entry x j
  low_eq_none : ∀ k, T.mid (k / 512) = none → T.low k = none
  leaf_eq_zero : ∀ v, T.low (v / 512) = none → T.leaf v = 0

/-- Memory holds the tree, and the owners of all pages are the tree for its own pages, and `f`. -/
structure Has (L : Layout) (s : Phys) (T : Tree) (f : ℕ → ℕ) : Prop where
  rep : Rep s.mem T
  acct : Acct L s (T.pt + f)
  excl : ∀ p, T.pt p ≠ 0 → T.pt p + f p = 1

/-- The pages with an owner counted by `f` are unchanged. -/
def Keeps (f : ℕ → ℕ) (s s' : Phys) : Prop := ∀ q, f q ≠ 0 → s'.mem q = s.mem q

section Slots

variable {T : Tree} {x y : Slot} {p q j k : ℕ}

@[simp]
theorem mem_slots_root : Slot.root ∈ slots := Finset.mem_insert_self _ _

@[simp]
theorem mem_slots_mid {i : ℕ} : Slot.mid i ∈ slots ↔ i < 512 := by
  simp [slots]

@[simp]
theorem mem_slots_low : Slot.low k ∈ slots ↔ k < 512 * 512 := by
  simp [slots]

theorem parent_index_lt (hx : x ∈ slots) {y : Slot} (h : x.parent = some (y, j)) : j < 512 := by
  cases x with
  | root => simp [Slot.parent] at h
  | mid i =>
    rw [mem_slots_mid] at hx
    simp only [Slot.parent, Option.some.injEq, Prod.mk.injEq] at h
    omega
  | low k =>
    simp only [Slot.parent, Option.some.injEq, Prod.mk.injEq] at h
    omega

theorem Tree.entry_parent (T : Tree) (h : x.parent = some (y, j)) :
    T.entry y j = dirEntry (T.page x) := by
  cases x with
  | root => simp [Slot.parent] at h
  | mid i =>
    simp only [Slot.parent, Option.some.injEq, Prod.mk.injEq] at h
    obtain ⟨rfl, rfl⟩ := h
    rfl
  | low k =>
    simp only [Slot.parent, Option.some.injEq, Prod.mk.injEq] at h
    obtain ⟨rfl, rfl⟩ := h
    simp only [Tree.entry, Tree.page, Nat.div_add_mod]

@[simp]
theorem Tree.put_root (T : Tree) (o : Option ℕ) (x : Slot) : (T.put o x).root = T.root := by
  cases x <;> rfl

@[simp]
theorem Tree.put_leaf (T : Tree) (o : Option ℕ) (x : Slot) : (T.put o x).leaf = T.leaf := by
  cases x <;> rfl

theorem Tree.page_put (T : Tree) (o : Option ℕ) (hx : x ≠ .root) :
    (T.put o x).page y = if y = x then o else T.page y := by
  cases x with
  | root => exact absurd rfl hx
  | mid i | low k => cases y <;> simp [Tree.put, Tree.page, update_apply]

theorem Tree.entry_put (T : Tree) (o : Option ℕ) {z : Slot} (h : x.parent = some (y, j))
    (hk : k < 512) :
    (T.put o x).entry z k = if z = y ∧ k = j then dirEntry o else T.entry z k := by
  cases x with
  | root => simp [Slot.parent] at h
  | mid i =>
    simp only [Slot.parent, Option.some.injEq, Prod.mk.injEq] at h
    obtain ⟨rfl, rfl⟩ := h
    cases z <;> simp [Tree.put, Tree.entry, update_apply, apply_ite dirEntry]
  | low l =>
    simp only [Slot.parent, Option.some.injEq, Prod.mk.injEq] at h
    obtain ⟨rfl, rfl⟩ := h
    cases z with
    | root | low m => simp [Tree.put, Tree.entry]
    | mid i =>
      have hiff : 512 * i + k = l ↔ i = l / 512 ∧ k = l % 512 := by omega
      simp [Tree.put, Tree.entry, update_apply, apply_ite dirEntry, hiff]

theorem Tree.setLeaf_self (T : Tree) (v e : ℕ) : (T.setLeaf v e).leaf v = e :=
  update_self ..

theorem Tree.setLeaf_of_ne (T : Tree) {v w : ℕ} (h : w ≠ v) (e : ℕ) :
    (T.setLeaf v e).leaf w = T.leaf w :=
  update_of_ne h ..

@[simp]
theorem Tree.setLeaf_pt (T : Tree) (v e : ℕ) : (T.setLeaf v e).pt = T.pt := rfl

theorem Tree.pt_apply (T : Tree) (p : ℕ) : T.pt p = ∑ x ∈ slots, pageRef (T.page x) p := by
  rw [Tree.pt, Finset.sum_apply]

theorem pageRef_ne_zero {o : Option ℕ} : pageRef o p ≠ 0 ↔ o = some p := by
  cases o with
  | none => simp [pageRef]
  | some q => simp [pageRef, ref, eq_comm]

theorem Tree.pt_ne_zero : T.pt p ≠ 0 ↔ ∃ x ∈ slots, T.page x = some p := by
  rw [Tree.pt_apply, Ne, Finset.sum_eq_zero_iff]
  push Not
  simp only [pageRef_ne_zero]

theorem Tree.two_le_pt (hx : x ∈ slots) (hy : y ∈ slots) (hne : x ≠ y) (hpx : T.page x = some p)
    (hpy : T.page y = some p) : 2 ≤ T.pt p := by
  have hsub : ({x, y} : Finset Slot) ⊆ slots := by
    intro z hz
    rcases Finset.mem_insert.mp hz with rfl | hz
    · exact hx
    · exact Finset.mem_singleton.mp hz ▸ hy
  calc 2 = ∑ z ∈ {x, y}, pageRef (T.page z) p := by
        rw [Finset.sum_pair hne, hpx, hpy]
        simp [pageRef]
    _ ≤ T.pt p := by
        rw [Tree.pt_apply]
        exact Finset.sum_le_sum_of_subset hsub

theorem Tree.pt_put (hx : x ∈ slots) (hroot : x ≠ .root) {o : Option ℕ} :
    (T.put o x).pt + pageRef (T.page x) = T.pt + pageRef o := by
  have hrest : ∑ z ∈ slots.erase x, pageRef ((T.put o x).page z) =
      ∑ z ∈ slots.erase x, pageRef (T.page z) :=
    Finset.sum_congr rfl fun z hz => by rw [T.page_put o hroot, if_neg (Finset.ne_of_mem_erase hz)]
  rw [Tree.pt, Tree.pt, ← Finset.sum_erase_add _ _ hx, ← Finset.sum_erase_add slots _ hx, hrest,
    T.page_put o hroot, if_pos rfl]
  abel

end Slots

/-! ## Access to memory -/

/-- The state with other contents in page `p`. -/
def Phys.write (s : Phys) (p : ℕ) (b : Page) : Phys := { s with mem := update s.mem p b }

section Access

variable {L : Layout} {s : Phys} {c : ℕ → ℕ} {p q j : ℕ} {b : Page}

@[simp]
theorem Phys.write_self : (s.write p b).mem p = b := update_self ..

theorem Phys.write_of_ne (h : q ≠ p) : (s.write p b).mem q = s.mem q := update_of_ne h ..

@[simp]
theorem Phys.write_oom : (s.write p b).oom = s.oom := rfl

theorem Acct.write (h : Acct L s c) (hp : c p ≠ 0) : Acct L (s.write p b) c :=
  h.setMem fun q hq => update_of_ne (by rintro rfl; exact hp hq) _ _

theorem entry_page (hj : j < 512) : (p * PGSIZE + 8 * j) / PGSIZE = p := by
  unfold PGSIZE
  omega

theorem entry_offset (hj : j < 512) : (p * PGSIZE + 8 * j) % PGSIZE = 8 * j := by
  unfold PGSIZE
  omega

theorem wp_load64 (hj : j < 512) {Q : ℕ → Phys → Prop} :
    wp (load64 (p * PGSIZE + 8 * j)) s Q ↔ Q ((s.mem p).le (8 * j) 8) s := by
  rw [load64, entry_page hj, entry_offset hj]
  simp only [wp_bind, wp_get, wp_pure]

theorem wp_store64 (hj : j < 512) {v : ℕ} {Q : Unit → Phys → Prop} :
    wp (store64 (p * PGSIZE + 8 * j) v) s Q ↔
      Q ⟨⟩ (s.write p ((s.mem p).setLe (8 * j) 8 v)) := by
  rw [store64, entry_page hj, entry_offset hj]
  exact wp_modify _

theorem wp_memset {v : UInt8} {Q : Unit → Phys → Prop} :
    wp (memset (p * PGSIZE) v) s Q ↔ Q ⟨⟩ (s.write p (Bytes.fill PGSIZE v)) := by
  rw [memset, mul_div_pgsize]
  exact wp_modify _

theorem wp_copyPage {Q : Unit → Phys → Prop} :
    wp (copyPage (p * PGSIZE) (q * PGSIZE)) s Q ↔ Q ⟨⟩ (s.write p (s.mem q)) := by
  rw [copyPage, mul_div_pgsize, mul_div_pgsize]
  exact wp_modify _

end Access

section Rep

variable {mem mem' : ℕ → Page} {T T' : Tree} {x y : Slot} {p q j e : ℕ}

theorem Rep.congr (h : Rep mem T) (hmem : ∀ p, T.pt p ≠ 0 → mem' p = mem p) : Rep mem' T where
  slot := h.slot
  entry x p hp j hj := by
    rw [hmem p (Tree.pt_ne_zero.mpr ⟨x, h.slot x (by simp [hp]), hp⟩)]
    exact h.entry x p hp j hj
  low_eq_none := h.low_eq_none
  leaf_eq_zero := h.leaf_eq_zero

theorem entry_setLe {b : Page} {k : ℕ} (hj : j < 512) (hk : k < 512) (he : e < 2 ^ 64) :
    (b.setLe (8 * j) 8 e).le (8 * k) 8 = if k = j then e else b.le (8 * k) 8 := by
  split_ifs with hkj
  · subst hkj
    rw [Bytes.le_setLe _ _ _ _ (by unfold PGSIZE; omega), Nat.mod_eq_of_lt (by simpa using he)]
  · exact Bytes.le_setLe_of_disjoint _ _ _ _ _ _ (by omega)

theorem Rep.low_of_leaf (h : Rep mem T) {v : ℕ} (hv : T.leaf v ≠ 0) :
    ∃ p, T.low (v / 512) = some p :=
  Option.ne_none_iff_exists'.mp fun hnone => hv (h.leaf_eq_zero v hnone)

end Rep

section Has

variable {L : Layout} {s s' : Phys} {T : Tree} {f : ℕ → ℕ} {x y : Slot} {p q j : ℕ}

theorem Has.rest_eq_zero (h : Has L s T f) (hp : T.page x = some p) : f p = 0 := by
  have hpt := Tree.pt_ne_zero.mpr ⟨x, h.rep.slot x (by simp [hp]), hp⟩
  have := h.excl p hpt
  omega

theorem Has.pt_ne_zero (h : Has L s T f) (hp : T.page x = some p) : T.pt p ≠ 0 :=
  Tree.pt_ne_zero.mpr ⟨x, h.rep.slot x (by simp [hp]), hp⟩

theorem Has.inRam (h : Has L s T f) (hp : T.page x = some p) : InRam L p :=
  h.acct.inRam p (by simp [h.pt_ne_zero hp])

theorem Has.inj (h : Has L s T f) (hx : T.page x = some p) (hy : T.page y = some p) : x = y := by
  by_contra hne
  have h2 := Tree.two_le_pt (h.rep.slot x (by simp [hx])) (h.rep.slot y (by simp [hy])) hne hx hy
  have h1 := h.excl p (by omega)
  omega

theorem Has.pt_eq_zero (h : Has L s T f) (hp : f p ≠ 0) : T.pt p = 0 := by
  by_contra hpt
  have := h.excl p hpt
  omega

theorem Has.frame (h : Has L s T f) {g : ℕ → ℕ} (hacct : Acct L s' (T.pt + g))
    (hmem : ∀ q, T.pt q ≠ 0 → s'.mem q = s.mem q) (hg : ∀ q, T.pt q ≠ 0 → g q = 0) :
    Has L s' T g where
  rep := h.rep.congr hmem
  acct := hacct
  excl q hq := by
    have := h.excl q hq
    rw [hg q hq]
    omega

theorem Has.write (h : Has L s T f) (hp : f p ≠ 0) (b : Page) : Has L (s.write p b) T f where
  rep := h.rep.congr fun q hq => Phys.write_of_ne (by rintro rfl; exact hq (h.pt_eq_zero hp))
  acct := h.acct.write (by simp [hp])
  excl := h.excl

theorem Has.setLeaf (h : Has L s T f) {v e : ℕ} (hp : T.low (v / 512) = some p) (he : e < 2 ^ 64) :
    Has L (s.write p ((s.mem p).setLe (8 * (v % 512)) 8 e)) (T.setLeaf v e) f where
  rep := by
    refine ⟨h.rep.slot, fun y q hq k hk => ?_, h.rep.low_eq_none, fun w hw => ?_⟩
    · have hold := h.rep.entry y q hq k hk
      by_cases hqp : q = p
      · subst hqp
        obtain rfl : y = .low (v / 512) := h.inj hq (y := .low (v / 512)) hp
        have hiff : k = v % 512 ↔ 512 * (v / 512) + k = v := by omega
        rw [Phys.write_self, entry_setLe (Nat.mod_lt _ (by decide)) hk he, hold]
        simp only [Tree.entry, Tree.setLeaf, update_apply, hiff]
      · rw [Phys.write_of_ne hqp, hold]
        cases y with
        | root => rfl
        | mid i => rfl
        | low l =>
          have hne : 512 * l + k ≠ v := by
            rintro rfl
            have : (512 * l + k) / 512 = l := by omega
            rw [this] at hp
            exact hqp (Option.some.inj (hq.symm.trans hp))
          simp only [Tree.entry, Tree.setLeaf, update_of_ne hne]
    · have hne : w ≠ v := by
        rintro rfl
        exact absurd (hw.symm.trans hp) (by simp)
      simp only [Tree.setLeaf, update_of_ne hne]
      exact h.rep.leaf_eq_zero w hw
  acct := by
    have hpt : T.pt p ≠ 0 := h.pt_ne_zero (x := .low (v / 512)) hp
    exact h.acct.write (by simp [hpt])
  excl := h.excl

theorem Rep.entry_eq_zero {mem : ℕ → Page} (h : Rep mem T) {k : ℕ} (hx : T.page x = none)
    (hk : k < 512) : T.entry x k = 0 := by
  cases x with
  | root => simp [Tree.page] at hx
  | mid i =>
    have hlow := h.low_eq_none (512 * i + k) (by rw [show (512 * i + k) / 512 = i by omega]; exact hx)
    simp [Tree.entry, hlow, dirEntry]
  | low l => exact h.leaf_eq_zero (512 * l + k) (by rw [show (512 * l + k) / 512 = l by omega]; exact hx)

/-- A new page below an entry: it is zeroed, and the entry points to it. -/
theorem Has.put (h : Has L s T f) (hx : x ∈ slots) (hy : x.parent = some (y, j))
    (hq : T.page y = some q) (hnone : T.page x = none) (hfree : T.pt p + f p = 0)
    (hacct : Acct L s' (T.pt + f + ref p)) (hp : s'.mem p = Bytes.fill PGSIZE 0)
    (hq' : s'.mem q = (s.mem q).setLe (8 * j) 8 (dirEntry (some p)))
    (hmem : ∀ r, r ≠ p → r ≠ q → s'.mem r = s.mem r) : Has L s' (T.put (some p) x) f := by
  have hroot : x ≠ .root := by
    rintro rfl
    simp [Slot.parent] at hy
  have hxy : x ≠ y := by
    rintro rfl
    simp [hnone] at hq
  have hram : InRam L p := hacct.inRam p (by simp)
  have hpt : (T.put (some p) x).pt = T.pt + ref p := by
    have := Tree.pt_put (T := T) hx hroot (o := some p)
    simpa [hnone, pageRef] using this
  have hnew : ∀ {z r}, T.page z = some r → r ≠ p := by
    rintro z r hz rfl
    have := h.pt_ne_zero hz
    omega
  refine ⟨⟨fun z hz => ?_, fun z r hr k hk => ?_, fun k hk => ?_, fun v hv => ?_⟩, ?_, fun r hr => ?_⟩
  · by_cases hzx : z = x
    · exact hzx ▸ hx
    · rw [T.page_put _ hroot, if_neg hzx] at hz
      exact h.rep.slot z hz
  · rw [T.page_put _ hroot] at hr
    rw [T.entry_put _ hy hk]
    split_ifs at hr with hzx
    · -- The new page is empty.
      cases hr
      rw [if_neg (fun hzy => hxy (hzx.symm.trans hzy.1)), hp, Bytes.le_fill_zero, hzx,
        h.rep.entry_eq_zero hnone hk]
    · have hold := h.rep.entry z r hr k hk
      by_cases hrq : r = q
      · subst hrq
        obtain rfl : z = y := h.inj hr hq
        have hlt : dirEntry (some p) < 2 ^ 64 := by
          have := hram.lt
          change mkPte p PTE_V < 2 ^ 64
          unfold mkPte PTE_V
          omega
        rw [hq', entry_setLe (parent_index_lt hx hy) hk hlt, hold]
        simp
      · have hzy : z ≠ y := by
          rintro rfl
          exact hrq (Option.some.inj (hr.symm.trans hq))
        rw [if_neg (fun h => hzy h.1), hmem r (hnew hr) hrq, hold]
  · cases x with
    | root => exact absurd rfl hroot
    | mid i =>
      simp only [Tree.put, update_apply] at hk ⊢
      split_ifs at hk
      exact h.rep.low_eq_none k hk
    | low l =>
      simp only [Slot.parent, Option.some.injEq, Prod.mk.injEq] at hy
      obtain ⟨rfl, rfl⟩ := hy
      have hkl : k ≠ l := by
        rintro rfl
        exact absurd (hk.symm.trans hq) (by simp)
      simp only [Tree.put, update_of_ne hkl]
      exact h.rep.low_eq_none k hk
  · rw [Tree.put_leaf]
    refine h.rep.leaf_eq_zero v ?_
    cases x with
    | root => exact absurd rfl hroot
    | mid i => exact hv
    | low l =>
      simp only [Tree.put, update_apply] at hv
      split_ifs at hv
      exact hv
  · rw [hpt, add_right_comm]
    exact hacct
  · rw [hpt, Pi.add_apply] at hr ⊢
    by_cases hrp : r = p
    · subst hrp
      rw [ref_self]
      omega
    · rw [ref_of_ne hrp, add_zero] at hr ⊢
      exact h.excl r hr

end Has

/-! ## Walking -/

/-- `T'` has the pages of `T`, and maps the same. -/
structure Tree.Grows (T T' : Tree) : Prop where
  root : T'.root = T.root
  leaf : T'.leaf = T.leaf
  page : ∀ z p, T.page z = some p → T'.page z = some p

theorem Tree.Grows.refl (T : Tree) : T.Grows T := ⟨rfl, rfl, fun _ _ h => h⟩

theorem Tree.Grows.trans {T T' T'' : Tree} (h : T.Grows T') (h' : T'.Grows T'') : T.Grows T'' :=
  ⟨h'.root.trans h.root, h'.leaf.trans h.leaf, fun z p hz => h'.page z p (h.page z p hz)⟩

theorem Keeps.refl (f : ℕ → ℕ) (s : Phys) : Keeps f s s := fun _ _ => rfl

theorem Keeps.trans {f : ℕ → ℕ} {s s' s'' : Phys} (h : Keeps f s s') (h' : Keeps f s' s'') :
    Keeps f s s'' := fun q hq => (h' q hq).trans (h q hq)

theorem Keeps.mono {f g : ℕ → ℕ} {s s' : Phys} (h : Keeps f s s') (hg : ∀ q, g q ≠ 0 → f q ≠ 0) :
    Keeps g s s' := fun q hq => h q (hg q hq)

section Walk

variable {L : Layout} {s s' : Phys} {T : Tree} {f : ℕ → ℕ} {x y : Slot} {p q j va level : ℕ}
  {alloc : Bool}

@[simp]
theorem pte2pa_dirEntry (p : ℕ) : pte2pa (dirEntry (some p)) = p * PGSIZE := by
  rw [dirEntry, pte2pa_eq, ppn_mkPte (by decide)]

@[simp]
theorem dirEntry_valid (p : ℕ) : (dirEntry (some p)).testBit 0 = true := by
  rw [dirEntry, testBit_mkPte_lt (by decide) (by decide)]
  rfl

theorem wp_walkStep_some (h : Has L s T f) (hx : x.parent = some (y, j)) (hj : px level va = j)
    (hy : T.page y = some q) (hp : T.page x = some p) {Q : Option ℕ → Phys → Prop} :
    wp (walkStep (q * PGSIZE) va level alloc) s Q ↔ Q (some (p * PGSIZE)) s := by
  have hlt := parent_index_lt (h.rep.slot x (by simp [hp])) hx
  have hentry : (s.mem q).le (8 * j) 8 = dirEntry (some p) := by
    rw [h.rep.entry y q hy j hlt, T.entry_parent hx, hp]
  unfold walkStep
  simp only [hj, wp_bind, wp_load64 hlt, hentry, has_V, dirEntry_valid, if_true, wp_pure,
    pte2pa_dirEntry]

theorem wp_walkStep_none (h : Has L s T f) (hx : x.parent = some (y, j)) (hj : px level va = j)
    (hlt : j < 512) (hy : T.page y = some q) (hp : T.page x = none) {Q : Option ℕ → Phys → Prop} :
    wp (walkStep (q * PGSIZE) va level false) s Q ↔ Q none s := by
  have hentry : (s.mem q).le (8 * j) 8 = 0 := by
    rw [h.rep.entry y q hy j hlt, T.entry_parent hx, hp]
    rfl
  unfold walkStep
  simp only [hj, wp_bind, wp_load64 hlt, hentry]
  simp

/-- A step of `walk` that allocates: the page is there afterwards, unless memory ran out. -/
theorem walkStep_spec (h : Has L s T f) (hx : x ∈ slots) (hparent : x.parent = some (y, j))
    (hj : px level va = j) (hy : T.page y = some q) :
    wp (walkStep (q * PGSIZE) va level true) s fun r s' => ∃ T', Has L s' T' f ∧ Keeps f s s' ∧
      T.Grows T' ∧ (r = none ∧ s'.oom = true ∨
        ∃ p, r = some (p * PGSIZE) ∧ T'.page x = some p ∧ s'.oom = s.oom) := by
  have hlt := parent_index_lt hx hparent
  cases hpage : T.page x with
  | some p =>
    rw [wp_walkStep_some h hparent hj hy hpage]
    exact ⟨T, h, .refl f s, .refl T, .inr ⟨p, rfl, hpage, rfl⟩⟩
  | none =>
    have hentry : (s.mem q).le (8 * j) 8 = 0 := by
      rw [h.rep.entry y q hy j hlt, T.entry_parent hparent, hpage]
      rfl
    have hroot : x ≠ .root := by
      rintro rfl
      simp [Slot.parent] at hparent
    unfold walkStep
    simp only [hj, wp_bind, wp_load64 hlt, hentry, has_V, Nat.zero_testBit, Bool.false_eq_true,
      if_false, Bool.not_true]
    refine wp.mono (kalloc_spec h.acct) ?_
    rintro pa t (⟨rfl, hacct, hmem, hoom⟩ | ⟨p, rfl, hram, hfree, hacct, hupd, hoom⟩)
    · rw [if_pos rfl, wp_pure]
      have hkeep : ∀ q, t.mem q = s.mem q := fun q => by rw [hmem]
      exact ⟨T, h.frame hacct (fun q _ => hkeep q) fun q hq => by have := h.excl q hq; omega,
        fun q _ => hkeep q, .refl T, .inl ⟨rfl, hoom⟩⟩
    · rw [if_neg (Nat.mul_ne_zero hram.pos pgsize_pos.ne')]
      have hmem : ∀ r, r ≠ p → t.mem r = s.mem r := fun r hr => by
        rw [hupd, update_of_ne hr]
      have hfree' : T.pt p + f p = 0 := hfree
      have hqpt := h.pt_ne_zero hy
      have hqp : q ≠ p := by
        rintro rfl
        omega
      have hpte : pa2pte (p * PGSIZE) ||| PTE_V = dirEntry (some p) := by
        rw [← Nat.or_zero (pa2pte (p * PGSIZE)), pa2pte_or p (by decide), Nat.zero_or]
        rfl
      simp only [wp_bind, wp_memset, wp_store64 hlt, wp_pure, hpte, Phys.write_of_ne hqp]
      have hput : Has L ((t.write p (Bytes.fill PGSIZE 0)).write q
          ((t.mem q).setLe (8 * j) 8 (dirEntry (some p)))) (T.put (some p) x) f :=
        h.put hx hparent hy hpage hfree' ((hacct.write (by simp)).write (by simp [hqpt])) (by rw [Phys.write_of_ne hqp.symm]; simp)
        (by rw [Phys.write_self, hmem q hqp])
        (fun r hrp hrq => by rw [Phys.write_of_ne hrq, Phys.write_of_ne hrp, hmem r hrp])
      refine ⟨_, hput, fun r hr => ?_, ⟨by simp, by simp, fun z r hz => ?_⟩,
        .inr ⟨p, rfl, by rw [T.page_put _ hroot, if_pos rfl], hoom⟩⟩
      · have hrp : r ≠ p := by
          rintro rfl
          omega
        have hrq : r ≠ q := by
          rintro rfl
          exact hqpt (h.pt_eq_zero hr)
        rw [Phys.write_of_ne hrq, Phys.write_of_ne hrp, hmem r hrp]
      · rw [T.page_put _ hroot, if_neg, hz]
        rintro rfl
        simp [hpage] at hz

theorem wp_walk_some (h : Has L s T f) (hva : va < MAXVA) (hp : T.low (va / PGSIZE / 512) = some p)
    {Q : ℕ → Phys → Prop} :
    wp (walk (T.root * PGSIZE) va alloc) s Q ↔ Q (p * PGSIZE + 8 * (va / PGSIZE % 512)) s := by
  obtain ⟨m, hm⟩ : ∃ m, T.mid (va / PGSIZE / 512 / 512) = some m := by
    refine Option.ne_none_iff_exists'.mp fun hnone => ?_
    simp [h.rep.low_eq_none _ hnone] at hp
  unfold walk
  rw [if_neg (by omega), wp_bind,
    wp_walkStep_some h (x := .mid _) (y := .root) rfl (px_two hva) rfl hm]
  simp only
  rw [wp_bind, wp_walkStep_some h (x := .low (va / PGSIZE / 512)) rfl (px_one va) hm hp]
  simp only [wp_pure, px_zero]

theorem wp_walk_none (h : Has L s T f) (hva : va < MAXVA) (hp : T.low (va / PGSIZE / 512) = none)
    {Q : ℕ → Phys → Prop} : wp (walk (T.root * PGSIZE) va false) s Q ↔ Q 0 s := by
  have hlt : va / PGSIZE / 512 / 512 < 512 := by
    unfold MAXVA at hva
    unfold PGSIZE
    omega
  unfold walk
  rw [if_neg (by omega), wp_bind]
  cases hm : T.mid (va / PGSIZE / 512 / 512) with
  | none =>
    rw [wp_walkStep_none h (x := .mid _) (y := .root) rfl (px_two hva) hlt rfl hm]
    simp only [wp_pure]
  | some m =>
    rw [wp_walkStep_some h (x := .mid _) (y := .root) rfl (px_two hva) rfl hm]
    simp only
    rw [wp_bind, wp_walkStep_none h (x := .low (va / PGSIZE / 512)) rfl (px_one va)
      (Nat.mod_lt _ (by decide)) hm hp]
    simp only [wp_pure]

/-- `walk` with allocation: the page of the entry is there afterwards, unless memory ran out. -/
theorem walk_spec (h : Has L s T f) (hva : va < MAXVA) :
    wp (walk (T.root * PGSIZE) va true) s fun a s' => ∃ T', Has L s' T' f ∧ Keeps f s s' ∧
      T.Grows T' ∧ (a = 0 ∧ s'.oom = true ∨
        ∃ p, a = p * PGSIZE + 8 * (va / PGSIZE % 512) ∧ T'.low (va / PGSIZE / 512) = some p ∧
          s'.oom = s.oom) := by
  have hlt : va / PGSIZE / 512 < 512 * 512 := by
    unfold MAXVA at hva
    unfold PGSIZE
    omega
  unfold walk
  rw [if_neg (by omega)]
  refine wp.bind (walkStep_spec h (x := .mid (va / PGSIZE / 512 / 512))
    (mem_slots_mid.mpr (by omega)) rfl (px_two hva) rfl) ?_
  rintro r t ⟨T1, h1, hk1, hg1, ⟨rfl, hoom⟩ | ⟨m, rfl, hm, hoom⟩⟩
  · simp only [wp_pure]
    exact ⟨T1, h1, hk1, hg1, .inl ⟨trivial, hoom⟩⟩
  refine wp.bind (walkStep_spec h1 (x := .low (va / PGSIZE / 512)) (mem_slots_low.mpr hlt) rfl
    (px_one va) hm) ?_
  rintro r u ⟨T2, h2, hk2, hg2, ⟨rfl, hoom'⟩ | ⟨p, rfl, hp, hoom'⟩⟩
  · simp only [wp_pure]
    exact ⟨T2, h2, hk1.trans hk2, hg1.trans hg2, .inl ⟨trivial, hoom'⟩⟩
  · simp only [wp_pure, px_zero]
    exact ⟨T2, h2, hk1.trans hk2, hg1.trans hg2, .inr ⟨p, rfl, hp, hoom'.trans hoom⟩⟩

end Walk

/-! ## Reading a page table off memory -/

/-- The page that entry `j` of an upper level points to. -/
def dirPage (pg : Page) (j : ℕ) : Option ℕ :=
  let e := pg.le (8 * j) 8
  if has e PTE_V then some (ppn e) else none

/-- The page of the middle level at index `i`. -/
def midPage (mem : ℕ → Page) (root i : ℕ) : Option ℕ :=
  if i < 512 then dirPage (mem root) i else none

/-- The page of the lowest level at index `k`. -/
def lowPage (mem : ℕ → Page) (root k : ℕ) : Option ℕ :=
  (midPage mem root (k / 512)).bind fun p => dirPage (mem p) (k % 512)

/-- The page table with root `root` that memory holds. -/
def Tree.ofMem (mem : ℕ → Page) (root : ℕ) : Tree :=
  ⟨root, midPage mem root, lowPage mem root,
    fun v => (lowPage mem root (v / 512)).elim 0 fun p => (mem p).le (8 * (v % 512)) 8⟩

theorem dirPage_eq {pg : Page} {j : ℕ} {o : Option ℕ} (h : pg.le (8 * j) 8 = dirEntry o) :
    dirPage pg j = o := by
  unfold dirPage
  rw [h]
  cases o with
  | none => rfl
  | some p =>
    have hvalid : has (mkPte p PTE_V) PTE_V = true := by
      rw [has_V, testBit_mkPte_lt (by decide) (by decide)]
      rfl
    simp only [dirEntry, hvalid, if_true]
    rw [ppn_mkPte (by decide)]

theorem Rep.eq_ofMem {mem : ℕ → Page} {T : Tree} (h : Rep mem T) : T = Tree.ofMem mem T.root := by
  have hmid : T.mid = midPage mem T.root := by
    funext i
    unfold midPage
    split_ifs with hi
    · exact (dirPage_eq (h.entry .root T.root rfl i hi)).symm
    · by_contra hne
      exact hi (mem_slots_mid.mp (h.slot (.mid i) hne))
  have hlow : T.low = lowPage mem T.root := by
    funext k
    unfold lowPage
    rw [← hmid]
    cases hm : T.mid (k / 512) with
    | none => exact h.low_eq_none k hm
    | some p =>
      have hentry := h.entry (.mid (k / 512)) p hm (k % 512) (Nat.mod_lt _ (by decide))
      rw [Tree.entry, Nat.div_add_mod] at hentry
      exact (dirPage_eq hentry).symm
  have hleaf : T.leaf = fun v =>
      (T.low (v / 512)).elim 0 fun p => (mem p).le (8 * (v % 512)) 8 := by
    funext v
    cases hl : T.low (v / 512) with
    | none => exact h.leaf_eq_zero v hl
    | some p =>
      have hentry := h.entry (.low (v / 512)) p hl (v % 512) (Nat.mod_lt _ (by decide))
      rw [Tree.entry, Nat.div_add_mod] at hentry
      exact hentry.symm
  calc T = ⟨T.root, T.mid, T.low, T.leaf⟩ := rfl
    _ = Tree.ofMem mem T.root := by
      rw [hleaf, hlow, hmid]
      rfl

end Xv6.Vm
