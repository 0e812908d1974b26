import Xv6.Process.Fault

/-!
# A page table is a partial map

`walk`, `mappages` and `uvmunmap` on any page table whose pages form a tree that shares nothing. The
address that `walk` finds determines the page (`walk_slot`), `mappages` changes the entries of its range
up to where it stops (`mapLoop_lookup`), and `uvmunmap` clears those of its range (`unmapLoop_lookup`).
`mappages` panics only where a page of its range is mapped already, and `uvmunmap` only where one is not.
-/

namespace Xv6.Vm

open Function Lib

/-- The entry for virtual page `w`, or 0. -/
def lookup (s : Phys) (root w : ℕ) : ℕ := pteAt s.mem root (w * PGSIZE)

/-- `walk(va, 0)` returns `a`. -/
def Walks (s : Phys) (root va a : ℕ) : Prop :=
  wp (walk (root * PGSIZE) va false) s fun r t => r = a ∧ t = s

/-- The lookups of the `k` pages from `v` on are as `g` says, and all others below `MAXVA` are as before. -/
def Changes (s s' : Phys) (root v k : ℕ) (g : ℕ → ℕ) : Prop :=
  ∀ w, w * PGSIZE < MAXVA →
    lookup s' root w = if v ≤ w ∧ w < v + k then g (w - v) else lookup s root w

/-- The `n` pages from `v` on are below `MAXVA`, and their entries satisfy `P`. -/
def Range (s : Phys) (root v n : ℕ) (P : ℕ → Prop) : Prop :=
  (v + n) * PGSIZE ≤ MAXVA ∧ ∀ w, v ≤ w → w < v + n → P (lookup s root w)

/-- An entry that `mappages` may overwrite. -/
def Absent (e : ℕ) : Prop := has e PTE_V = false

/-- An entry that `uvmunmap` may remove: a valid one that is not an interior one. -/
def Leaf (e : ℕ) : Prop := has e PTE_V = true ∧ pteFlags e ≠ PTE_V

section Lookup

variable {L : Layout} {s s' : Phys} {T T' : Tree} {f : ℕ → ℕ} {v n p perm va a : ℕ}

theorem Has.lookup_eq (h : Has L s T f) {w : ℕ} (hw : w * PGSIZE < MAXVA) :
    lookup s T.root w = T.leaf w := by
  rw [lookup, h.pteAt_eq hw, va_page]

theorem walk_slot (h : Has L s T f) (hva : va < MAXVA) (ha : Walks s T.root va a) :
    a = 0 ∧ T.low (va / PGSIZE / 512) = none ∨ a ≠ 0 ∧ ∃ q, T.low (va / PGSIZE / 512) = some q ∧
      a = q * PGSIZE + 8 * (va / PGSIZE % 512) := by
  cases hq : T.low (va / PGSIZE / 512) with
  | none =>
    obtain ⟨rfl, -⟩ := (wp_walk_none h hva hq).mp ha
    exact .inl ⟨rfl, rfl⟩
  | some q =>
    obtain ⟨rfl, -⟩ := (wp_walk_some h hva hq).mp ha
    exact .inr ⟨h.slot_ne_zero hq, q, rfl, rfl⟩

theorem walk_lookup (h : Has L s T f) (hva : va < MAXVA) : ∃ a, Walks s T.root va a ∧
    (a = 0 → lookup s T.root (va / PGSIZE) = 0) ∧
    (a ≠ 0 → wp (load64 a) s fun e t => e = lookup s T.root (va / PGSIZE) ∧ t = s) := by
  have hw : va / PGSIZE * PGSIZE < MAXVA := (Nat.div_mul_le_self ..).trans_lt hva
  cases hq : T.low (va / PGSIZE / 512) with
  | none =>
    refine ⟨0, (wp_walk_none h hva hq).mpr ⟨rfl, rfl⟩, fun _ => ?_, fun h0 => absurd rfl h0⟩
    rw [h.lookup_eq hw, h.rep.leaf_eq_zero _ hq]
  | some q =>
    refine ⟨_, (wp_walk_some h hva hq).mpr ⟨rfl, rfl⟩, fun h0 => ?_, fun _ => ?_⟩
    · obtain ⟨-, hnone⟩ | ⟨hne, -⟩ := walk_slot h hva ((wp_walk_some h hva hq).mpr ⟨rfl, rfl⟩)
      · cases hq.symm.trans hnone
      · exact absurd h0 hne
    · rw [wp_load64 (Nat.mod_lt _ (by decide)), h.leaf_eq hq, h.lookup_eq hw]
      exact ⟨rfl, rfl⟩

theorem walk_inj (h : Has L s T f) {va' : ℕ} (hva : va < MAXVA) (hva' : va' < MAXVA) (hne : a ≠ 0)
    (ha : Walks s T.root va a) (ha' : Walks s T.root va' a) : va / PGSIZE = va' / PGSIZE := by
  obtain ⟨h0, -⟩ | ⟨-, q, hq, haq⟩ := walk_slot h hva ha
  · exact absurd h0 hne
  obtain ⟨h0, -⟩ | ⟨-, q', hq', haq'⟩ := walk_slot h hva' ha'
  · exact absurd h0 hne
  have hmod : va / PGSIZE % 512 < 512 := Nat.mod_lt _ (by decide)
  have hmod' : va' / PGSIZE % 512 < 512 := Nat.mod_lt _ (by decide)
  obtain rfl : q = q' := by
    rw [← entry_page (p := q) hmod, ← entry_page (p := q') hmod', ← haq, ← haq']
  -- A page of the tree is at one place only.
  have hslot : Slot.low (va / PGSIZE / 512) = .low (va' / PGSIZE / 512) := h.inj hq hq'
  have hdiv := Slot.low.inj hslot
  omega

/-- `walk` panics for an address that is not below `MAXVA`. -/
theorem walk_panics (hva : MAXVA ≤ va) {pagetable : ℕ} {alloc : Bool} {E : Panic → Prop} (hE : E .walk)
    {Q : ℕ → Phys → Prop} : wpOr E (walk pagetable va alloc) s Q := by
  rw [walk, if_pos hva]
  exact wpOr_throw.mpr hE

/-- Every page of a range is below `MAXVA`. -/
theorem Range.lt {P : ℕ → Prop} (h : Range s T.root v n P) {w : ℕ} (hw : w < v + n) : w * PGSIZE < MAXVA :=
  (Nat.mul_lt_mul_of_pos_right hw pgsize_pos).trans_le h.1

/-- The loop of `mappages` maps a part of the range from its start on, all of it if it returns 0, and
panics only if some page of the range is mapped. -/
theorem mapLoop_lookup (h : Has L s T f) (hperm : perm < 1024) (hp : p + n ≤ 2 ^ 44) :
    wpOr (fun _ => ¬ Range s T.root v n Absent)
      (mapLoop (T.root * PGSIZE) perm n (v * PGSIZE) (p * PGSIZE)) s fun r s' => ∃ T' k,
        Has L s' T' f ∧ T'.root = T.root ∧ T'.leaf = mapped T.leaf v k p perm ∧
        (r = 0 ∧ k = n ∨ r = -1 ∧ k < n) := by
  induction n generalizing s T v p with
  | zero =>
    rw [mapLoop, wpOr_pure]
    exact ⟨T, 0, h, rfl, mapped_zero.symm, .inl ⟨rfl, rfl⟩⟩
  | succ n ih =>
    rw [mapLoop]
    by_cases hva : MAXVA ≤ v * PGSIZE
    · exact (walk_panics (Q := fun _ _ => False) hva fun hr => hva.not_gt (hr.lt (by omega))).bind
        fun _ _ hf => hf.elim
    refine (walk_spec h (not_le.mp hva)).bindOr ?_
    rw [va_page]
    rintro a t ⟨T1, h1, -, hg1, ⟨rfl, -⟩ | ⟨q, rfl, hq, -⟩⟩
    · rw [if_pos rfl, wpOr_pure]
      exact ⟨T1, 0, h1, hg1.root, by rw [mapped_zero, hg1.leaf], .inr ⟨rfl, Nat.succ_pos n⟩⟩
    have hmod : v % 512 < 512 := Nat.mod_lt _ (by decide)
    rw [if_neg (h1.slot_ne_zero hq)]
    have hload : wp (load64 (q * PGSIZE + 8 * (v % 512))) t fun x u => x = T.leaf v ∧ u = t :=
      (wp_load64 hmod).mpr ⟨by rw [h1.leaf_eq hq, hg1.leaf], rfl⟩
    refine hload.bindOr ?_
    rintro _ u ⟨rfl, rfl⟩
    refine wpOr.ite (fun hv => wpOr_throw.mpr fun hr => ?_) fun _ => ?_
    · have habsent := hr.2 v le_rfl (by omega)
      rw [h.lookup_eq (not_le.mp hva), Absent, hv] at habsent
      cases habsent
    have hstore : wp (store64 (q * PGSIZE + 8 * (v % 512)) (pa2pte (p * PGSIZE) ||| perm ||| PTE_V)) u
        fun _ s1 => Has L s1 (T1.setLeaf v (mkPte p (perm ||| PTE_V))) f := by
      rw [wp_store64 hmod, pa2pte_or p hperm]
      exact h1.setLeaf hq (mkPte_lt (by omega) hperm)
    refine hstore.bindOr ?_
    rintro - s1 hset
    rw [show v * PGSIZE + PGSIZE = (v + 1) * PGSIZE by ring,
      show p * PGSIZE + PGSIZE = (p + 1) * PGSIZE by ring, ← hg1.root]
    refine ((ih hset (by omega)).weaken fun _ hr hrange => hr ⟨?_, fun w hw hlt => ?_⟩).mono ?_
    · rw [add_right_comm]
      exact hrange.1
    · -- The store was to another entry.
      have hw' : w * PGSIZE < MAXVA := hrange.lt (by omega)
      have hold := hrange.2 w (by omega) (by omega)
      rw [hg1.root, h.lookup_eq hw', ← hg1.leaf] at hold
      have hne : (T1.setLeaf v (mkPte p (perm ||| PTE_V))).leaf w = T1.leaf w :=
        update_of_ne (by omega) ..
      rwa [hset.lookup_eq hw', hne]
    rintro r s2 ⟨T2, k, h2, hroot, hleaf, hcase⟩
    refine ⟨T2, k + 1, h2, hroot, ?_, hcase.imp (And.imp_right (by omega)) (And.imp_right (by omega))⟩
    rw [hleaf, Tree.setLeaf, hg1.leaf, mapped_succ]

/-- The loop of `uvmunmap` removes the entries of the range, or panics. -/
theorem unmapLoop_lookup (h : Has L s T f) :
    wpOr (fun _ => True) (unmapLoop L (T.root * PGSIZE) false n (v * PGSIZE)) s fun _ s' =>
      Has L s' (T.clear v n) f := by
  induction n generalizing s T v with
  | zero =>
    rw [unmapLoop, wpOr_pure, Tree.clear_zero]
    exact h
  | succ n ih =>
    rw [unmapLoop]
    by_cases hva : MAXVA ≤ v * PGSIZE
    · exact (walk_panics (Q := fun _ _ => False) hva trivial).bind fun _ _ hf => hf.elim
    obtain ⟨a, ha, -⟩ := walk_lookup h (not_le.mp hva)
    refine wp.bindOr ha ?_
    rintro _ _ ⟨rfl, rfl⟩
    obtain ⟨rfl, -⟩ | ⟨hne, q, hq, rfl⟩ := walk_slot h (not_le.mp hva) ha
    · rw [if_pos rfl]
      exact wpOr_throw.mpr trivial
    rw [va_page] at hq hne ⊢
    have hmod : v % 512 < 512 := Nat.mod_lt _ (by decide)
    rw [if_neg hne]
    have hload : ∀ t, wp (load64 (q * PGSIZE + 8 * (v % 512))) t fun _ u => u = t :=
      fun t => (wp_load64 hmod).mpr rfl
    refine (hload _).bindOr ?_
    rintro x u rfl
    refine wpOr.ite (fun _ => wpOr_throw.mpr trivial) fun _ => ?_
    refine wpOr.ite (fun _ => wpOr_throw.mpr trivial) fun _ => ?_
    have hstore : wp (store64 (q * PGSIZE + 8 * (v % 512)) 0) u fun _ s1 => Has L s1 (T.setLeaf v 0) f :=
      (wp_store64 hmod).mpr (h.setLeaf hq (by decide))
    dsimp only
    rw [if_neg Bool.false_ne_true]
    refine hstore.bindOr ?_
    rintro - s1 hset
    rw [show v * PGSIZE + PGSIZE = (v + 1) * PGSIZE by ring]
    refine (ih hset).mono ?_
    rintro - s2 h2
    rwa [Tree.clear_succ] at h2

theorem Has.changes (h : Has L s T f) (h' : Has L s' T' f) (hroot : T'.root = T.root) {g : ℕ → ℕ}
    (hleaf : ∀ w, T'.leaf w = if v ≤ w ∧ w < v + n then g (w - v) else T.leaf w) :
    Changes s s' T.root v n g := by
  intro w hw
  have hnew : lookup s' T.root w = T'.leaf w := by
    rw [← hroot]
    exact h'.lookup_eq hw
  rw [hnew, h.lookup_eq hw, hleaf]

/-- `uvmunmap` returns if all pages of its range are mapped. -/
theorem uvmunmap_returns (h : Has L s T f) (hr : Range s T.root v n Leaf) :
    wp (uvmunmap L (T.root * PGSIZE) (v * PGSIZE) n false) s fun _ _ => True := by
  refine (uvmunmap_spec (g := f) false (by rwa [if_neg Bool.false_ne_true, zero_add]) (fun k hk => ?_)
    hr.1).mono fun _ _ _ => trivial
  have hleaf := hr.2 (v + k) (by omega) (by omega)
  rwa [h.lookup_eq (hr.lt (by omega)), Leaf, has_V] at hleaf

/-- **A page table is a partial map on pages.** `walk` finds the entry that is looked up, the same for two
addresses if and only if they are in the same page. Where no page of its range is mapped `mappages` returns;
whenever it returns, it has mapped its range and changed no other page, or the result is -1 and a proper
part of the range is mapped from its start on. Where all pages of its range are mapped `uvmunmap` returns;
whenever it returns, it has removed its range and changed no other page. The page table stays one whose
pages form a tree. -/
theorem page_table_map (h : Has L s T f) :
    (∀ va, va < MAXVA → ∃ a, Walks s T.root va a ∧ (a = 0 → lookup s T.root (va / PGSIZE) = 0) ∧
      (a ≠ 0 → wp (load64 a) s fun e t => e = lookup s T.root (va / PGSIZE) ∧ t = s)) ∧
    (∀ va va' a a', va < MAXVA → va' < MAXVA → Walks s T.root va a → Walks s T.root va' a' →
      (va / PGSIZE = va' / PGSIZE → a = a') ∧ (a = a' → a ≠ 0 → va / PGSIZE = va' / PGSIZE)) ∧
    (∀ v size p perm, p + size / PGSIZE ≤ 2 ^ 44 → perm < 1024 →
      wpOr (fun _ => ¬ (size ≠ 0 ∧ size % PGSIZE = 0 ∧ Range s T.root v (size / PGSIZE) Absent))
        (mappages (T.root * PGSIZE) (v * PGSIZE) size (p * PGSIZE) perm) s fun r s' => ∃ k,
          (r = 0 ∧ k * PGSIZE = size ∨ r = -1 ∧ k * PGSIZE < size) ∧
          Changes s s' T.root v k (fun i => mkPte (p + i) (perm ||| PTE_V)) ∧
          ∃ T', Has L s' T' f ∧ T'.root = T.root) ∧
    ∀ v npages, v * PGSIZE + npages * PGSIZE < 2 ^ 64 →
      wpOr (fun _ => ¬ Range s T.root v npages Leaf)
        (uvmunmap L (T.root * PGSIZE) (v * PGSIZE) npages false) s fun _ s' =>
        Changes s s' T.root v npages (fun _ => 0) ∧ ∃ T', Has L s' T' f ∧ T'.root = T.root := by
  refine ⟨fun va hva => walk_lookup h hva, ?_, ?_, ?_⟩
  · intro va va' a a' hva hva' ha ha'
    refine ⟨fun heq => ?_, fun heq hne => walk_inj h hva hva' hne ha (heq ▸ ha')⟩
    obtain ⟨rfl, hnone⟩ | ⟨-, q, hq, rfl⟩ := walk_slot h hva ha
    · obtain ⟨rfl, -⟩ | ⟨-, q', hq', -⟩ := walk_slot h hva' ha'
      · rfl
      · rw [heq, hq'] at hnone
        cases hnone
    · obtain ⟨-, hnone⟩ | ⟨-, q', hq', rfl⟩ := walk_slot h hva' ha'
      · rw [heq, hnone] at hq
        cases hq
      · rw [heq] at hq ⊢
        rw [Option.some.inj (hq.symm.trans hq')]
  · intro v size p perm hp hperm
    unfold mappages
    refine wpOr.ite (fun hne => absurd (Nat.mul_mod_left ..) hne) fun _ => ?_
    refine wpOr.ite (fun hne => wpOr_throw.mpr fun hr => hne hr.2.1) fun hmod => ?_
    refine wpOr.ite (fun h0 => wpOr_throw.mpr fun hr => hr.1 h0) fun _ => ?_
    refine ((mapLoop_lookup h hperm hp).weaken fun _ hr hrange => hr hrange.2.2).mono ?_
    rintro r s' ⟨T', k, h', hroot, hleaf, hcase⟩
    have hsize : size / PGSIZE * PGSIZE = size := Nat.div_mul_cancel (Nat.dvd_of_mod_eq_zero (not_not.mp hmod))
    refine ⟨k, ?_, h.changes h' hroot fun w => by rw [hleaf, mapped], T', h', hroot⟩
    obtain ⟨rfl, rfl⟩ | ⟨rfl, hlt⟩ := hcase
    · exact .inl ⟨rfl, hsize⟩
    · refine .inr ⟨rfl, ?_⟩
      rw [← hsize]
      exact Nat.mul_lt_mul_of_pos_right hlt pgsize_pos
  · intro v npages hend
    refine wpOr.unless (E := fun _ => True) ?_ (uvmunmap_returns h)
    unfold uvmunmap
    refine wpOr.ite (fun _ => wpOr_throw.mpr trivial) fun _ => ?_
    have hcount : ((v * PGSIZE + npages * PGSIZE) % 2 ^ 64 - v * PGSIZE) / PGSIZE = npages := by
      rw [Nat.mod_eq_of_lt hend, Nat.add_sub_cancel_left, va_page]
    rw [hcount]
    refine (unmapLoop_lookup h).mono ?_
    rintro - s' h'
    exact ⟨h.changes h' rfl fun w => by rw [Tree.clear_leaf], _, h', rfl⟩

end Lookup

end Xv6.Vm

namespace Xv6.Process

open Lib (wp)
open Vm

/-- The page table of the first process: `walk` finds an entry for address 0, `uvmunmap` removes the one
page of the process, and its lookup is 0 afterwards. -/
theorem page_table_map_forkStore : ∃ (k : Kernel) (T : Tree), Run small blank forkStore k ∧
    (k.proc proc0).pagetable = T.root * PGSIZE ∧ (∃ a, Walks k.phys T.root 0 a) ∧
    wp (uvmunmap small (T.root * PGSIZE) 0 1 false) k.phys fun _ s' => lookup s' T.root 0 = 0 := by
  obtain ⟨k, hk, hrunnable, -⟩ := forkStore_possible
  have hrun : Run small blank forkStore k := Run.boot.execute hk
  obtain ⟨T, Kt, hinv, -⟩ := hrun.inv
  have hok := hinv.ok (i := proc0) (by rw [hrunnable]; decide)
  have hmap := page_table_map hok.space.has
  obtain ⟨a, ha, -⟩ := hmap.1 0 (by decide)
  have hleaf : UserLeaf ((T proc0).leaf 0) := hok.space.mapped 0 (by rw [forkStore_sz hk]; decide)
  have hrange : Range k.phys (T proc0).root 0 1 Leaf := by
    refine ⟨by decide, fun w _ hw => ?_⟩
    obtain rfl : w = 0 := by omega
    rw [hok.space.has.lookup_eq (by decide), Leaf, has_V]
    exact ⟨hleaf.valid, hleaf.flags_ne⟩
  have hunmap := (hmap.2.2.2 0 1 (by decide)).weaken (F := fun _ => False) fun _ hr => hr hrange
  refine ⟨k, T proc0, hrun, hok.root, ⟨a, ha⟩, ?_⟩
  rw [zero_mul] at hunmap
  exact hunmap.returns.mono fun _ s' h => h.1 0 (by decide)

end Xv6.Process
