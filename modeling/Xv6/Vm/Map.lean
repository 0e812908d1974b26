import Xv6.Vm.Tree

/-!
# Mapping and unmapping

The specifications of `mappages`, `uvmunmap` and `freewalk` on trees. Each of them says what the tree
maps afterwards; pages that other owners count are unchanged, and the only way to fail is to run out
of memory.
-/

namespace Xv6.Vm

open Function Lib

/-- The owner that a leaf entry is for the page it maps. -/
def own (e : ℕ) : ℕ → ℕ := if e.testBit 0 then ref (ppn e) else 0

/-- The entries after `n` pages from `v` on are mapped to the pages from `p` on. -/
def mapped (leaf : ℕ → ℕ) (v n p perm : ℕ) : ℕ → ℕ := fun w =>
  if v ≤ w ∧ w < v + n then mkPte (p + (w - v)) (perm ||| PTE_V) else leaf w

namespace Tree

/-- The owners that the entries for the `n` pages from `v` on are. -/
def span (T : Tree) (v n : ℕ) : ℕ → ℕ := ∑ k ∈ Finset.range n, own (T.leaf (v + k))

/-- The tree without mappings for the `n` pages from `v` on. -/
def clear (T : Tree) (v n : ℕ) : Tree :=
  { T with leaf := fun w => if v ≤ w ∧ w < v + n then 0 else T.leaf w }

end Tree

section Leaves

variable {T : Tree} {leaf : ℕ → ℕ} {v w n p perm e : ℕ}

@[simp]
theorem own_zero : own 0 = 0 := by simp [own]

theorem mapped_zero : mapped leaf v 0 p perm = leaf := by
  funext w
  rw [mapped, if_neg (by omega)]

theorem mapped_one :
    mapped leaf v 1 p perm = update leaf v (mkPte p (perm ||| PTE_V)) := by
  funext w
  rw [mapped, update_apply]
  by_cases hw : w = v
  · subst hw
    simp
  · rw [if_neg (by omega), if_neg hw]

theorem mapped_succ :
    mapped (update leaf v (mkPte p (perm ||| PTE_V))) (v + 1) n (p + 1) perm =
      mapped leaf v (n + 1) p perm := by
  funext w
  simp only [mapped, update_apply]
  by_cases hw : w = v
  · subst hw
    simp
  · by_cases hin : v + 1 ≤ w ∧ w < v + 1 + n
    · rw [if_pos hin, if_pos (by omega), show p + 1 + (w - (v + 1)) = p + (w - v) by omega]
    · rw [if_neg hin, if_neg hw, if_neg (by omega)]

theorem Tree.span_succ (T : Tree) (v n : ℕ) :
    T.span v (n + 1) = own (T.leaf v) + T.span (v + 1) n := by
  rw [Tree.span, Finset.sum_range_succ', add_comm, Tree.span]
  simp only [add_zero, add_assoc, add_comm 1]

theorem Tree.span_congr {T T' : Tree} (h : ∀ k, k < n → T'.leaf (v + k) = T.leaf (v + k)) :
    T'.span v n = T.span v n :=
  Finset.sum_congr rfl fun k hk => by rw [h k (Finset.mem_range.mp hk)]

theorem Tree.clear_leaf (T : Tree) (v n w : ℕ) :
    (T.clear v n).leaf w = if v ≤ w ∧ w < v + n then 0 else T.leaf w := rfl

theorem Tree.clear_zero (T : Tree) (v : ℕ) : T.clear v 0 = T := by
  have : (fun w => if v ≤ w ∧ w < v + 0 then 0 else T.leaf w) = T.leaf := by
    funext w
    rw [if_neg (by omega)]
  rw [Tree.clear, this]

theorem Tree.clear_succ (T : Tree) (v n : ℕ) :
    (T.setLeaf v 0).clear (v + 1) n = T.clear v (n + 1) := by
  simp only [Tree.clear, Tree.setLeaf, Tree.mk.injEq, true_and]
  funext w
  by_cases hw : w = v
  · subst hw
    simp
  · rw [update_of_ne hw]
    exact if_congr (by omega) rfl rfl

end Leaves

section Alloc

variable {L : Layout} {s s' : Phys} {T : Tree} {f g : ℕ → ℕ} {p : ℕ}

theorem Has.kalloc (h : Has L s T f) : wp kalloc s fun pa s' =>
    (pa = 0 ∧ Has L s' T f ∧ s'.mem = s.mem ∧ s'.oom = true) ∨
      ∃ p, pa = p * PGSIZE ∧ InRam L p ∧ T.pt p + f p = 0 ∧ Has L s' T (f + ref p) ∧
        s'.mem = update s.mem p (Bytes.fill PGSIZE 5) ∧ s'.oom = s.oom := by
  refine wp.mono (kalloc_spec h.acct) ?_
  rintro pa s' (⟨hpa, hacct, hmem, hoom⟩ | ⟨p, hpa, hram, hfree, hacct, hmem, hoom⟩)
  · refine .inl ⟨hpa, h.frame hacct (fun q _ => by rw [hmem]) fun q hq => ?_, hmem, hoom⟩
    have := h.excl q hq
    omega
  · have hfree' : T.pt p + f p = 0 := hfree
    have hne : ∀ q, T.pt q ≠ 0 → q ≠ p := by
      rintro q hq rfl
      omega
    refine .inr ⟨p, hpa, hram, hfree', h.frame (by rwa [← add_assoc])
      (fun q hq => by rw [hmem, update_of_ne (hne q hq)]) fun q hq => ?_, hmem, hoom⟩
    have := h.excl q hq
    rw [Pi.add_apply, ref_of_ne (hne q hq)]
    omega

theorem Has.kfree (h : Has L s T (ref p + g)) : wp (kfree L (p * PGSIZE)) s fun _ s' =>
    Has L s' T g ∧ (∀ q, T.pt q + g q ≠ 0 → s'.mem q = s.mem q) ∧ s'.oom = s.oom := by
  refine wp.mono (kfree_spec (c := T.pt + g) (p := p) (by
    rw [add_assoc, add_comm g]; exact h.acct)) ?_
  rintro - s' ⟨hacct, hmem, hoom⟩
  refine ⟨h.frame hacct (fun q hq => hmem q (by simp [hq])) fun q hq => ?_, hmem, hoom⟩
  have := h.excl q hq
  rw [Pi.add_apply] at this
  omega

end Alloc

/-! ## `mappages` -/

section Map

variable {L : Layout} {s s' : Phys} {T : Tree} {f : ℕ → ℕ} {v n p q perm : ℕ}

theorem mkPte_lt (hp : p < 2 ^ 44) (hperm : perm < 1024) : mkPte p (perm ||| PTE_V) < 2 ^ 64 := by
  have : perm ||| PTE_V < 2 ^ 10 := Nat.or_lt_two_pow hperm (by decide)
  unfold mkPte
  omega

theorem va_page (v : ℕ) : v * PGSIZE / PGSIZE = v := mul_div_pgsize v

theorem low_keeps (h : Has L s T f) (hq : T.low (v / 512) = some q) (b : Page) :
    Keeps f s (s.write q b) := fun r hr => Phys.write_of_ne (by
  rintro rfl
  exact hr (h.rest_eq_zero (x := .low (v / 512)) hq))

theorem Has.leaf_eq (h : Has L s T f) (hq : T.low (v / 512) = some q) :
    (s.mem q).le (8 * (v % 512)) 8 = T.leaf v := by
  rw [h.rep.entry (.low (v / 512)) q hq _ (Nat.mod_lt _ (by decide)), Tree.entry, Nat.div_add_mod]

theorem Has.slot_ne_zero (h : Has L s T f) (hq : T.low v = some q) {k : ℕ} : q * PGSIZE + k ≠ 0 := by
  have := Nat.mul_pos (Nat.pos_of_ne_zero (h.inRam (x := .low v) hq).pos) pgsize_pos
  omega

/-- The loop of `mappages` over pages that are not mapped. -/
theorem mapLoop_spec (h : Has L s T f) (hfree : ∀ k, k < n → T.leaf (v + k) = 0)
    (hva : (v + n) * PGSIZE ≤ MAXVA) (hperm : perm < 1024) (hp : p + n ≤ 2 ^ 44) :
    wp (mapLoop (T.root * PGSIZE) perm n (v * PGSIZE) (p * PGSIZE)) s fun r s' => ∃ T', Has L s' T' f ∧
      Keeps f s s' ∧ T'.root = T.root ∧
      (r = 0 ∧ T'.leaf = mapped T.leaf v n p perm ∧ s'.oom = s.oom ∨
        r = -1 ∧ s'.oom = true ∧ ∃ k, k < n ∧ T'.leaf = mapped T.leaf v k p perm) := by
  induction n generalizing s T v p with
  | zero =>
    simp only [mapLoop, wp_pure]
    exact ⟨T, h, .refl f s, rfl, .inl ⟨trivial, mapped_zero.symm, trivial⟩⟩
  | succ n ih =>
    have hva' : v * PGSIZE < MAXVA := by
      unfold PGSIZE at hva ⊢
      omega
    rw [mapLoop]
    refine wp.bind (walk_spec h hva') ?_
    rw [va_page]
    rintro a t ⟨T1, h1, hk1, hg1, ⟨rfl, hoom⟩ | ⟨q, rfl, hq, hoom⟩⟩
    · rw [if_pos rfl, wp_pure]
      exact ⟨T1, h1, hk1, hg1.root, .inr ⟨rfl, hoom, 0, by omega, by rw [mapped_zero, hg1.leaf]⟩⟩
    have hleaf : (t.mem q).le (8 * (v % 512)) 8 = 0 := by
      rw [h1.leaf_eq hq, hg1.leaf]
      exact hfree 0 (by omega)
    have hmod : v % 512 < 512 := Nat.mod_lt _ (by decide)
    rw [if_neg (h1.slot_ne_zero hq)]
    simp only [wp_bind, wp_load64 hmod, hleaf, has_V, Nat.zero_testBit, Bool.false_eq_true,
      if_false, wp_store64 hmod, pa2pte_or p hperm]
    have hset := h1.setLeaf hq (mkPte_lt (p := p) (by omega) hperm)
    rw [show v * PGSIZE + PGSIZE = (v + 1) * PGSIZE by ring,
      show p * PGSIZE + PGSIZE = (p + 1) * PGSIZE by ring, ← hg1.root]
    have hroot : T1.root = (T1.setLeaf v (mkPte p (perm ||| PTE_V))).root := rfl
    rw [hroot]
    refine wp.mono (ih hset (fun k hk => ?_) (by convert hva using 2; omega) (by omega)) ?_
    · simp only [Tree.setLeaf, hg1.leaf]
      rw [update_of_ne (by omega), add_assoc, add_comm 1]
      exact hfree (k + 1) (by omega)
    · rintro r u ⟨T2, h2, hk2, hroot2, hcase⟩
      refine ⟨T2, h2, (hk1.trans (low_keeps h1 hq _)).trans hk2, hroot2, ?_⟩
      rcases hcase with ⟨rfl, hleaf2, hoom2⟩ | ⟨rfl, hoom2, k, hk, hleaf2⟩
      · refine .inl ⟨rfl, ?_, hoom2.trans hoom⟩
        rw [hleaf2, Tree.setLeaf, hg1.leaf, mapped_succ]
      · refine .inr ⟨rfl, hoom2, k + 1, by omega, ?_⟩
        rw [hleaf2, Tree.setLeaf, hg1.leaf, mapped_succ]

/-- `mappages` maps the whole range, or fails for lack of memory with a part of it mapped. -/
theorem mappages_spec (h : Has L s T f) (hn : n ≠ 0) (hfree : ∀ k, k < n → T.leaf (v + k) = 0)
    (hva : (v + n) * PGSIZE ≤ MAXVA) (hperm : perm < 1024) (hp : p + n ≤ 2 ^ 44) :
    wp (mappages (T.root * PGSIZE) (v * PGSIZE) (n * PGSIZE) (p * PGSIZE) perm) s fun r s' =>
      ∃ T', Has L s' T' f ∧ Keeps f s s' ∧ T'.root = T.root ∧
      (r = 0 ∧ T'.leaf = mapped T.leaf v n p perm ∧ s'.oom = s.oom ∨
        r = -1 ∧ s'.oom = true ∧ ∃ k, k < n ∧ T'.leaf = mapped T.leaf v k p perm) := by
  unfold mappages
  rw [if_neg (by simp), if_neg (by simp), if_neg (Nat.mul_ne_zero hn pgsize_pos.ne'), va_page]
  exact mapLoop_spec h hfree hva hperm hp

theorem mappages_one (h : Has L s T f) (hfree : T.leaf v = 0) (hva : v * PGSIZE < MAXVA)
    (hperm : perm < 1024) (hp : p < 2 ^ 44) :
    wp (mappages (T.root * PGSIZE) (v * PGSIZE) PGSIZE (p * PGSIZE) perm) s fun r s' =>
      ∃ T', Has L s' T' f ∧ Keeps f s s' ∧ T'.root = T.root ∧
      (r = 0 ∧ T'.leaf = update T.leaf v (mkPte p (perm ||| PTE_V)) ∧ s'.oom = s.oom ∨
        r = -1 ∧ s'.oom = true ∧ T'.leaf = T.leaf) := by
  have hva' : (v + 1) * PGSIZE ≤ MAXVA := by
    unfold MAXVA PGSIZE at *
    omega
  have hspec := mappages_spec h one_ne_zero (v := v) (p := p) (fun k hk => by
    obtain rfl : k = 0 := by omega
    exact hfree) hva' hperm (by omega)
  rw [one_mul] at hspec
  refine hspec.mono ?_
  rintro r s' ⟨T', h', hk, hroot, ⟨hr, hleaf, hoom⟩ | ⟨hr, hoom, k, hk0, hleaf⟩⟩
  · exact ⟨T', h', hk, hroot, .inl ⟨hr, by rw [hleaf, mapped_one], hoom⟩⟩
  · obtain rfl : k = 0 := by omega
    exact ⟨T', h', hk, hroot, .inr ⟨hr, hoom, by rw [hleaf, mapped_zero]⟩⟩

theorem mappages_present (h : Has L s T f) (hfree : T.leaf v = 0) (hva : v * PGSIZE < MAXVA)
    (hperm : perm < 1024) (hp : p < 2 ^ 44) (hq : T.low (v / 512) = some q) :
    wp (mappages (T.root * PGSIZE) (v * PGSIZE) PGSIZE (p * PGSIZE) perm) s fun r s' =>
      r = 0 ∧ Has L s' (T.setLeaf v (mkPte p (perm ||| PTE_V))) f ∧ Keeps f s s' ∧
        s'.oom = s.oom := by
  have hmod : v % 512 < 512 := Nat.mod_lt _ (by decide)
  have hleaf : (s.mem q).le (8 * (v % 512)) 8 = 0 := by rw [h.leaf_eq hq, hfree]
  unfold mappages
  rw [if_neg (by simp), if_neg (by simp), if_neg pgsize_pos.ne', Nat.div_self pgsize_pos, mapLoop,
    wp_bind, wp_walk_some h hva (by rw [va_page]; exact hq), va_page,
    if_neg (h.slot_ne_zero hq)]
  simp only [wp_bind, wp_load64 hmod, hleaf, has_V, Nat.zero_testBit, Bool.false_eq_true,
    if_false, wp_store64 hmod, pa2pte_or p hperm, mapLoop, wp_pure]
  exact ⟨trivial, h.setLeaf hq (mkPte_lt hp hperm), low_keeps h hq _, rfl⟩

end Map

/-! ## `uvmunmap` -/

section Unmap

variable {L : Layout} {s s' : Phys} {T : Tree} {f g : ℕ → ℕ} {v n p q : ℕ} {doFree : Bool}

/-- The loop of `uvmunmap` over pages that are mapped: with `doFree` it drops the owners that their
entries are. -/
theorem unmapLoop_spec (h : Has L s T ((if doFree then T.span v n else 0) + g))
    (hleaf : ∀ k, k < n → (T.leaf (v + k)).testBit 0 = true ∧ pteFlags (T.leaf (v + k)) ≠ PTE_V)
    (hva : (v + n) * PGSIZE ≤ MAXVA) :
    wp (unmapLoop L (T.root * PGSIZE) doFree n (v * PGSIZE)) s fun _ s' =>
      Has L s' (T.clear v n) g ∧ Keeps g s s' ∧ s'.oom = s.oom := by
  induction n generalizing s T v with
  | zero =>
    simp only [unmapLoop, wp_pure, Tree.clear_zero]
    refine ⟨?_, .refl g s, trivial⟩
    have hzero : (if doFree then T.span v 0 else 0) = 0 := by cases doFree <;> rfl
    rwa [hzero, zero_add] at h
  | succ n ih =>
    obtain ⟨hvalid, hflags⟩ := hleaf 0 (by omega)
    rw [add_zero] at hvalid hflags
    obtain ⟨q, hq⟩ := h.rep.low_of_leaf (v := v) (by rintro h0; simp [h0] at hvalid)
    have hva' : v * PGSIZE < MAXVA := by
      unfold PGSIZE at hva ⊢
      omega
    have hmod : v % 512 < 512 := Nat.mod_lt _ (by decide)
    rw [unmapLoop, wp_bind, wp_walk_some h hva' (by rw [va_page]; exact hq), va_page,
      if_neg (h.slot_ne_zero hq)]
    simp only [wp_bind, wp_load64 hmod, h.leaf_eq hq, has_V, hvalid, Bool.not_true,
      Bool.false_eq_true, if_false, if_neg hflags]
    -- After the optional `kfree`, one owner less is counted here.
    have hrest : ∀ t, Has L t T ((if doFree then T.span (v + 1) n else 0) + g) → Keeps g s t →
        t.oom = s.oom → wp (do
          store64 (q * PGSIZE + 8 * (v % 512)) 0
          unmapLoop L (T.root * PGSIZE) doFree n (v * PGSIZE + PGSIZE)) t fun _ s' =>
            Has L s' (T.clear v (n + 1)) g ∧ Keeps g s s' ∧ s'.oom = s.oom := by
      intro t ht hk hoom
      have hset := ht.setLeaf hq (e := 0) (by decide)
      have hspan : (T.setLeaf v 0).span (v + 1) n = T.span (v + 1) n :=
        Tree.span_congr fun k _ => update_of_ne (by omega) _ _
      have hroot : T.root = (T.setLeaf v 0).root := rfl
      rw [wp_bind, wp_store64 hmod, show v * PGSIZE + PGSIZE = (v + 1) * PGSIZE by ring, hroot]
      refine wp.mono (ih (T := T.setLeaf v 0) (by rwa [hspan]) (fun k hk => ?_)
        (by convert hva using 2; omega)) ?_
      · simp only [Tree.setLeaf]
        rw [update_of_ne (by omega), add_assoc, add_comm 1]
        exact hleaf (k + 1) (by omega)
      · rintro - u ⟨hu, hk', hoom'⟩
        rw [Tree.clear_succ] at hu
        refine ⟨hu, (hk.trans ((low_keeps ht hq _).mono fun r hr => ?_)).trans hk', hoom'.trans hoom⟩
        rw [Pi.add_apply]
        omega
    cases doFree with
    | false =>
      simp only [Bool.false_eq_true, if_false] at h hrest ⊢
      exact hrest s h (.refl g s) rfl
    | true =>
      have hown : own (T.leaf v) = ref (ppn (T.leaf v)) := if_pos hvalid
      simp only [if_true, pte2pa_eq] at h hrest ⊢
      rw [Tree.span_succ, hown, add_assoc] at h
      refine h.kfree.bind ?_
      rintro - t ⟨ht, hmem, hoom⟩
      exact hrest t ht (fun r hr => hmem r (by rw [Pi.add_apply]; omega)) hoom

/-- `uvmunmap` clears the entries of a range that is mapped, and gives back their pages. -/
theorem uvmunmap_spec (doFree : Bool) (h : Has L s T ((if doFree then T.span v n else 0) + g))
    (hleaf : ∀ k, k < n → (T.leaf (v + k)).testBit 0 = true ∧ pteFlags (T.leaf (v + k)) ≠ PTE_V)
    (hva : (v + n) * PGSIZE ≤ MAXVA) :
    wp (uvmunmap L (T.root * PGSIZE) (v * PGSIZE) n doFree) s fun _ s' =>
      Has L s' (T.clear v n) g ∧ Keeps g s s' ∧ s'.oom = s.oom := by
  have hcount : ((v * PGSIZE + n * PGSIZE) % 2 ^ 64 - v * PGSIZE) / PGSIZE = n := by
    unfold MAXVA PGSIZE at *
    omega
  unfold uvmunmap
  rw [if_neg (by simp), hcount]
  exact unmapLoop_spec h hleaf hva

end Unmap

/-! ## `freewalk` -/

section Freewalk

variable {L : Layout} {s s' : Phys} {T : Tree} {f g : ℕ → ℕ} {x y : Slot} {p q j : ℕ}

theorem dirEntry_not_leaf (p : ℕ) : has (dirEntry (some p)) (PTE_R ||| PTE_W ||| PTE_X) = false := by
  have hzero : dirEntry (some p) &&& (PTE_R ||| PTE_W ||| PTE_X) = 0 := by
    refine Nat.eq_of_testBit_eq fun k => ?_
    rw [Nat.testBit_and, Nat.zero_testBit, dirEntry]
    by_cases hk : k < 10
    · rw [testBit_mkPte_lt (by decide) hk]
      interval_cases k <;> rfl
    · rw [testBit_of_lt (g := PTE_R ||| PTE_W ||| PTE_X) (by decide) hk, Bool.and_false]
  rw [has, hzero]
  rfl

/-- `freewalk` drops the page at a place that has no entries, and its caller the entry for it. -/
theorem free_child (h : Has L s T f) (hx : x.parent = some (y, j)) (hp : T.page x = some p)
    (hq : T.page y = some q) (hempty : ∀ k, k < 512 → T.entry x k = 0) :
    wp (do kfree L (p * PGSIZE); store64 (q * PGSIZE + 8 * j) 0) s fun _ s' =>
      Has L s' (T.put none x) f ∧ Keeps f s s' ∧ s'.oom = s.oom := by
  have hxs := h.rep.slot x (by simp [hp])
  have hj := parent_index_lt hxs hx
  have hroot : x ≠ .root := by
    rintro rfl
    simp [Slot.parent] at hx
  have hxy : y ≠ x := by
    rintro rfl
    cases y <;> simp [Slot.parent] at hx
  have hqp : q ≠ p := by
    rintro rfl
    exact hxy (h.inj hq hp)
  have hpt : T.pt = (T.put none x).pt + ref p := by
    simpa [hp, pageRef] using (Tree.pt_put (T := T) hxs hroot (o := none)).symm
  have hpage : ∀ {z r}, (T.put none x).page z = some r → z ≠ x ∧ T.page z = some r := by
    intro z r hz
    rw [T.page_put _ hroot] at hz
    split_ifs at hz with hzx
    exact ⟨hzx, hz⟩
  have hptq : (T.put none x).pt q ≠ 0 := by
    refine Tree.pt_ne_zero.mpr ⟨y, h.rep.slot y (by simp [hq]), ?_⟩
    rw [T.page_put _ hroot, if_neg hxy, hq]
  refine wp.bind (kfree_spec (c := (T.put none x).pt + f) (p := p) (by
    rw [add_right_comm, ← hpt]; exact h.acct)) ?_
  rintro - t ⟨hacct, hmem, hoom⟩
  rw [wp_store64 hj]
  have hmem' : ∀ r, (T.put none x).pt r ≠ 0 → t.mem r = s.mem r := fun r hr => hmem r (by simp [hr])
  refine ⟨⟨⟨fun z hz => ?_, fun z r hr k hk => ?_, fun k hk => ?_, fun v hv => ?_⟩, ?_,
    fun r hr => ?_⟩, fun r hr => ?_, hoom⟩
  · rw [T.page_put _ hroot] at hz
    split_ifs at hz
    · exact absurd rfl hz
    · exact h.rep.slot z hz
  · obtain ⟨hzx, hr'⟩ := hpage hr
    have hptr : (T.put none x).pt r ≠ 0 := Tree.pt_ne_zero.mpr ⟨z, h.rep.slot z (by simp [hr']), hr⟩
    have hold := h.rep.entry z r hr' k hk
    rw [T.entry_put _ hx hk]
    by_cases hrq : r = q
    · subst hrq
      obtain rfl : z = y := h.inj hr' hq
      rw [Phys.write_self, entry_setLe hj hk (by decide), hmem' r hptr, hold]
      simp [dirEntry]
    · have hzy : z ≠ y := by
        rintro rfl
        exact hrq (Option.some.inj (hr'.symm.trans hq))
      rw [if_neg (fun h => hzy h.1), Phys.write_of_ne hrq, hmem' r hptr, hold]
  · cases x with
    | root => exact absurd rfl hroot
    | mid i =>
      simp only [Tree.put, update_apply] at hk ⊢
      split_ifs at hk with hki
      · -- The entries of the dropped page were empty.
        have := hempty (k % 512) (Nat.mod_lt _ (by decide))
        rw [Tree.entry, ← hki, Nat.div_add_mod] at this
        cases hlow : T.low k with
        | none => rfl
        | some r =>
          rw [hlow] at this
          simpa [this] using dirEntry_valid r
      · exact h.rep.low_eq_none k hk
    | low l =>
      simp only [Tree.put, update_apply]
      split_ifs
      · rfl
      · exact h.rep.low_eq_none k hk
  · rw [Tree.put_leaf]
    cases x with
    | root => exact absurd rfl hroot
    | mid i => exact h.rep.leaf_eq_zero v hv
    | low l =>
      simp only [Tree.put, update_apply] at hv
      split_ifs at hv with hvl
      · have := hempty (v % 512) (Nat.mod_lt _ (by decide))
        rwa [Tree.entry, ← hvl, Nat.div_add_mod] at this
      · exact h.rep.leaf_eq_zero v hv
  · exact hacct.write (by simp [hptq])
  · have := h.excl r (by rw [hpt, Pi.add_apply]; omega)
    rw [hpt, Pi.add_apply] at this
    omega
  · have hrp : T.pt r = 0 := h.pt_eq_zero hr
    have hrq : r ≠ q := by
      rintro rfl
      rw [hpt, Pi.add_apply] at hrp
      omega
    rw [Phys.write_of_ne hrq, hmem r (by simp [hr])]

theorem wp_freeEntries_empty {pagetable : ℕ → M Unit} {n i : ℕ} (hn : i + n ≤ 512)
    (hempty : ∀ k, k < 512 → (s.mem p).le (8 * k) 8 = 0) {Q : Unit → Phys → Prop} :
    wp (freeEntries (p * PGSIZE) pagetable n i) s Q ↔ Q ⟨⟩ s := by
  induction n generalizing i with
  | zero => simp only [freeEntries, wp_pure]
  | succ n ih =>
    rw [freeEntries, wp_bind, wp_load64 (by omega), hempty i (by omega)]
    simp only [has_V, Nat.zero_testBit, Bool.false_and, Bool.false_eq_true, if_false]
    exact ih (by omega)

/-- `T'` has lost pages of `T`, and maps the same. -/
structure Tree.Shrinks (T T' : Tree) : Prop where
  root : T'.root = T.root
  leaf : T'.leaf = T.leaf
  page : ∀ z, T.page z = none → T'.page z = none

theorem Tree.Shrinks.trans {T T' T'' : Tree} (h : T.Shrinks T') (h' : T'.Shrinks T'') :
    T.Shrinks T'' :=
  ⟨h'.root.trans h.root, h'.leaf.trans h.leaf, fun z hz => h'.page z (h.page z hz)⟩

theorem Tree.shrinks_put (T : Tree) (hx : x ≠ .root) : T.Shrinks (T.put none x) :=
  ⟨by simp, by simp, fun z hz => by rw [T.page_put _ hx]; split_ifs <;> trivial⟩

/-- The loop of `freewalk` over the page at `y`, whose children are at the places `child`: if the
recursive call followed by the store drops a child, the loop drops all of them. -/
theorem freeEntries_spec (child : ℕ → Slot) {call : ℕ → M Unit} {n i : ℕ}
    (hchild : ∀ j, (child j).parent = some (y, j) ∨ 512 ≤ j)
    (hcall : ∀ s T j p, Has L s T f → (∀ v, T.leaf v = 0) → T.page y = some q →
      T.page (child j) = some p → j < 512 →
      wp (do call (p * PGSIZE); store64 (q * PGSIZE + 8 * j) 0) s fun _ s' => ∃ T', Has L s' T' f ∧
        Keeps f s s' ∧ s'.oom = s.oom ∧ T.Shrinks T' ∧ T'.page y = some q ∧
          T'.page (child j) = none)
    (h : Has L s T f) (hleaf : ∀ v, T.leaf v = 0) (hq : T.page y = some q) (hn : i + n ≤ 512) :
    wp (freeEntries (q * PGSIZE) call n i) s fun _ s' => ∃ T', Has L s' T' f ∧ Keeps f s s' ∧
      s'.oom = s.oom ∧ T.Shrinks T' ∧ T'.page y = some q ∧
        ∀ j, i ≤ j → j < i + n → T'.page (child j) = none := by
  induction n generalizing s T i with
  | zero =>
    simp only [freeEntries, wp_pure]
    exact ⟨T, h, .refl f s, trivial, ⟨rfl, rfl, fun _ hz => hz⟩, hq, fun j _ _ => by omega⟩
  | succ n ih =>
    have hparent := (hchild i).resolve_right (by omega)
    have hentry : (s.mem q).le (8 * i) 8 = dirEntry (T.page (child i)) := by
      rw [h.rep.entry y q hq i (by omega), T.entry_parent hparent]
    -- The rest of the loop, once the child at `i` is gone.
    have hrest : ∀ t T1, Has L t T1 f → Keeps f s t → t.oom = s.oom → T.Shrinks T1 →
        T1.page y = some q → T1.page (child i) = none →
        wp (freeEntries (q * PGSIZE) call n (i + 1)) t fun _ s' => ∃ T', Has L s' T' f ∧
          Keeps f s s' ∧ s'.oom = s.oom ∧ T.Shrinks T' ∧ T'.page y = some q ∧
            ∀ j, i ≤ j → j < i + (n + 1) → T'.page (child j) = none := by
      intro t T1 h1 hk hoom hsh hq1 hgone
      refine wp.mono (ih h1 (fun v => by rw [hsh.leaf, hleaf]) hq1 (by omega)) ?_
      rintro - u ⟨T2, h2, hk2, hoom2, hsh2, hq2, hall⟩
      refine ⟨T2, h2, hk.trans hk2, hoom2.trans hoom, hsh.trans hsh2, hq2, fun j hij hjn => ?_⟩
      rcases Nat.eq_or_lt_of_le hij with rfl | hlt
      · exact hsh2.page _ hgone
      · exact hall j hlt (by omega)
    rw [freeEntries, wp_bind, wp_load64 (by omega), hentry]
    cases hpage : T.page (child i) with
    | none =>
      simp only [dirEntry, has_V, Nat.zero_testBit, Bool.false_and, Bool.false_eq_true, if_false]
      exact hrest s T h (.refl f s) rfl ⟨rfl, rfl, fun _ hz => hz⟩ hq hpage
    | some p =>
      rw [if_pos (by rw [has_V, dirEntry_valid, dirEntry_not_leaf]; rfl), pte2pa_dirEntry, ← bind_assoc]
      refine (hcall s T i p h hleaf hq hpage (by omega)).bind ?_
      rintro - t ⟨T1, h1, hk, hoom, hsh, hq1, hgone⟩
      exact hrest t T1 h1 hk hoom hsh hq1 hgone

theorem wp_freewalk_low (h : Has L s T f) (hleaf : ∀ v, T.leaf v = 0) {k : ℕ}
    (hp : T.low k = some p) {Q : Unit → Phys → Prop} :
    wp (freewalk L 1 (p * PGSIZE)) s Q ↔ wp (kfree L (p * PGSIZE)) s Q := by
  rw [freewalk, wp_bind, wp_freeEntries_empty (by omega)]
  intro j hj
  rw [h.rep.entry (.low k) p hp j hj]
  exact hleaf _

theorem freeEntries_mid (h : Has L s T f) (hleaf : ∀ v, T.leaf v = 0) {i : ℕ}
    (hp : T.mid i = some p) :
    wp (freeEntries (p * PGSIZE) (freewalk L 1) 512 0) s fun _ s' => ∃ T', Has L s' T' f ∧
      Keeps f s s' ∧ s'.oom = s.oom ∧ T.Shrinks T' ∧ T'.page (.mid i) = some p ∧
        ∀ j, 0 ≤ j → j < 0 + 512 → T'.page (.low (512 * i + j)) = none := by
  refine freeEntries_spec (fun j => .low (512 * i + j)) (fun j => ?_) ?_ h hleaf hp le_rfl
  · by_cases hj : j < 512
    · left
      simp only [Slot.parent, Option.some.injEq, Prod.mk.injEq, Slot.mid.injEq]
      omega
    · exact .inr (by omega)
  · intro s T j c h hleaf hq hc hj
    have hparent : (Slot.low (512 * i + j)).parent = some (.mid i, j) := by
      simp only [Slot.parent, Option.some.injEq, Prod.mk.injEq, Slot.mid.injEq]
      omega
    rw [wp_bind, wp_freewalk_low h hleaf hc, ← wp_bind]
    refine (free_child h hparent hc hq fun k _ => hleaf _).mono ?_
    rintro - s' ⟨h', hk, hoom⟩
    refine ⟨_, h', hk, hoom, T.shrinks_put (by simp), ?_, ?_⟩
    · rw [T.page_put _ (by simp), if_neg (by simp), hq]
    · rw [T.page_put _ (by simp), if_pos rfl]

theorem freeEntries_root (h : Has L s T f) (hleaf : ∀ v, T.leaf v = 0) :
    wp (freeEntries (T.root * PGSIZE) (freewalk L 2) 512 0) s fun _ s' => ∃ T', Has L s' T' f ∧
      Keeps f s s' ∧ s'.oom = s.oom ∧ T.Shrinks T' ∧ T'.page .root = some T.root ∧
        ∀ j, 0 ≤ j → j < 0 + 512 → T'.page (.mid j) = none := by
  refine freeEntries_spec .mid (fun j => .inl rfl) ?_ h hleaf rfl le_rfl
  intro s T j c h hleaf hq hc hj
  rw [freewalk, bind_assoc]
  refine (freeEntries_mid h hleaf hc).bind ?_
  rintro - t ⟨T1, h1, hk1, hoom1, hsh1, hc1, hlow⟩
  have hq1 : T1.page .root = some T1.root := rfl
  rw [show T.page .root = some T.root from rfl, Option.some.injEq, ← hsh1.root] at hq
  rw [← hq]
  refine (free_child h1 (x := .mid j) rfl hc1 hq1 fun k hk => ?_).mono ?_
  · rw [Tree.entry, show T1.low (512 * j + k) = none from hlow k (by omega) (by omega)]
    rfl
  · rintro - s' ⟨h', hk, hoom⟩
    refine ⟨_, h', hk1.trans hk, hoom.trans hoom1, hsh1.trans (T1.shrinks_put (by simp)), ?_, ?_⟩
    · rw [T1.page_put _ (by simp), if_neg (by simp), hq1]
    · rw [T1.page_put _ (by simp), if_pos rfl]

/-- `freewalk` on a tree without mappings frees its pages. -/
theorem freewalk_spec (h : Has L s T f) (hleaf : ∀ v, T.leaf v = 0) :
    wp (freewalk L 3 (T.root * PGSIZE)) s fun _ s' =>
      Acct L s' f ∧ Keeps f s s' ∧ s'.oom = s.oom := by
  rw [freewalk]
  refine (freeEntries_root h hleaf).bind ?_
  rintro - t ⟨T', h', hk, hoom, hsh, hroot, hmid⟩
  -- Only the root is left.
  have hpt : T'.pt = ref T.root := by
    have hrest : ∀ x ∈ slots, x ≠ .root → pageRef (T'.page x) = 0 := by
      intro x hx hne
      have hnone : T'.page x = none := by
        cases x with
        | root => exact absurd rfl hne
        | mid i => exact hmid i (by omega) (by simpa using hx)
        | low k =>
          have : k / 512 < 512 := by
            have := mem_slots_low.mp hx
            omega
          exact h'.rep.low_eq_none k (hmid (k / 512) (by omega) (by omega))
      rw [hnone]
      rfl
    rw [Tree.pt, Finset.sum_eq_single_of_mem .root mem_slots_root hrest, hroot]
    rfl
  refine (kfree_spec (c := f) (p := T.root) (by rw [add_comm, ← hpt]; exact h'.acct)).mono ?_
  rintro - s' ⟨hacct, hmem, hoom'⟩
  exact ⟨hacct, hk.trans hmem, hoom'.trans hoom⟩

/-- The tree that is only a root page. -/
def Tree.empty (p : ℕ) : Tree := ⟨p, fun _ => none, fun _ => none, fun _ => 0⟩

theorem Tree.empty_pt (p : ℕ) : (Tree.empty p).pt = ref p := by
  have hrest : ∀ x ∈ slots, x ≠ .root → pageRef ((Tree.empty p).page x) = 0 := by
    intro x _ hne
    cases x with
    | root => exact absurd rfl hne
    | mid i => rfl
    | low k => rfl
  rw [Tree.pt, Finset.sum_eq_single_of_mem .root mem_slots_root hrest]
  rfl

theorem Has.empty (hacct : Acct L s (f + ref p)) (hfree : f p = 0)
    (hmem : s.mem p = Bytes.fill PGSIZE 0) : Has L s (Tree.empty p) f := by
  refine ⟨⟨fun x hx => ?_, fun x q hq j hj => ?_, fun _ _ => rfl, fun _ _ => rfl⟩, ?_, fun q hq => ?_⟩
  · cases x with
    | root => exact mem_slots_root
    | mid i | low k => exact absurd rfl hx
  · cases x with
    | root =>
      obtain rfl : p = q := Option.some.inj hq
      rw [hmem, Bytes.le_fill_zero]
      rfl
    | mid i | low k => simp [Tree.page, Tree.empty] at hq
  · rw [Tree.empty_pt, add_comm]
    exact hacct
  · rw [Tree.empty_pt] at hq ⊢
    obtain rfl : q = p := by
      by_contra hne
      exact hq (ref_of_ne hne)
    rw [ref_self, hfree]

/-- `uvmcreate`: a page table without mappings, or no memory. -/
theorem uvmcreate_spec (h : Acct L s f) : wp uvmcreate s fun pa s' =>
    (pa = 0 ∧ Acct L s' f ∧ s'.mem = s.mem ∧ s'.oom = true) ∨
      ∃ p, pa = p * PGSIZE ∧ p ≠ 0 ∧ f p = 0 ∧ Has L s' (Tree.empty p) f ∧ Keeps f s s' ∧
        s'.oom = s.oom := by
  unfold uvmcreate
  refine (kalloc_spec h).bind ?_
  rintro pa t (⟨rfl, hacct, hmem, hoom⟩ | ⟨p, rfl, hram, hfree, hacct, hmem, hoom⟩)
  · rw [if_pos rfl, wp_pure]
    exact .inl ⟨rfl, hacct, hmem, hoom⟩
  · rw [if_neg (Nat.mul_ne_zero hram.pos pgsize_pos.ne')]
    simp only [wp_bind, wp_memset, wp_pure]
    refine .inr ⟨p, rfl, hram.pos, hfree, .empty (hacct.write (by simp)) hfree (by simp), ?_, hoom⟩
    intro q hq
    have hqp : q ≠ p := by
      rintro rfl
      exact hq hfree
    rw [Phys.write_of_ne hqp, hmem, update_of_ne hqp]

end Freewalk

end Xv6.Vm
