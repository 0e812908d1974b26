import Xv6.Vm.Uvm

/-!
# Copy-on-write

`uvmcopy` gives the child the parent's pages: the entries of both become read-only and marked, and the
reference counts go up. The images of both are the parent's image before. A write by either goes to a
page of its own: `breakCow_spec` is the part that a store fault and `copyout` share, which replaces the
shared page by a copy and leaves every image as it was.
-/

namespace Xv6.Vm

open Function Lib

/-! ## Entries -/

/-- The entry that `uvmcopy` leaves in the parent and puts in the child. -/
def cowPte (x : ℕ) : ℕ := if x.testBit 2 then (x ^^^ PTE_W) ||| PTE_COW else x

section Bits

variable {x y p k : ℕ}

theorem ppn_eq_of_testBit (h : ∀ k, 10 ≤ k → y.testBit k = x.testBit k) : ppn y = ppn x := by
  refine Nat.eq_of_testBit_eq fun k => ?_
  rw [ppn, ppn, show (1024 : ℕ) = 2 ^ 10 from rfl, Nat.testBit_div_two_pow, Nat.testBit_div_two_pow]
  exact h _ (by omega)

theorem testBit_cowPte (x k : ℕ) : (cowPte x).testBit k =
    if k = 2 then false else if k = 8 then (x.testBit 2 || x.testBit 8) else x.testBit k := by
  unfold cowPte
  by_cases hw : x.testBit 2 = true
  · rw [if_pos hw, Nat.testBit_or, Nat.testBit_xor]
    have hW : PTE_W.testBit k = decide (k = 2) := by
      rw [show PTE_W = 2 ^ 2 from rfl, Nat.testBit_two_pow]
      exact decide_eq_decide.mpr eq_comm
    have hC : PTE_COW.testBit k = decide (k = 8) := by
      rw [show PTE_COW = 2 ^ 8 from rfl, Nat.testBit_two_pow]
      exact decide_eq_decide.mpr eq_comm
    rw [hW, hC]
    by_cases h2 : k = 2
    · subst h2
      simp [hw]
    · by_cases h8 : k = 8
      · subst h8
        simp [hw]
      · simp [h2, h8]
  · rw [if_neg hw]
    rw [Bool.not_eq_true] at hw
    by_cases h2 : k = 2
    · rw [h2, hw, if_pos rfl]
    · rw [if_neg h2]
      split_ifs with h8
      · rw [h8, hw, Bool.false_or]
      · rfl

theorem ppn_cowPte (x : ℕ) : ppn (cowPte x) = ppn x :=
  ppn_eq_of_testBit fun k hk => by rw [testBit_cowPte, if_neg (by omega), if_neg (by omega)]

theorem UserLeaf.cowPte (h : UserLeaf x) : UserLeaf (cowPte x) where
  valid := by
    rw [testBit_cowPte]
    exact h.valid
  read := by
    rw [testBit_cowPte]
    exact h.read
  cow := by
    rw [testBit_cowPte]
    simp

theorem viewOf_cowPte (mem : ℕ → Page) (x : ℕ) : viewOf mem (cowPte x) = viewOf mem x := by
  unfold viewOf
  rw [ppn_cowPte]
  simp only [testBit_cowPte]
  simp

theorem mkPte_pteFlags_or (h : x.testBit 0 = true) : mkPte (ppn x) (pteFlags x ||| PTE_V) = x := by
  have hflags : pteFlags x ||| PTE_V = pteFlags x := by
    refine Nat.eq_of_testBit_eq fun k => ?_
    rw [Nat.testBit_or, show PTE_V = 2 ^ 0 from rfl, Nat.testBit_two_pow]
    by_cases hk : 0 = k
    · subst hk
      rw [testBit_pteFlags x (by decide), h]
      rfl
    · simp [hk]
  rw [hflags, mkPte_ppn_flags]

theorem ownedFlags_lt (x : ℕ) : ownedFlags (pteFlags x) < 1024 := by
  refine Nat.or_lt_two_pow (n := 10) ?_ (by decide)
  exact lt_of_le_of_lt Nat.and_le_left (pteFlags_lt x)

theorem testBit_ownedPte (x : ℕ) (hk : k < 10) (hv : x.testBit 0 = true) :
    (mkPte p (ownedFlags (pteFlags x) ||| PTE_V)).testBit k =
      if k = 2 then true else if k = 8 then false else x.testBit k := by
  have hlt : ownedFlags (pteFlags x) ||| PTE_V < 1024 :=
    Nat.or_lt_two_pow (n := 10) (ownedFlags_lt x) (by decide)
  rw [testBit_mkPte_lt hlt hk, Nat.testBit_or, ownedFlags, Nat.testBit_or, Nat.testBit_and,
    testBit_pteFlags x hk]
  interval_cases k <;> first | (rw [hv]; rfl) | simp [PTE_W, PTE_V, PTE_COW, Nat.testBit]

theorem ppn_ownedPte (x : ℕ) : ppn (mkPte p (ownedFlags (pteFlags x) ||| PTE_V)) = p :=
  ppn_mkPte (Nat.or_lt_two_pow (n := 10) (ownedFlags_lt x) (by decide))

theorem UserLeaf.ownedPte (h : UserLeaf x) :
    UserLeaf (mkPte p (ownedFlags (pteFlags x) ||| PTE_V)) where
  valid := by
    rw [testBit_ownedPte x (by decide) h.valid]
    exact h.valid
  read := by
    rw [testBit_ownedPte x (by decide) h.valid]
    exact h.read
  cow := by
    rw [testBit_ownedPte x (k := 8) (by decide) h.valid]
    simp

end Bits

/-! ## `uvmcopy` -/

section Copy

variable {L : Layout} {s s' : Phys} {T C : Tree} {n i m v e sz : ℕ} {top topc f g : ℕ → ℕ}

theorem Acct.addRef {c : ℕ → ℕ} {p : ℕ} (h : Acct L s c) (hp : c p ≠ 0) :
    Acct L (s.addRef p) (c + ref p) where
  free := by
    obtain ⟨l, hl, hnd, hmem⟩ := h.free
    refine ⟨l, hl, hnd, fun q => ?_⟩
    rw [hmem, Pi.add_apply]
    by_cases hqp : q = p
    · subst hqp
      simp [hp]
    · rw [ref_of_ne hqp, add_zero]
  refcnt q hq := by
    by_cases hqp : q = p
    · subst hqp
      simp [Phys.addRef, h.refcnt q hq]
    · simp only [Phys.addRef, update_of_ne hqp, Pi.add_apply, ref_of_ne hqp, add_zero]
      exact h.refcnt q hq
  inRam q hq := by
    by_cases hqp : q = p
    · exact hqp ▸ h.inRam p hp
    · exact h.inRam q (by simpa [ref_of_ne hqp] using hq)

theorem Tree.user_setLeaf (T : Tree) (hv : v < userPages) (hppn : ppn e = ppn (T.leaf v))
    (hvalid : e.testBit 0 = (T.leaf v).testBit 0) : (T.setLeaf v e).user = T.user := by
  have h := T.user_update (T.setLeaf v e) rfl hv
  have hown : own e = own (T.leaf v) := by
    unfold own
    rw [hppn, hvalid]
  rw [hown] at h
  exact add_right_cancel h

/-- Two address spaces beside each other: what is known of one carries over to the other. -/
theorem Space.beside {u : Phys} (hp : Space L s T n top f)
    (hc : Space L u C m topc (T.pt + T.user + g)) (hmem : ∀ q, T.pt q ≠ 0 → u.mem q = s.mem q)
    (hpt : ∀ q, T.pt q ≠ 0 → C.user q + g q = 0)
    (hpriv : ∀ v, v < n → (T.leaf v).testBit 2 = true →
      C.user (ppn (T.leaf v)) + g (ppn (T.leaf v)) = 0) :
    Space L u T n top (C.pt + C.user + g) := by
  have hacct := hc.has.acct
  rw [show C.pt + (C.user + (T.pt + T.user + g)) = T.pt + (T.user + (C.pt + C.user + g)) by abel]
    at hacct
  refine hp.frame hacct hmem (fun q hq => ?_) fun v hv hw => ?_
  · have := hc.pt_eq_zero (q := q) (.inr (by simp only [Pi.add_apply]; omega))
    have := hpt q hq
    simp only [Pi.add_apply]
    omega
  · have := hp.user_ne_zero hv
    have := hc.pt_eq_zero (q := ppn (T.leaf v)) (.inr (by simp only [Pi.add_apply]; omega))
    have := hpriv v hv hw
    simp only [Pi.add_apply]
    omega

/-- What `uvmcopy` does to the parent's address space: only the entries' rights change. -/
structure Shared (g : ℕ → ℕ) (s : Phys) (T C : Tree) (s' : Phys) (T' C' : Tree) : Prop where
  root : T'.root = T.root
  child : C'.root = C.root
  pt : T'.pt = T.pt
  user : T'.user = T.user
  keeps : Keeps g s s'
  image : T'.image s'.mem = T.image s.mem

theorem Shared.trans {s'' : Phys} {T' C' T'' C'' : Tree} (h : Shared g s T C s' T' C')
    (h' : Shared g s' T' C' s'' T'' C'') : Shared g s T C s'' T'' C'' :=
  ⟨h'.root.trans h.root, h'.child.trans h.child, h'.pt.trans h.pt, h'.user.trans h.user,
    h.keeps.trans h'.keeps, h'.image.trans h.image⟩

/-- The first half of a round: the parent's entry is marked. -/
theorem Space.markCow (hp : Space L s T n top f) (hi : i < n) {q : ℕ}
    (hq : T.low (i / 512) = some q) :
    Space L (s.write q ((s.mem q).setLe (8 * (i % 512)) 8 (cowPte (T.leaf i))))
      (T.setLeaf i (cowPte (T.leaf i))) n top f := by
  have hx := hp.mapped i hi
  have huser : (T.setLeaf i (cowPte (T.leaf i))).user = T.user :=
    T.user_setLeaf (hi.trans_le hp.le) (ppn_cowPte _) (by rw [testBit_cowPte]; rfl)
  have hlt : cowPte (T.leaf i) < 2 ^ 64 := by
    rw [← mkPte_ppn_flags (cowPte (T.leaf i)), ppn_cowPte]
    have := (hp.inRam hi).lt
    have := pteFlags_lt (cowPte (T.leaf i))
    unfold mkPte
    omega
  refine hp.replace hi rfl hx.cowPte (fun w hw hne heq => ?_) (fun hw => ?_) ?_
  · rw [ppn_cowPte] at heq
    exact hne (hp.inj w i hw hi heq)
  · rw [testBit_cowPte, if_pos rfl] at hw
    exact absurd hw (by decide)
  · rw [huser]
    exact hp.has.setLeaf hq hlt

theorem Tree.image_markCow (T : Tree) {mem mem' : ℕ → Page}
    (hmem : ∀ q, T.user q ≠ 0 → mem' q = mem q) (i : ℕ) :
    (T.setLeaf i (cowPte (T.leaf i))).image mem' = T.image mem := by
  funext v
  simp only [Tree.image, Tree.setLeaf]
  split_ifs with hv
  · have hview : viewOf mem' (T.leaf v) = viewOf mem (T.leaf v) :=
      viewOf_congr fun hvalid => hmem _ (Tree.user_ne_zero.mpr ⟨v, hv, hvalid, rfl⟩)
    by_cases hvi : v = i
    · rw [hvi] at hview ⊢
      rw [update_self, viewOf_cowPte, hview]
    · rw [update_of_ne hvi, hview]
  · rfl

/-- The second half of a round, and the rest of the loop: the page is mapped in the child, or memory
ran out and the child is emptied. -/
theorem copyLoop_map (hp : Space L s T n top (C.pt + C.user + g))
    (hc : Space L s C i topc (T.pt + T.user + g)) (hi : i < n) (hnw : (T.leaf i).testBit 2 = false)
    (hleaf : ∀ v, v < i → C.leaf v = T.leaf v) {Q : ℤ → Phys → Prop}
    (hok : ∀ u C', Space L u T n top (C'.pt + C'.user + g) →
      Space L u C' (i + 1) topc (T.pt + T.user + g) → C'.root = C.root → u.oom = s.oom →
      Keeps (T.user + g) s u → C'.leaf i = T.leaf i → (∀ v, v < i → C'.leaf v = C.leaf v) →
      wp (copyLoop L (T.root * PGSIZE) (C.root * PGSIZE) m (i * PGSIZE + PGSIZE)) u Q)
    (hfail : ∀ u C', Space L u T n top (C'.pt + C'.user + g) →
      Space L u C' 0 topc (T.pt + T.user + g) → C'.root = C.root → u.oom = true →
      Keeps (T.user + g) s u → Q (-1) u) :
    wp (do
      if (← mappages (C.root * PGSIZE) (i * PGSIZE) PGSIZE (ppn (T.leaf i) * PGSIZE)
          (pteFlags (T.leaf i))) ≠ 0 then
        uvmunmap L (C.root * PGSIZE) 0 i true
        return -1
      else
        modify fun s => s.addRef (ppn (T.leaf i) * PGSIZE / PGSIZE)
        copyLoop L (T.root * PGSIZE) (C.root * PGSIZE) m (i * PGSIZE + PGSIZE)) s Q := by
  have hx := hp.mapped i hi
  have hiU : i < userPages := hi.trans_le hp.le
  have hram := hp.inRam hi
  -- The child does not map the page yet.
  have hnew : C.user (ppn (T.leaf i)) = 0 := by
    by_contra hne
    obtain ⟨v, hvU, hvalid, heq⟩ := Tree.user_ne_zero.mp hne
    have hvi := (hc.valid_iff hvU).mp hvalid
    rw [hleaf v hvi] at heq
    have := hp.inj v i (by omega) hi heq
    omega
  have hptT : ∀ q, T.pt q ≠ 0 → C.user q + g q = 0 := by
    intro q hq
    have := hp.has.excl q hq
    simp only [Pi.add_apply] at this
    omega
  have hprivT : ∀ v, v < n → (T.leaf v).testBit 2 = true →
      C.user (ppn (T.leaf v)) + g (ppn (T.leaf v)) = 0 := by
    intro v hv hw
    have := hp.priv v hv hw
    simp only [Pi.add_apply] at this
    omega
  refine wp.bind (mappages_one hc.has (v := i) (p := ppn (T.leaf i)) (hc.unmapped i le_rfl hiU)
    (hp.va_lt hi.le) (pteFlags_lt _) (by have := hram.lt; omega)) ?_
  rintro r u ⟨C1, h1, hk1, hroot1, ⟨rfl, hleaf1, hoom1⟩ | ⟨rfl, hoom1, hleaf1⟩⟩
  · rw [if_neg (by simp), wp_bind, wp_modify, mul_div_pgsize]
    rw [mkPte_pteFlags_or hx.valid] at hleaf1
    have huser : C1.user = C.user + ref (ppn (T.leaf i)) := by
      have := Tree.user_update _ _ hleaf1 hiU
      rwa [hc.unmapped i le_rfl hiU, own_zero, add_zero, own, if_pos hx.valid] at this
    have hpU := hp.user_ne_zero hi
    have hpt1 : C1.pt (ppn (T.leaf i)) = 0 :=
      h1.pt_eq_zero (by simp only [Pi.add_apply]; omega)
    -- The count goes up after the mapping is made.
    have hacct := h1.acct.addRef (p := ppn (T.leaf i)) (by simp only [Pi.add_apply]; omega)
    have hhas : Has L (u.addRef (ppn (T.leaf i))) C1
        (C.user + (T.pt + T.user + g) + ref (ppn (T.leaf i))) :=
      h1.frame (by rwa [← add_assoc]) (fun _ _ => rfl) fun q hq => by
        have := h1.excl q hq
        have hne : q ≠ ppn (T.leaf i) := by
          rintro rfl
          exact hq hpt1
        simp only [Pi.add_apply, ref_of_ne hne] at this ⊢
        omega
    have hc1 := hc.push hleaf1 hx hnew (fun hw => by simp [hnw] at hw) hhas
    refine hok _ C1 (hp.beside hc1 (fun q hq => hk1 q ?_) (fun q hq => ?_) fun v hv hw => ?_) hc1
      hroot1 hoom1 (fun q hq => hk1 q ?_) ?_ fun v hv => ?_
    · simp only [Pi.add_apply]
      omega
    · have hne : q ≠ ppn (T.leaf i) := by
        rintro rfl
        exact hq (hp.pt_eq_zero (.inl hpU))
      rw [huser, Pi.add_apply, ref_of_ne hne, add_zero]
      exact hptT q hq
    · have hne : ppn (T.leaf v) ≠ ppn (T.leaf i) := by
        intro heq
        rw [hp.inj v i hv hi heq, hnw] at hw
        exact absurd hw (by decide)
      rw [huser, Pi.add_apply, ref_of_ne hne, add_zero]
      exact hprivT v hv hw
    · simp only [Pi.add_apply] at hq ⊢
      omega
    · rw [hleaf1, update_self]
    · rw [hleaf1, update_of_ne hv.ne]
  · -- No memory for the child's page table.
    rw [if_pos (by decide)]
    have hc1 := hc.of_leaf hleaf1 h1
    have hun := hc1.uvmunmap (Nat.zero_le i)
    rw [zero_mul, Nat.sub_zero, hroot1] at hun
    refine hun.bind ?_
    rintro - w ⟨hc2, hl2, -, hoom2⟩
    rw [wp_pure]
    have huser1 : C1.user = C.user := C.user_congr C1 fun v _ => by rw [hleaf1]
    have hmem : ∀ q, T.pt q ≠ 0 ∨ T.user q ≠ 0 ∨ g q ≠ 0 → w.mem q = s.mem q := by
      intro q hq
      rw [hl2.keeps q (by simp only [Pi.add_apply]; omega),
        hk1 q (by simp only [Pi.add_apply]; omega)]
    refine hfail w _ (hp.beside hc2 (fun q hq => hmem q (.inl hq)) (fun q hq => ?_)
      fun v hv hw => ?_) hc2 (hl2.root.trans hroot1) (hoom2.trans hoom1) fun q hq => hmem q ?_
    · have := hl2.user q (by simp only [Pi.add_apply]; omega)
      have := hptT q hq
      rw [huser1] at *
      omega
    · have := hl2.user (ppn (T.leaf v)) (by
        have := hp.user_ne_zero hv
        simp only [Pi.add_apply]
        omega)
      have := hprivT v hv hw
      rw [huser1] at *
      omega
    · simp only [Pi.add_apply] at hq
      omega

/-- The loop of `uvmcopy` shares page after page, or gives back those that the child has. -/
theorem copyLoop_spec (hp : Space L s T n top (C.pt + C.user + g))
    (hc : Space L s C i topc (T.pt + T.user + g)) (hin : i + m = n)
    (hleaf : ∀ v, v < i → C.leaf v = T.leaf v) :
    wp (copyLoop L (T.root * PGSIZE) (C.root * PGSIZE) m (i * PGSIZE)) s fun r s' => ∃ T' C',
      Shared g s T C s' T' C' ∧ Space L s' T' n top (C'.pt + C'.user + g) ∧
      (r = 0 ∧ s'.oom = s.oom ∧ Space L s' C' n topc (T'.pt + T'.user + g) ∧
          (∀ v, v < n → C'.leaf v = T'.leaf v) ∨
        r = -1 ∧ s'.oom = true ∧ Space L s' C' 0 topc (T'.pt + T'.user + g)) := by
  induction m generalizing s T C i with
  | zero =>
    obtain rfl : i = n := by omega
    simp only [copyLoop, wp_pure]
    exact ⟨T, C, ⟨rfl, rfl, rfl, rfl, .refl g s, rfl⟩, hp, .inl ⟨trivial, trivial, hc, hleaf⟩⟩
  | succ m ih =>
    have hi : i < n := by omega
    have hx := hp.mapped i hi
    obtain ⟨q, hq⟩ := hp.has.rep.low_of_leaf (v := i) (by
      intro h0
      have := hx.valid
      simp [h0] at this)
    have hmod : i % 512 < 512 := Nat.mod_lt _ (by decide)
    -- The rest of the round, once the parent's entry is marked.
    have hrest : ∀ t T1, Space L t T1 n top (C.pt + C.user + g) →
        Space L t C i topc (T1.pt + T1.user + g) → Shared g s T C t T1 C → t.oom = s.oom →
        T1.low = T.low → T1.leaf i = cowPte (T.leaf i) → (∀ v, v < i → T1.leaf v = T.leaf v) →
        wp (do
          let y ← load64 (q * PGSIZE + 8 * (i % 512))
          if (← mappages (C.root * PGSIZE) (i * PGSIZE) PGSIZE (ppn (T.leaf i) * PGSIZE)
              (pteFlags y)) ≠ 0 then
            uvmunmap L (C.root * PGSIZE) 0 i true
            return -1
          else
            modify fun s => s.addRef (ppn (T.leaf i) * PGSIZE / PGSIZE)
            copyLoop L (T.root * PGSIZE) (C.root * PGSIZE) m (i * PGSIZE + PGSIZE)) t fun r s' =>
          ∃ T' C', Shared g s T C s' T' C' ∧ Space L s' T' n top (C'.pt + C'.user + g) ∧
            (r = 0 ∧ s'.oom = s.oom ∧ Space L s' C' n topc (T'.pt + T'.user + g) ∧
                (∀ v, v < n → C'.leaf v = T'.leaf v) ∨
              r = -1 ∧ s'.oom = true ∧ Space L s' C' 0 topc (T'.pt + T'.user + g)) := by
      intro t T1 hp1 hc1 hsh hoom hlow hcow hold
      have hppn : ppn (T.leaf i) = ppn (T1.leaf i) := by rw [hcow, ppn_cowPte]
      rw [wp_bind, wp_load64 hmod, hp1.has.leaf_eq (by rw [hlow]; exact hq), hppn, ← hsh.root]
      -- The parent's own pages are unchanged from here on, so its image is.
      have himg : ∀ {u}, Keeps (T1.user + g) t u → T1.image u.mem = T1.image t.mem := fun hk =>
        T1.image_congr rfl fun q hq => hk q (by rw [Pi.add_apply]; omega)
      refine copyLoop_map hp1 hc1 hi (by rw [hcow, testBit_cowPte, if_pos rfl])
        (fun v hv => by rw [hold v hv, hleaf v hv]) ?_ ?_
      · intro u C2 hp2 hc2 hroot2 hoom2 hk2 hleafi hleaf2
        rw [← hroot2, show i * PGSIZE + PGSIZE = (i + 1) * PGSIZE by ring]
        refine wp.mono (ih hp2 hc2 (by omega) fun v hv => ?_) ?_
        · rcases Nat.lt_succ_iff_lt_or_eq.mp hv with hv | rfl
          · rw [hleaf2 v hv, hleaf v hv, hold v hv]
          · exact hleafi
        · rintro r w ⟨T3, C3, hsh3, hp3, hcase⟩
          have hsh2 : Shared g t T1 C u T1 C2 := ⟨rfl, hroot2, rfl, rfl,
            hk2.mono fun q hq => by rw [Pi.add_apply]; omega, himg hk2⟩
          refine ⟨T3, C3, (hsh.trans hsh2).trans hsh3, hp3, ?_⟩
          rcases hcase with ⟨hr, hoom3, hrest⟩ | hfail
          · exact .inl ⟨hr, hoom3.trans (hoom2.trans hoom), hrest⟩
          · exact .inr hfail
      · intro u C2 hp2 hc2 hroot2 hoom2 hk2
        exact ⟨T1, C2, hsh.trans ⟨rfl, hroot2, rfl, rfl,
          hk2.mono fun q hq => by rw [Pi.add_apply]; omega, himg hk2⟩, hp2,
          .inr ⟨rfl, hoom2, hc2⟩⟩
    rw [copyLoop, wp_bind, wp_walk_some hp.has (hp.va_lt hi.le) (by rw [va_page]; exact hq),
      va_page, if_neg (hp.has.slot_ne_zero hq),
      wp_bind, wp_load64 hmod, hp.has.leaf_eq hq, if_neg (by rw [has_V, hx.valid]; decide)]
    simp only [has_W, pte2pa_eq]
    split_ifs with hw
    · rw [wp_bind, wp_store64 hmod]
      have hmark := hp.markCow hi hq
      have hcow : cowPte (T.leaf i) = (T.leaf i ^^^ PTE_W) ||| PTE_COW := if_pos hw
      have huser : (T.setLeaf i (cowPte (T.leaf i))).user = T.user :=
        T.user_setLeaf (hi.trans_le hp.le) (ppn_cowPte _) (by rw [testBit_cowPte]; rfl)
      have hqT : T.pt q ≠ 0 := hp.has.pt_ne_zero (x := .low (i / 512)) hq
      have hqf : T.user q = 0 ∧ (C.pt + C.user + g) q = 0 := by
        have := hp.has.excl q hqT
        rw [Pi.add_apply] at this
        omega
      simp only [Pi.add_apply] at hqf
      have hne : ∀ r, T.user r ≠ 0 ∨ C.pt r ≠ 0 ∨ C.user r ≠ 0 ∨ g r ≠ 0 → r ≠ q := by
        rintro r hr rfl
        omega
      rw [← hcow]
      refine hrest _ _ hmark ?_ ⟨rfl, rfl, rfl, huser, fun r hr => ?_, ?_⟩ rfl rfl
        (update_self ..) fun v hv => update_of_ne hv.ne _ _
      · -- The child's table is not touched.
        have hacct := hmark.has.acct
        rw [huser, Tree.setLeaf_pt] at hacct ⊢
        rw [show T.pt + (T.user + (C.pt + C.user + g)) = C.pt + (C.user + (T.pt + T.user + g)) by
          abel] at hacct
        refine hc.frame hacct (fun r hr => Phys.write_of_ne (hne r (by omega))) (fun r hr => ?_) hc.priv
        have := hc.has.excl r hr
        rw [Pi.add_apply] at this
        omega
      · exact Phys.write_of_ne (hne r (by omega))
      · exact T.image_markCow (fun r hr => Phys.write_of_ne (hne r (.inl hr))) i
    · have hcow : cowPte (T.leaf i) = T.leaf i := if_neg hw
      exact hrest s T hp hc ⟨rfl, rfl, rfl, rfl, .refl g s, rfl⟩ rfl rfl hcow.symm fun _ _ => rfl

/-- `uvmcopy` of an address space of `sz` bytes into an empty one: both show what the first showed,
or memory ran out, the second is empty again and the first shows what it did. -/
theorem uvmcopy_spec (hp : Space L s T (npages sz) top (C.pt + C.user + g))
    (hc : Space L s C 0 topc (T.pt + T.user + g)) :
    wp (uvmcopy L (T.root * PGSIZE) (C.root * PGSIZE) sz) s fun r s' => ∃ T' C',
      Shared g s T C s' T' C' ∧ Space L s' T' (npages sz) top (C'.pt + C'.user + g) ∧
      (r = 0 ∧ s'.oom = s.oom ∧ Space L s' C' (npages sz) topc (T'.pt + T'.user + g) ∧
          C'.user = T.user ∧ C'.image s'.mem = T.image s.mem ∨
        r = -1 ∧ s'.oom = true ∧ Space L s' C' 0 topc (T'.pt + T'.user + g)) := by
  have hloop := copyLoop_spec (m := npages sz) hp hc (by omega) (fun v hv => by omega)
  rw [zero_mul] at hloop
  unfold uvmcopy
  refine wp.mono hloop ?_
  rintro r s' ⟨T', C', hsh, hp', ⟨hr, hoom, hc', hleaf⟩ | hfail⟩
  · have hall : ∀ v, v < userPages → C'.leaf v = T'.leaf v := fun v hv => by
      by_cases hvn : v < npages sz
      · exact hleaf v hvn
      · rw [hc'.unmapped v (by omega) hv, hp'.unmapped v (by omega) hv]
    refine ⟨T', C', hsh, hp', .inl ⟨hr, hoom, hc', ?_, ?_⟩⟩
    · rw [← hsh.user]
      exact Tree.user_congr _ _ hall
    · rw [← hsh.image]
      funext v
      simp only [Tree.image]
      split_ifs with hv
      · rw [hall v hv]
      · rfl
  · exact ⟨T', C', hsh, hp', .inr hfail⟩

end Copy

end Xv6.Vm
