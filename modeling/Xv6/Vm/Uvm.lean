import Xv6.Vm.Space

/-!
# Growing, shrinking and freeing an address space

`uvmalloc`, `uvmdealloc` and `uvmfree` on address spaces. Sizes are in bytes and need not be
multiples of the page size: an address space of `sz` bytes has `npages sz` pages.
-/

namespace Xv6.Vm

open Function Lib

section Sizes

variable {sz sz' n : ℕ}

theorem npages_zero : npages 0 = 0 := rfl

theorem npages_mul (n : ℕ) : npages (n * PGSIZE) = n := by
  unfold npages PGSIZE
  omega

theorem le_npages_mul (sz : ℕ) : sz ≤ npages sz * PGSIZE := by
  unfold npages PGSIZE
  omega

theorem npages_mono (h : sz ≤ sz') : npages sz ≤ npages sz' := by
  unfold npages PGSIZE
  omega

theorem pgRoundUp_eq (h : npages sz ≤ 0x88000) : pgRoundUp sz = npages sz * PGSIZE := by
  unfold npages at h
  unfold npages pgRoundUp
  unfold PGSIZE at *
  omega

end Sizes

section Bits

variable {x p f k : ℕ}

theorem testBit_pteFlags (x : ℕ) (hk : k < 10) : (pteFlags x).testBit k = x.testBit k := by
  conv_rhs => rw [← mkPte_ppn_flags x, testBit_mkPte_lt (pteFlags_lt x) hk]

theorem UserLeaf.flags_ne (h : UserLeaf x) : pteFlags x ≠ PTE_V := by
  intro hflags
  have h1 := h.read
  rw [← testBit_pteFlags x (by decide), hflags] at h1
  exact absurd h1 (by decide)

end Bits

section Rebuild

variable {L : Layout} {s s' : Phys} {T T' : Tree} {n p e : ℕ} {top f : ℕ → ℕ}

theorem Space.of_leaf (h : Space L s T n top f) (hleaf : T'.leaf = T.leaf)
    (hhas : Has L s' T' (T.user + f)) : Space L s' T' n top f where
  has := by
    rw [T.user_congr T' fun v _ => by rw [hleaf]]
    exact hhas
  mapped := by
    rw [hleaf]
    exact h.mapped
  unmapped := by
    rw [hleaf]
    exact h.unmapped
  top := by
    rw [hleaf]
    exact h.top
  inj := by
    rw [hleaf]
    exact h.inj
  priv := by
    rw [hleaf]
    exact h.priv
  le := h.le

theorem Tree.image_congr (hleaf : T'.leaf = T.leaf)
    (hmem : ∀ q, T.user q ≠ 0 → s'.mem q = s.mem q) : T'.image s'.mem = T.image s.mem := by
  funext v
  unfold Tree.image
  rw [hleaf]
  split_ifs with hv
  · exact viewOf_congr fun hvalid => hmem _ (Tree.user_ne_zero.mpr ⟨v, hv, hvalid, rfl⟩)
  · rfl

theorem Space.push (h : Space L s T n top f) (hleaf : T'.leaf = update T.leaf n e)
    (he : UserLeaf e) (huser : T.user (ppn e) = 0) (hf : e.testBit 2 = true → f (ppn e) = 0)
    (hhas : Has L s' T' (T.user + f + ref (ppn e))) : Space L s' T' (n + 1) top f := by
  have hn : n < userPages := by
    have := h.lt_ram
    rw [userPages_eq]
    omega
  have hold : ∀ v, v ≠ n → T'.leaf v = T.leaf v := fun v hv => by
    rw [hleaf, update_of_ne hv]
  have hnew : T'.leaf n = e := by rw [hleaf, update_self]
  have huser' : T'.user = T.user + ref (ppn e) := by
    have := Tree.user_update _ _ hleaf hn
    rwa [h.unmapped n le_rfl hn, own_zero, add_zero, own, if_pos he.valid] at this
  have hfresh : ∀ v, v < n → ppn (T.leaf v) ≠ ppn e := fun v hv heq =>
    h.user_ne_zero hv (by rw [heq, huser])
  refine ⟨by rwa [huser', add_right_comm], fun v hv => ?_, fun v hv hlt => ?_, fun v hv => ?_,
    fun v w hv hw heq => ?_, fun v hv hw => ?_, by omega⟩
  · rcases Nat.lt_succ_iff_lt_or_eq.mp hv with hv | rfl
    · rw [hold v hv.ne]
      exact h.mapped v hv
    · rwa [hnew]
  · rw [hold v (by omega)]
    exact h.unmapped v (by omega) hlt
  · rw [hold v (by omega)]
    exact h.top v hv
  · rcases Nat.lt_succ_iff_lt_or_eq.mp hv with hv | rfl <;>
      rcases Nat.lt_succ_iff_lt_or_eq.mp hw with hw | rfl
    · rw [hold v hv.ne, hold w hw.ne] at heq
      exact h.inj v w hv hw heq
    · rw [hold v hv.ne, hnew] at heq
      exact absurd heq (hfresh v hv)
    · rw [hold w hw.ne, hnew] at heq
      exact absurd heq.symm (hfresh w hw)
    · rfl
  · rcases Nat.lt_succ_iff_lt_or_eq.mp hv with hv | rfl
    · rw [hold v hv.ne] at hw ⊢
      exact h.priv v hv hw
    · rw [hnew] at hw ⊢
      exact hf hw

theorem Space.replace (h : Space L s T n top f) {v : ℕ} (hv : v < n)
    (hleaf : T'.leaf = update T.leaf v e) (he : UserLeaf e)
    (hinj : ∀ w, w < n → w ≠ v → ppn (T.leaf w) ≠ ppn e) (hf : e.testBit 2 = true → f (ppn e) = 0)
    (hhas : Has L s' T' (T'.user + f)) : Space L s' T' n top f := by
  have hold : ∀ w, w ≠ v → T'.leaf w = T.leaf w := fun w hw => by
    rw [hleaf, update_of_ne hw]
  have hnew : T'.leaf v = e := by rw [hleaf, update_self]
  have hle := h.le
  refine ⟨hhas, fun w hw => ?_, fun w hw hlt => ?_, fun w hw => ?_, fun w x hw hx heq => ?_,
    fun w hw hwr => ?_, hle⟩
  · by_cases hwv : w = v
    · rwa [hwv, hnew]
    · rw [hold w hwv]
      exact h.mapped w hw
  · rw [hold w (by omega)]
    exact h.unmapped w hw hlt
  · rw [hold w (by omega)]
    exact h.top w hw
  · by_cases hwv : w = v <;> by_cases hxv : x = v
    · rw [hwv, hxv]
    · rw [hwv, hnew, hold x hxv] at heq
      exact absurd heq.symm (hinj x hx hxv)
    · rw [hxv, hnew, hold w hwv] at heq
      exact absurd heq (hinj w hw hwv)
    · rw [hold w hwv, hold x hxv] at heq
      exact h.inj w x hw hx heq
  · by_cases hwv : w = v
    · rw [hwv, hnew] at hwr ⊢
      exact hf hwr
    · rw [hold w hwv] at hwr ⊢
      exact h.priv w hw hwr

end Rebuild

/-! ## `uvmdealloc` -/

section Dealloc

variable {L : Layout} {s s' : Phys} {T T' : Tree} {n m oldsz newsz : ℕ} {top f : ℕ → ℕ}

theorem Space.uvmunmap (h : Space L s T n top f) (hm : m ≤ n) :
    wp (uvmunmap L (T.root * PGSIZE) (m * PGSIZE) (n - m) true) s fun _ s' =>
      Space L s' (T.clear m (n - m)) m top f ∧ Local f s T s' (T.clear m (n - m)) ∧
        (T.clear m (n - m)).image s'.mem = (T.image s.mem).truncate m ∧ s'.oom = s.oom := by
  have hle := h.le
  have huser := T.user_clear m (n - m) (by omega)
  have hhas := h.has
  rw [huser, add_assoc] at hhas
  refine wp.mono (uvmunmap_spec true hhas (fun k hk => ?_) ?_) ?_
  · have := h.mapped (m + k) (by omega)
    exact ⟨this.valid, this.flags_ne⟩
  · have := h.lt_ram
    unfold PGSIZE MAXVA
    omega
  · rintro - s' ⟨h', hk, hoom⟩
    have hleaf : ∀ v, v < m → (T.clear m (n - m)).leaf v = T.leaf v := fun v hv =>
      if_neg (by omega)
    have hzero : ∀ v, m ≤ v → v < userPages → (T.clear m (n - m)).leaf v = 0 := by
      intro v hv hlt
      change (if _ then _ else _) = _
      split_ifs with hin
      · rfl
      · exact h.unmapped v (by omega) hlt
    have hspace : Space L s' (T.clear m (n - m)) m top f := by
      refine ⟨h', fun v hv => ?_, hzero, fun v hv => ?_, fun v w hv hw heq => ?_, fun v hv hw => ?_,
        by omega⟩
      · rw [hleaf v hv]
        exact h.mapped v (by omega)
      · rw [← h.top v hv]
        exact if_neg (by omega)
      · rw [hleaf v hv, hleaf w hw] at heq
        exact h.inj v w (by omega) (by omega) heq
      · rw [hleaf v hv] at hw ⊢
        exact h.priv v (by omega) hw
    refine ⟨hspace, ⟨rfl, hk.mono fun q hq => by rw [Pi.add_apply]; omega, fun q _ => ?_⟩, ?_, hoom⟩
    · rw [huser, Pi.add_apply]
      omega
    · funext v
      unfold Image.truncate
      split_ifs with hv
      · have huv := hspace.user_ne_zero hv
        rw [hspace.image_of_lt hv, h.image_of_lt (hv.trans_le hm), hleaf v hv,
          hk _ (by rw [Pi.add_apply, ← hleaf v hv]; omega)]
      · exact hspace.image_of_le (by omega) _

/-- `uvmdealloc` brings the size down to `newsz`, if that is smaller. -/
theorem uvmdealloc_spec (h : Space L s T (npages oldsz) top f) :
    wp (uvmdealloc L (T.root * PGSIZE) oldsz newsz) s fun r s' => ∃ T', r = min oldsz newsz ∧
      Space L s' T' (npages r) top f ∧ Local f s T s' T' ∧
        T'.image s'.mem = (T.image s.mem).truncate (npages r) ∧ s'.oom = s.oom ∧
        T' = T.clear (npages r) (npages oldsz - npages r) := by
  unfold uvmdealloc
  split_ifs with hge hround
  · rw [wp_pure]
    exact ⟨T, by omega, h, .refl f s T, h.image_truncate.symm, rfl, by rw [Nat.sub_self, T.clear_zero]⟩
  · have hram := h.lt_ram
    have hmono := npages_mono (show newsz ≤ oldsz by omega)
    have hnew : pgRoundUp newsz = npages newsz * PGSIZE := pgRoundUp_eq (by omega)
    have hcount : viaInt ((pgRoundUp oldsz - pgRoundUp newsz) / PGSIZE) =
        npages oldsz - npages newsz := by
      rw [pgRoundUp_eq hram, hnew, ← Nat.sub_mul, mul_div_pgsize, viaInt]
      split_ifs <;> omega
    simp only [hcount]
    rw [hnew]
    refine (h.uvmunmap hmono).bind ?_
    rintro - s' ⟨h', hlocal, himg, hoom⟩
    rw [wp_pure]
    exact ⟨_, by omega, h', hlocal, himg, hoom, rfl⟩
  · have hram := h.lt_ram
    have hmono := npages_mono (show newsz ≤ oldsz by omega)
    have heq : npages newsz = npages oldsz := by
      rw [pgRoundUp_eq hram, pgRoundUp_eq (by omega)] at hround
      have := Nat.le_of_mul_le_mul_right (not_lt.mp hround) pgsize_pos
      omega
    rw [wp_pure, heq]
    exact ⟨T, by omega, h, .refl f s T, h.image_truncate.symm, rfl, by rw [Nat.sub_self, T.clear_zero]⟩

end Dealloc

/-! ## `uvmalloc` -/

section Alloc

variable {L : Layout} {s s' : Phys} {T T' : Tree} {n n₀ m p oldsz newsz xperm : ℕ} {top f : ℕ → ℕ}

theorem userLeaf_alloc (hx : xperm < 256) :
    UserLeaf (mkPte p ((PTE_R ||| PTE_U ||| xperm) ||| PTE_V)) := by
  have hx' : xperm < 2 ^ 10 := by omega
  have hlt : (PTE_R ||| PTE_U ||| xperm) ||| PTE_V < 1024 :=
    Nat.or_lt_two_pow (Nat.or_lt_two_pow (by decide) hx') (by decide)
  have h8 : xperm.testBit 8 = false := Nat.testBit_lt_two_pow (by omega)
  refine ⟨?_, ?_, ?_⟩
  · rw [testBit_mkPte_lt hlt (by decide), Nat.testBit_or]
    exact Bool.or_true _
  · rw [testBit_mkPte_lt hlt (by decide), Nat.testBit_or, Nat.testBit_or, Nat.testBit_or,
      show PTE_R.testBit 1 = true from rfl]
    simp
  · rintro ⟨-, h⟩
    rw [testBit_mkPte_lt hlt (by decide), Nat.testBit_or, Nat.testBit_or, Nat.testBit_or, h8] at h
    exact absurd h (by decide)

theorem viewOf_alloc (hx : xperm < 256) (mem : ℕ → Page) :
    viewOf mem (mkPte p ((PTE_R ||| PTE_U ||| xperm) ||| PTE_V)) =
      some ⟨mem p, xperm.testBit 2, xperm.testBit 3, true⟩ := by
  have hx' : xperm < 2 ^ 10 := by omega
  have hlt : (PTE_R ||| PTE_U ||| xperm) ||| PTE_V < 1024 :=
    Nat.or_lt_two_pow (Nat.or_lt_two_pow (by decide) hx') (by decide)
  have h8 : xperm.testBit 8 = false := Nat.testBit_lt_two_pow (by omega)
  have hbit : ∀ k, k < 10 → (mkPte p ((PTE_R ||| PTE_U ||| xperm) ||| PTE_V)).testBit k =
      ((PTE_R.testBit k || PTE_U.testBit k) || xperm.testBit k || PTE_V.testBit k) := fun k hk => by
    rw [testBit_mkPte_lt hlt hk, Nat.testBit_or, Nat.testBit_or, Nat.testBit_or]
  rw [viewOf, if_pos (userLeaf_alloc hx).valid, ppn_mkPte hlt, hbit 2 (by decide), hbit 3 (by decide),
    hbit 4 (by decide), hbit 8 (by decide), h8]
  simp [PTE_R, PTE_U, PTE_V, Nat.testBit]

theorem grow_self (img : Image) (n xperm : ℕ) : img.grow n n xperm = img := by
  funext v
  exact if_neg (by omega)

/-- The image after one more page is the image after that page and the rest. -/
theorem grow_succ (img : Image) (n m xperm : ℕ) (h : n + 1 ≤ m) :
    (img.grow n (n + 1) xperm).grow (n + 1) m xperm = img.grow n m xperm := by
  funext v
  unfold Image.grow
  by_cases h1 : n + 1 ≤ v ∧ v < m
  · rw [if_pos h1, if_pos (by omega)]
  · rw [if_neg h1]
    exact if_congr (by omega) rfl rfl

/-- Going back to a size below `n` undoes the growth from `n` on. -/
theorem truncate_grow (img : Image) (h : n₀ ≤ n) :
    (img.grow n m xperm).truncate n₀ = img.truncate n₀ := by
  funext v
  unfold Image.truncate Image.grow
  split_ifs <;> first | rfl | omega

theorem Space.image_push (h : Space L s T n top f) (hx : xperm < 256)
    (hleaf : T'.leaf = update T.leaf n (mkPte p ((PTE_R ||| PTE_U ||| xperm) ||| PTE_V)))
    (hmem : ∀ q, T.user q ≠ 0 → s'.mem q = s.mem q) (hp : s'.mem p = Bytes.fill PGSIZE 0) :
    T'.image s'.mem = (T.image s.mem).grow n (n + 1) xperm := by
  have hn : n < userPages := by
    have := h.lt_ram
    rw [userPages_eq]
    omega
  funext v
  simp only [Tree.image, Image.grow]
  by_cases hv : v = n
  · subst hv
    rw [if_pos hn, if_pos (by omega), hleaf, update_self, viewOf_alloc hx, hp]
  · rw [hleaf, update_of_ne hv, if_neg (show ¬ (n ≤ v ∧ v < n + 1) by omega)]
    split_ifs with hlt
    · exact viewOf_congr fun hvalid => hmem _ (Tree.user_ne_zero.mpr ⟨v, hlt, hvalid, rfl⟩)
    · rfl

/-- The loop of `uvmalloc`: all pages are added, or memory ran out and the address space is cut back
to the `n₀` pages it had. -/
theorem allocLoop_spec (h : Space L s T n top f) (hn0 : n₀ ≤ n) (hx : xperm < 256) :
    wp (allocLoop L (T.root * PGSIZE) xperm (n₀ * PGSIZE) newsz m (n * PGSIZE)) s fun r s' => ∃ T',
      Local f s T s' T' ∧
      (r = newsz ∧ s'.oom = s.oom ∧ Space L s' T' (n + m) top f ∧
          T'.image s'.mem = (T.image s.mem).grow n (n + m) xperm ∨
        r = 0 ∧ s'.oom = true ∧ Space L s' T' n₀ top f ∧
          T'.image s'.mem = (T.image s.mem).truncate n₀ ∧ ∀ v < n₀, T'.leaf v = T.leaf v) := by
  induction m generalizing s T n with
  | zero =>
    simp only [allocLoop, wp_pure]
    exact ⟨T, .refl f s T, .inl ⟨trivial, trivial, h, (grow_self _ _ _).symm⟩⟩
  | succ m ih =>
    -- The error exit: what was added is freed again.
    have hundo : ∀ t T1, Space L t T1 n top f → Local f s T t T1 → t.oom = true →
        T1.image t.mem = T.image s.mem → T1.leaf = T.leaf → wp (do
          let _ ← uvmdealloc L (T.root * PGSIZE) (n * PGSIZE) (n₀ * PGSIZE)
          return 0) t fun r s' => ∃ T', Local f s T s' T' ∧
            (r = newsz ∧ s'.oom = s.oom ∧ Space L s' T' (n + (m + 1)) top f ∧
                T'.image s'.mem = (T.image s.mem).grow n (n + (m + 1)) xperm ∨
              r = 0 ∧ s'.oom = true ∧ Space L s' T' n₀ top f ∧
                T'.image s'.mem = (T.image s.mem).truncate n₀ ∧ ∀ v < n₀, T'.leaf v = T.leaf v) := by
      intro t T1 h₁ hl1 hoom1 himg1 hleaf1
      rw [← hl1.root]
      rw [← npages_mul n] at h₁
      refine (uvmdealloc_spec h₁).bind ?_
      rintro r u ⟨T2, hr, h₂, hl2, himg2, hoom2, hT2⟩
      have hmin : r = n₀ * PGSIZE := by
        have := Nat.mul_le_mul_right PGSIZE hn0
        omega
      rw [hmin, npages_mul] at h₂ himg2 hT2
      rw [wp_pure]
      refine ⟨T2, hl1.trans hl2, .inr ⟨rfl, hoom2.trans hoom1, h₂, by rw [himg2, himg1], fun v hv => ?_⟩⟩
      rw [hT2, Tree.clear_leaf, if_neg (by omega), hleaf1]
    have hva := h.va_lt le_rfl
    have hn : n < userPages := by
      have := h.lt_ram
      rw [userPages_eq]
      omega
    rw [allocLoop]
    refine h.has.kalloc.bind ?_
    rintro pa t (⟨rfl, hhas, hmem, hoom⟩ | ⟨p, rfl, hram, hfree, hhas, hupd, hoom⟩)
    · rw [if_pos rfl]
      have hkeep : ∀ q, t.mem q = s.mem q := fun q => by rw [hmem]
      exact hundo t T (h.of_leaf rfl hhas) ⟨rfl, fun q _ => hkeep q, fun _ _ => le_rfl⟩ hoom
        (T.image_congr rfl fun q _ => hkeep q) rfl
    rw [if_neg (Nat.mul_ne_zero hram.pos pgsize_pos.ne'), wp_bind, wp_memset]
    rw [Pi.add_apply] at hfree
    have hold : ∀ q, T.user q ≠ 0 ∨ f q ≠ 0 → t.mem q = s.mem q ∧ q ≠ p := by
      intro q hq
      have hqp : q ≠ p := by
        rintro rfl
        omega
      exact ⟨by rw [hupd, update_of_ne hqp], hqp⟩
    have hflags : PTE_R ||| PTE_U ||| xperm < 1024 :=
      Nat.or_lt_two_pow (n := 10) (by decide) (by omega)
    have hlt : (PTE_R ||| PTE_U ||| xperm) ||| PTE_V < 1024 :=
      Nat.or_lt_two_pow (n := 10) hflags (by decide)
    refine wp.bind (mappages_one (hhas.write (p := p) (by simp) (Bytes.fill PGSIZE 0))
      (v := n) (p := p) (h.unmapped n le_rfl hn) hva hflags (by have := hram.lt; omega)) ?_
    rintro r u ⟨T1, h₁, hk1, hroot1, ⟨rfl, hleaf1, hoom1⟩ | ⟨rfl, hoom1, hleaf1⟩⟩
    · -- The page is mapped.
      rw [if_neg (by simp)]
      have hkeep : ∀ q, T.user q ≠ 0 ∨ f q ≠ 0 → u.mem q = s.mem q := by
        intro q hq
        obtain ⟨h1, h2⟩ := hold q hq
        rw [hk1 q (by simp only [Pi.add_apply]; omega), Phys.write_of_ne h2, h1]
      have hppn : ppn (mkPte p ((PTE_R ||| PTE_U ||| xperm) ||| PTE_V)) = p := ppn_mkPte hlt
      have hpush : Space L u T1 (n + 1) top f := h.push hleaf1 (userLeaf_alloc hx)
        (by rw [hppn]; omega) (fun _ => by rw [hppn]; omega) (by rwa [hppn])
      have huser : T1.user = T.user + ref p := by
        have := Tree.user_update _ _ hleaf1 hn
        rwa [h.unmapped n le_rfl hn, own_zero, add_zero, own, if_pos (userLeaf_alloc hx).valid,
          hppn] at this
      have himg := h.image_push hx hleaf1 (fun q hq => hkeep q (.inl hq))
        (by rw [hk1 p (by simp), Phys.write_self])
      have hlocal : Local f s T u T1 := ⟨hroot1, fun q hq => hkeep q (.inr hq), fun q hq => by
        rw [huser, Pi.add_apply, ref_of_ne (hold q (.inr hq)).2, add_zero]⟩
      rw [← hroot1, show n * PGSIZE + PGSIZE = (n + 1) * PGSIZE by ring]
      refine wp.mono (ih hpush (by omega)) ?_
      rintro r' w ⟨T2, hl2, hcase⟩
      refine ⟨T2, hlocal.trans hl2, ?_⟩
      rw [himg, grow_succ _ _ _ _ (by omega), truncate_grow _ hn0,
        show n + 1 + m = n + (m + 1) by omega] at hcase
      rcases hcase with ⟨hr, hoom2, hrest⟩ | ⟨hr, hoom2, hs, himg2, hleaf2⟩
      · exact .inl ⟨hr, hoom2.trans (hoom1.trans hoom), hrest⟩
      · refine .inr ⟨hr, hoom2, hs, himg2, fun v hv => ?_⟩
        rw [hleaf2 v hv, hleaf1, update_of_ne (by omega)]
    · -- No memory for the page table: the page is freed again.
      rw [if_pos (by decide)]
      rw [add_comm] at h₁
      refine h₁.kfree.bind ?_
      rintro - w ⟨h₂, hmem2, hoom2⟩
      have hkeep : ∀ q, T.user q ≠ 0 ∨ f q ≠ 0 → w.mem q = s.mem q := by
        intro q hq
        obtain ⟨h1, h2⟩ := hold q hq
        rw [hmem2 q (by simp only [Pi.add_apply]; omega), hk1 q (by simp only [Pi.add_apply]; omega),
          Phys.write_of_ne h2, h1]
      refine hundo w T1 (h.of_leaf hleaf1 h₂) ⟨hroot1, fun q hq => hkeep q (.inr hq), fun q _ => ?_⟩
        (hoom2.trans hoom1) (Tree.image_congr hleaf1 fun q hq => hkeep q (.inl hq)) hleaf1
      rw [T.user_congr T1 fun v _ => by rw [hleaf1]]

/-- `uvmalloc` grows the address space to `newsz` bytes with zeroed pages, or memory ran out and
nothing changes. -/
theorem uvmalloc_spec (h : Space L s T (npages oldsz) top f) (hx : xperm < 256) :
    wp (uvmalloc L (T.root * PGSIZE) oldsz newsz xperm) s fun r s' => ∃ T', Local f s T s' T' ∧
      (r = max oldsz newsz ∧ s'.oom = s.oom ∧ Space L s' T' (npages r) top f ∧
          T'.image s'.mem = (T.image s.mem).grow (npages oldsz) (npages r) xperm ∨
        r = 0 ∧ s'.oom = true ∧ Space L s' T' (npages oldsz) top f ∧
          T'.image s'.mem = T.image s.mem ∧ ∀ v < npages oldsz, T'.leaf v = T.leaf v) := by
  unfold uvmalloc
  split_ifs with hlt
  · rw [wp_pure]
    exact ⟨T, .refl f s T, .inl ⟨by omega, rfl, h, (grow_self _ _ _).symm⟩⟩
  · have hround := pgRoundUp_eq h.lt_ram
    simp only [hround]
    have hcount : npages oldsz + (newsz - npages oldsz * PGSIZE + (PGSIZE - 1)) / PGSIZE =
        npages newsz := by
      have h1 := le_npages_mul oldsz
      have h2 := npages_mono (show oldsz ≤ newsz by omega)
      unfold npages at *
      unfold PGSIZE at *
      omega
    refine wp.mono (allocLoop_spec h le_rfl hx) ?_
    rintro r s' ⟨T', hlocal, ⟨rfl, hoom, h', himg⟩ | ⟨hr, hoom, h', himg, hleaf⟩⟩
    · rw [hcount] at h' himg
      exact ⟨T', hlocal, .inl ⟨by omega, hoom, h', himg⟩⟩
    · exact ⟨T', hlocal, .inr ⟨hr, hoom, h', himg.trans h.image_truncate, hleaf⟩⟩

end Alloc

/-! ## `uvmfree` -/

section Free

variable {L : Layout} {s s' : Phys} {T : Tree} {sz : ℕ} {f : ℕ → ℕ}

theorem Tree.user_eq_zero (h : ∀ v, T.leaf v = 0) : T.user = 0 :=
  Finset.sum_eq_zero fun v _ => by rw [h v, own_zero]

theorem Has.space (h : Has L s T f) (hleaf : ∀ v, T.leaf v = 0) : Space L s T 0 0 f where
  has := by
    rw [Tree.user_eq_zero hleaf, zero_add]
    exact h
  mapped v hv := by omega
  unmapped v _ _ := hleaf v
  top v _ := hleaf v
  inj v w hv _ _ := by omega
  priv v hv _ := by omega
  le := Nat.zero_le _

/-- `uvmfree` of an address space whose top is unmapped frees everything it owns. -/
theorem uvmfree_spec (h : Space L s T (npages sz) 0 f) :
    wp (uvmfree L (T.root * PGSIZE) sz) s fun _ s' =>
      Acct L s' f ∧ Keeps f s s' ∧ s'.oom = s.oom := by
  -- Once no user page is mapped, only the table's own pages are left.
  have hwalk : ∀ t T1, Space L t T1 0 0 f → T1.root = T.root → Keeps f s t → t.oom = s.oom →
      wp (freewalk L 3 (T.root * PGSIZE)) t fun _ s' =>
        Acct L s' f ∧ Keeps f s s' ∧ s'.oom = s.oom := by
    intro t T1 h1 hroot hk hoom
    have hleaf : ∀ v, T1.leaf v = 0 := fun v => by
      by_cases hv : v < userPages
      · exact h1.unmapped v (by omega) hv
      · exact h1.top v (by omega)
    have hhas := h1.has
    rw [Tree.user_eq_zero hleaf, zero_add] at hhas
    rw [← hroot]
    refine (freewalk_spec hhas hleaf).mono ?_
    rintro - s' ⟨hacct, hk', hoom'⟩
    exact ⟨hacct, hk.trans hk', hoom'.trans hoom⟩
  unfold uvmfree
  split_ifs with hpos
  · have hcount : pgRoundUp sz / PGSIZE = npages sz - 0 := by
      rw [pgRoundUp_eq h.lt_ram, mul_div_pgsize, Nat.sub_zero]
    have hun := h.uvmunmap (Nat.zero_le _)
    rw [zero_mul, ← hcount] at hun
    refine hun.bind ?_
    rintro - t ⟨h1, hl1, -, hoom1⟩
    exact hwalk t _ h1 hl1.root hl1.keeps hoom1
  · have hzero : npages sz = 0 := by
      obtain rfl : sz = 0 := by omega
      unfold npages PGSIZE
      omega
    rw [hzero] at h
    exact hwalk s T h rfl (.refl f s) rfl

end Free

end Xv6.Vm
