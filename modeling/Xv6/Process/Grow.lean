import Xv6.Process.Fault

/-!
# `growproc`

`growproc` for every `int`. A process grows by zeroed pages that it can write, or nothing of it changes;
it shrinks by exactly the pages above its new size, each of which loses one reference; and it does not
change if it has less than it is to give back (`growproc_exact`).
-/

namespace Xv6.Process

open Function Lib Vm

section

variable {L : Layout} {k k' : Kernel} {i : Fin NPROC} {T C : Tree} {f : ℕ → ℕ}

/-- Every page that was free is free, or a page of the page table. -/
def FreeAgain (L : Layout) (s s' : Phys) (C : Tree) : Prop :=
  ∀ p, InRam L p → s.refcnt p = 0 → s'.refcnt p = 0 ∨ C.pt p ≠ 0

/-- The pages from `m` up to `n` are unmapped and lose one reference each; the others are as they were. -/
structure Unmapped (s s' : Phys) (T C : Tree) (m n : ℕ) : Prop where
  leaf : ∀ v, C.leaf v = if m ≤ v ∧ v < n then 0 else T.leaf v
  refcnt : ∀ v, m ≤ v → v < n → s'.refcnt (ppn (T.leaf v)) + 1 = s.refcnt (ppn (T.leaf v))

theorem freeAgain {s s' : Phys} {n m : ℕ} {top g : ℕ → ℕ} (h : Space L s T n top g)
    (h' : Space L s' C m top g) (hleaf : C.leaf = T.leaf) : FreeAgain L s s' C := by
  intro p hp hfree
  have huser : C.user = T.user := T.user_congr C fun v _ => by rw [hleaf]
  rw [h.has.acct.refcnt p hp] at hfree
  rw [h'.has.acct.refcnt p hp, huser]
  simp only [Pi.add_apply] at hfree ⊢
  omega

theorem unmapped_clear {s s' : Phys} {n m : ℕ} {top g : ℕ → ℕ} (h : Space L s T n top g) (hm : m ≤ n)
    (h' : Space L s' (T.clear m (n - m)) m top g) : Unmapped s s' T (T.clear m (n - m)) m n := by
  refine ⟨fun v => ?_, fun v hv hvn => ?_⟩
  · rw [Tree.clear_leaf]
    exact if_congr (by omega) rfl rfl
  · -- The page was mapped once, so it is not mapped any more.
    have huser : (T.clear m (n - m)).user (ppn (T.leaf v)) = 0 := by
      by_contra hne
      obtain ⟨w, hwu, hvalid, hw⟩ := Tree.user_ne_zero.mp hne
      rw [Tree.clear_leaf] at hvalid hw
      split_ifs at hvalid hw with hin
      · simp at hvalid
      · by_cases hwn : w < n
        · obtain rfl := h.inj w v hwn hvn hw
          omega
        · rw [h.unmapped w (not_lt.mp hwn) hwu] at hvalid
          simp at hvalid
    rw [h.refcnt_eq hvn, h'.has.acct.refcnt _ (h.inRam hvn)]
    have hpt : (T.clear m (n - m)).pt (ppn (T.leaf v)) = 0 := h.pt_leaf hvn
    simp only [Pi.add_apply, hpt, huser]
    omega

/-- **What `growproc` does**, for every `int` and every process. -/
theorem growproc_exact (hok : ProcOk L k.phys (k.proc i) T f) (n : ℤ) (hn : -2 ^ 31 ≤ n)
    (hn' : n < 2 ^ 31) :
    wp (growproc L i n) k fun r k' => ∃ C : Tree,
      Space L k'.phys C (npages (k'.proc i).sz) (topEntries L (k.proc i).tf) (ref (k.proc i).tf + f) ∧
      C.root = T.root ∧ Keeps (ref (k.proc i).tf + f) k.phys k'.phys ∧
      k' = { k with phys := k'.phys, proc := update k.proc i { k.proc i with sz := (k'.proc i).sz } } ∧
      (0 < n → r = 0 → ((k'.proc i).sz : ℤ) = (k.proc i).sz + n ∧ C.image k'.phys.mem =
        (T.image k.phys.mem).grow (npages (k.proc i).sz) (npages (k'.proc i).sz) PTE_W) ∧
      (0 < n → r ≠ 0 → r = -1 ∧ k'.proc = k.proc ∧ C.leaf = T.leaf ∧
        C.image k'.phys.mem = T.image k.phys.mem ∧ FreeAgain L k.phys k'.phys C) ∧
      (n < 0 → -n ≤ (k.proc i).sz → r = 0 ∧ ((k'.proc i).sz : ℤ) = (k.proc i).sz + n ∧
        C.image k'.phys.mem = (T.image k.phys.mem).truncate (npages (k'.proc i).sz) ∧
        Unmapped k.phys k'.phys T C (npages (k'.proc i).sz) (npages (k.proc i).sz)) ∧
      (n ≤ 0 → n = 0 ∨ (k.proc i).sz < -n → r = 0 ∧ k' = k) := by
  have hlt : (k.proc i).sz < 2 ^ 32 := by
    have h1 := hok.space.lt_ram
    have h2 := le_npages_mul (k.proc i).sz
    unfold PGSIZE at h2
    omega
  unfold growproc
  rw [wp_bind, wp_get]
  simp only
  generalize hnew : (((k.proc i).sz + n) % 2 ^ 64).toNat = newsz
  by_cases hpos : n > 0
  · have hsz : (newsz : ℤ) = (k.proc i).sz + n := by omega
    rw [if_pos hpos, hok.root]
    refine wp.bind (wp_vm (uvmalloc_spec hok.space (by decide))) ?_
    rintro r _ ⟨s, rfl, C, hl, ⟨hr, -, hs, himg⟩ | ⟨rfl, -, hs, himg, hleaf⟩⟩
    · obtain rfl : r = newsz := by omega
      rw [if_neg (by omega), wp_bind, wp_setProc, wp_pure]
      simp only [update_self]
      exact ⟨C, hs, hl.root, hl.keeps, by rw [hok.root], fun _ _ => ⟨hsz, himg⟩, fun _ h0 => absurd rfl h0,
        fun h0 => by omega, fun h0 => by omega⟩
    · rw [if_pos rfl, wp_pure]
      have hsame : C.leaf = T.leaf := by
        funext v
        by_cases hv : v < npages (k.proc i).sz
        · exact hleaf v hv
        · by_cases hu : v < userPages
          · rw [hs.unmapped v (not_lt.mp hv) hu, hok.space.unmapped v (not_lt.mp hv) hu]
          · rw [hs.top v (not_lt.mp hu), hok.space.top v (not_lt.mp hu)]
      refine ⟨C, hs, hl.root, hl.keeps, by rw [← hok.root, update_eq_self], fun _ h0 => (by cases h0), fun _ _ => ?_,
        fun h0 => by omega, fun h0 => by omega⟩
      exact ⟨rfl, rfl, hsame, himg, freeAgain hok.space hs hsame⟩
  rw [if_neg hpos]
  by_cases hneg : n < 0
  · rw [if_pos hneg, hok.root]
    by_cases hsmall : -n ≤ (k.proc i).sz
    · have hsz : (newsz : ℤ) = (k.proc i).sz + n := by omega
      refine wp.bind (wp_vm (uvmdealloc_spec hok.space)) ?_
      rintro r _ ⟨s, rfl, C, hr, hs, hl, himg, -, rfl⟩
      obtain rfl : r = newsz := by omega
      rw [wp_bind, wp_setProc, wp_pure]
      simp only [update_self]
      refine ⟨_, hs, hl.root, hl.keeps, by rw [hok.root], fun h0 => by omega, fun h0 => by omega,
        fun _ _ => ⟨trivial, hsz, himg, unmapped_clear hok.space (npages_mono (by omega)) hs⟩,
        fun _ h0 => by omega⟩
    · -- The new size wraps, and `uvmdealloc` does nothing.
      rw [uvmdealloc, if_pos (by omega)]
      have hvm : wp (vm (pure (k.proc i).sz : M ℕ)) k fun a k' => a = (k.proc i).sz ∧ k' = k := ⟨_, _, rfl, rfl, rfl⟩
      refine hvm.bind ?_
      rintro _ _ ⟨rfl, rfl⟩
      rw [wp_bind, wp_setProc, wp_pure]
      simp only [update_eq_self]
      exact ⟨T, hok.space, rfl, .refl _ _, by rw [← hok.root, update_eq_self], fun h0 => by omega, fun h0 => by omega,
        fun _ h0 => by omega, fun _ _ => ⟨trivial, trivial⟩⟩
  · rw [if_neg hneg, wp_pure]
    exact ⟨T, hok.space, rfl, .refl _ _, by rw [update_eq_self], fun h0 => by omega, fun h0 => by omega,
      fun h0 => by omega, fun _ _ => ⟨rfl, rfl⟩⟩

/-- The first process gives back one byte after it has made a child: of 4096 bytes 4095 are left. -/
theorem growproc_exact_forkStore : ∃ k : Kernel, Run small blank forkStore k ∧
    wp (growproc small proc0 (-1)) k fun r k' => r = 0 ∧ (k'.proc proc0).sz = 4095 := by
  obtain ⟨k, hk, hrunnable, -⟩ := forkStore_possible
  have hrun : Run small blank forkStore k := Run.boot.execute hk
  obtain ⟨T, Kt, hinv, -⟩ := hrun.inv
  refine ⟨k, hrun, (growproc_exact (hinv.ok (by rw [hrunnable]; decide)) (-1) (by decide)
    (by decide)).mono ?_⟩
  rintro r k' ⟨C, -, -, -, -, -, -, hshrink, -⟩
  have hsz : (k.proc proc0).sz = 4096 := forkStore_sz hk
  obtain ⟨hr, hsz', -⟩ := hshrink (by decide) (by omega)
  exact ⟨hr, by omega⟩

end

end Xv6.Process
