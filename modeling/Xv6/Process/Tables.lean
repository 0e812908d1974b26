import Xv6.Process.Exec
import Xv6.Vm.Access

/-!
# The page tables of processes

`proc_pagetable` makes an address space with no user pages, whose top is the trapframe and the
trampoline, and `proc_freepagetable` frees one.
-/

namespace Xv6.Process

open Function
open Lib (Bytes wp)
open Xv6.Vm

/-- The entries above the user pages: the trapframe in page `tf`, then the trampoline. -/
def topEntries (L : Layout) (tf : ℕ) : ℕ → ℕ := fun v =>
  if v = userPages then mkPte tf ((PTE_R ||| PTE_W) ||| PTE_V)
  else if v = userPages + 1 then mkPte (L.trampoline / PGSIZE) ((PTE_R ||| PTE_X) ||| PTE_V)
  else 0

section Top

variable {L : Layout} {tf : ℕ}

theorem trapframe_eq : TRAPFRAME = userPages * PGSIZE := by decide

theorem trampoline_eq : TRAMPOLINE = (userPages + 1) * PGSIZE := by decide

theorem topEntries_self : topEntries L tf userPages = mkPte tf ((PTE_R ||| PTE_W) ||| PTE_V) :=
  if_pos rfl

theorem topEntries_succ : topEntries L tf (userPages + 1) =
    mkPte (L.trampoline / PGSIZE) ((PTE_R ||| PTE_X) ||| PTE_V) := by
  rw [topEntries, if_neg (by omega), if_pos rfl]

theorem topOk_topEntries : TopOk (topEntries L tf) := by
  intro v
  unfold topEntries
  split_ifs
  · constructor <;> rw [testBit_mkPte_lt (by decide) (by decide)] <;> rfl
  · constructor <;> rw [testBit_mkPte_lt (by decide) (by decide)] <;> rfl
  · simp

theorem trampoline_page_lt (L : Layout) : L.trampoline / PGSIZE < 2 ^ 44 := by
  have h1 := L.trampoline_lt
  have h2 := L.etext_lt
  have h3 := L.kend_le
  unfold PHYSTOP KERNBASE at h3
  unfold PGSIZE
  omega

theorem trampoline_page_mul (L : Layout) : L.trampoline = L.trampoline / PGSIZE * PGSIZE := by
  have := L.trampoline_aligned
  unfold PGSIZE at *
  omega

end Top

section Tables

variable {L : Layout} {s : Phys} {T : Tree} {f : ℕ → ℕ} {tf sz : ℕ}

/-- `proc_pagetable`: an address space without user pages, or no memory. -/
theorem procPagetable_spec (h : Acct L s f) (htf : tf < 2 ^ 44) :
    wp (procPagetable L (tf * PGSIZE)) s fun r s' =>
      (r = 0 ∧ Acct L s' f ∧ Keeps f s s' ∧ s'.oom = true) ∨
        ∃ T : Tree, r = T.root * PGSIZE ∧ T.root ≠ 0 ∧ Space L s' T 0 (topEntries L tf) f ∧
          Keeps f s s' ∧ s'.oom = s.oom := by
  unfold procPagetable
  refine (uvmcreate_spec h).bind ?_
  rintro r t (⟨rfl, hacct, hmem, hoom⟩ | ⟨p, rfl, hpos, hfree, hhas, hk, hoom⟩)
  · rw [if_pos rfl, Lib.wp_pure]
    exact .inl ⟨rfl, hacct, fun q _ => by rw [hmem], hoom⟩
  rw [if_neg (Nat.mul_ne_zero hpos pgsize_pos.ne')]
  have hmap := mappages_one (v := userPages + 1) hhas rfl (by decide)
    (show PTE_R ||| PTE_X < 1024 by decide) (trampoline_page_lt L)
  rw [← trampoline_eq, ← trampoline_page_mul L] at hmap
  refine hmap.bind ?_
  rintro r u ⟨T1, h1, hk1, hroot1, ⟨rfl, hleaf1, hoom1⟩ | ⟨rfl, hoom1, hleaf1⟩⟩
  swap
  · -- No memory for the page-table pages.
    rw [if_pos (by decide)]
    have hspace := h1.space fun v => by rw [hleaf1]; rfl
    rw [← npages_zero] at hspace
    have hfreed := uvmfree_spec hspace
    rw [hroot1] at hfreed
    refine hfreed.bind ?_
    rintro - w ⟨hacct, hk2, hoom2⟩
    rw [Lib.wp_pure]
    exact .inl ⟨rfl, hacct, (hk.trans hk1).trans hk2, hoom2.trans hoom1⟩
  rw [if_neg (by decide)]
  -- Both entries are in the same page, which is there now.
  obtain ⟨q, hq⟩ := h1.rep.low_of_leaf (v := userPages + 1) (by
    rw [hleaf1, update_self]
    intro h0
    have hbit : (mkPte (L.trampoline / PGSIZE) ((PTE_R ||| PTE_X) ||| PTE_V)).testBit 0 = true := by
      rw [testBit_mkPte_lt (by decide) (by decide)]
      rfl
    rw [h0] at hbit
    simp at hbit)
  rw [show (userPages + 1) / 512 = userPages / 512 by decide] at hq
  have hmap' := mappages_present (v := userPages) (p := tf) h1
    (by rw [hleaf1, update_of_ne (by omega)]; rfl) (by decide)
    (show PTE_R ||| PTE_W < 1024 by decide) htf hq
  rw [hroot1, ← trapframe_eq] at hmap'
  refine hmap'.bind ?_
  rintro r w ⟨rfl, h2, hk2, hoom2⟩
  rw [if_neg (by decide), Lib.wp_pure]
  set T2 := T1.setLeaf userPages (mkPte tf ((PTE_R ||| PTE_W) ||| PTE_V)) with hT2
  have hlow : ∀ v, v < userPages → T2.leaf v = 0 := by
    intro v hv
    rw [hT2, T1.setLeaf_of_ne (by omega), hleaf1, update_of_ne (by omega)]
    rfl
  have huser : T2.user = 0 := Finset.sum_eq_zero fun v hv => by
    rw [hlow v (Finset.mem_range.mp hv), own_zero]
  refine .inr ⟨T2, ?_, by rw [hT2, show (T1.setLeaf _ _).root = T1.root from rfl, hroot1]; exact hpos,
    ⟨by rwa [huser, zero_add], fun v hv => by omega, fun v _ hv => hlow v hv, fun v hv => ?_,
      fun v w hv _ _ => by omega, fun v hv _ => by omega, Nat.zero_le _⟩,
    (hk.trans hk1).trans hk2, hoom2.trans (hoom1.trans hoom)⟩
  · rw [hT2, show (T1.setLeaf _ _).root = T1.root from rfl, hroot1]
    rfl
  · unfold topEntries
    by_cases h0 : v = userPages
    · rw [if_pos h0, hT2, h0, T1.setLeaf_self]
    · rw [if_neg h0, hT2, T1.setLeaf_of_ne h0, hleaf1, update_apply]
      rfl

/-- `proc_freepagetable` frees everything that an address space owns. -/
theorem procFreepagetable_spec (h : Space L s T (npages sz) (topEntries L tf) f) :
    wp (procFreepagetable L (T.root * PGSIZE) sz) s fun _ s' =>
      Acct L s' f ∧ Keeps f s s' ∧ s'.oom = s.oom := by
  have hle := h.le
  unfold procFreepagetable
  -- The trampoline is unmapped.
  have h1 := uvmunmap_spec false (v := userPages + 1) (n := 1) (by simpa using h.has)
    (fun k hk => by
      obtain rfl : k = 0 := by omega
      rw [add_zero, h.top _ (by omega), topEntries_succ, pteFlags_mkPte (by decide),
        testBit_mkPte_lt (by decide) (by decide)]
      exact ⟨by decide, by decide⟩) (by decide)
  rw [← trampoline_eq] at h1
  refine h1.bind ?_
  rintro - t ⟨ht, hk, hoom⟩
  -- Then the trapframe.
  have hleaf1 : (T.clear (userPages + 1) 1).leaf userPages = T.leaf userPages := by
    rw [Tree.clear_leaf, if_neg (by omega)]
  have h2 := uvmunmap_spec false (v := userPages) (n := 1) (by simpa using ht)
    (fun k hk => by
      obtain rfl : k = 0 := by omega
      rw [add_zero, hleaf1, h.top _ le_rfl, topEntries_self, pteFlags_mkPte (by decide),
        testBit_mkPte_lt (by decide) (by decide)]
      exact ⟨by decide, by decide⟩) (by decide)
  rw [← trapframe_eq] at h2
  refine h2.bind ?_
  rintro - u ⟨hu, hk', hoom'⟩
  set T2 := (T.clear (userPages + 1) 1).clear userPages 1 with hT2
  have hlow : ∀ v, v < userPages → T2.leaf v = T.leaf v := by
    intro v hv
    rw [hT2, Tree.clear_leaf, if_neg (by omega), Tree.clear_leaf, if_neg (by omega)]
  have htop : ∀ v, userPages ≤ v → T2.leaf v = 0 := by
    intro v hv
    rw [hT2, Tree.clear_leaf, Tree.clear_leaf, h.top v hv, topEntries]
    split_ifs <;> first | rfl | omega
  have huser : T2.user = T.user := Tree.user_congr _ _ hlow
  have hspace : Space L u T2 (npages sz) 0 f := by
    refine ⟨by rwa [huser], fun v hv => ?_, fun v hv hlt => ?_, htop, fun v w hv hw heq => ?_,
      fun v hv hw => ?_, hle⟩
    · rw [hlow v (by omega)]
      exact h.mapped v hv
    · rw [hlow v hlt]
      exact h.unmapped v hv hlt
    · rw [hlow v (by omega), hlow w (by omega)] at heq
      exact h.inj v w hv hw heq
    · rw [hlow v (by omega)] at hw ⊢
      exact h.priv v hv hw
  refine (uvmfree_spec hspace).mono ?_
  rintro - w ⟨hacct, hk'', hoom''⟩
  refine ⟨hacct, ?_, hoom''.trans (hoom'.trans hoom)⟩
  exact ((hk.mono fun q hq => by rw [Pi.add_apply]; omega).trans
    (hk'.mono fun q hq => by rw [Pi.add_apply]; omega)).trans hk''

end Tables

end Xv6.Process
