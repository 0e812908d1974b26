import Xv6.Process.System

/-!
# Store page faults

`usertrap` handles a store page fault (`scause` 15) at any address. If the address has an entry, the
fault on a copy-on-write page gives the process a private copy of the page and changes no other
page, and a fault anywhere else only marks the process as killed (`store_fault_outcome`). The handler
uses what `walk` returns without comparing it to 0, so an address below `MAXVA` whose page-table page is
missing crashes the kernel (`store_fault_crashes`), and it does not look at `PTE_U`, so a store to a
guard page that `fork` has made copy-on-write makes the page writable (`usertrapStore_guard`). When
`kalloc` has no page for the copy, the handler sets `p->killed` and copies to address 0 all the same
(`store_fault_no_memory`).
-/

namespace Xv6.Vm

open Function

open Lib (wp)

/-- What `usertrap` does when `scause` is 15, given `p->killed`: the new value of `p->killed`. -/
def usertrapStore (L : Layout) (pagetable stval : ℕ) (killed : Bool) : M Bool := do
  if ← storeFault L pagetable stval then return killed else return true

/-- The page of `va` alone is writable now, not copy-on-write, and private, with unchanged contents. -/
structure Unshared (s s' : Phys) (root va : ℕ) : Prop where
  writable : has (pteAt s'.mem root va) PTE_W = true
  notCow : has (pteAt s'.mem root va) PTE_COW = false
  flags : ∀ k < 10, k ≠ 2 → k ≠ 8 →
    (pteAt s'.mem root va).testBit k = (pteAt s.mem root va).testBit k
  refcnt : s'.refcnt (ppn (pteAt s'.mem root va)) = 1
  others : ∀ w, w / PGSIZE ≠ va / PGSIZE → pteAt s'.mem root w = pteAt s.mem root w

section

variable {L : Layout} {s s' : Phys} {T T' : Tree} {n v p va : ℕ} {top f : ℕ → ℕ}

theorem Space.pt_leaf (h : Space L s T n top f) (hv : v < n) : T.pt (ppn (T.leaf v)) = 0 := by
  have hne := h.user_ne_zero hv
  by_contra hpt
  have := h.has.excl _ hpt
  rw [Pi.add_apply] at this
  omega

theorem Space.refcnt_eq (h : Space L s T n top f) (hv : v < n) :
    s.refcnt (ppn (T.leaf v)) = 1 + f (ppn (T.leaf v)) := by
  have hone : T.user (ppn (T.leaf v)) = 1 := by
    rw [Tree.user_apply, Finset.sum_eq_single v]
    · rw [own, if_pos (h.mapped v hv).valid, ref_self]
    · intro w hw hwv
      by_contra hown
      obtain ⟨hvalid, heq⟩ := own_ne_zero.mp hown
      have hwn : w < n := by
        by_contra hge
        rw [h.unmapped w (not_lt.mp hge) (Finset.mem_range.mp hw)] at hvalid
        simp at hvalid
      exact hwv (h.inj w v hwn hv heq)
    · intro hnot
      exact absurd (Finset.mem_range.mpr (hv.trans_le h.le)) hnot
  rw [h.has.acct.refcnt _ (h.inRam hv), Pi.add_apply, Pi.add_apply, h.pt_leaf hv, hone, Nat.zero_add]

theorem Has.pteAt_congr (h : Has L s T f) {g : ℕ → ℕ} (h' : Has L s' T' g) (hroot : T'.root = T.root)
    (hleaf : T'.leaf (va / PGSIZE) = T.leaf (va / PGSIZE)) :
    pteAt s'.mem T.root va = pteAt s.mem T.root va := by
  by_cases hva : va < MAXVA
  · rw [← hroot, h'.pteAt_eq hva, hroot, h.pteAt_eq hva, hleaf]
  · simp [pteAt, not_lt.mp hva]

theorem Space.unshared (h : Space L s T n top f) (h' : Space L s' T' n top f) (hv : va / PGSIZE < n)
    (hva : va < MAXVA) (hroot : T'.root = T.root)
    (hleaf : T'.leaf = update T.leaf (va / PGSIZE)
      (mkPte p (ownedFlags (pteFlags (T.leaf (va / PGSIZE))) ||| PTE_V))) :
    Unshared s s' T.root va := by
  have hvalid := (h.mapped _ hv).valid
  have hbit : ∀ k < 10, (T'.leaf (va / PGSIZE)).testBit k =
      if k = 2 then true else if k = 8 then false else (T.leaf (va / PGSIZE)).testBit k := by
    intro k hk
    rw [hleaf, update_self, testBit_ownedPte _ hk hvalid]
  have hpte' : pteAt s'.mem T.root va = T'.leaf (va / PGSIZE) := by
    rw [← hroot, h'.has.pteAt_eq hva]
  constructor
  · rw [hpte', has_W, hbit 2 (by decide), if_pos rfl]
  · rw [hpte', has_COW, hbit 8 (by decide)]
    rfl
  · intro k hk h2 h8
    rw [hpte', h.has.pteAt_eq hva, hbit k hk, if_neg h2, if_neg h8]
  · rw [hpte']
    rw [h'.refcnt_eq hv, h'.priv _ hv (by rw [hbit 2 (by decide), if_pos rfl])]
  · intro w hw
    exact h.has.pteAt_congr h'.has hroot (by rw [hleaf, update_of_ne hw])

theorem Space.contents_eq (h : Space L s T n top f) (h' : Space L s' T' n top f)
    (hroot : T'.root = T.root) (himg : T'.image s'.mem = T.image s.mem) {w : ℕ}
    (hw : w / PGSIZE < n) (hmax : w < MAXVA) :
    s'.mem (ppn (pteAt s'.mem T.root w)) = s.mem (ppn (pteAt s.mem T.root w)) := by
  rw [h.has.pteAt_eq hmax, ← hroot, h'.has.pteAt_eq hmax]
  have := congrFun himg (w / PGSIZE)
  rw [h'.image_of_lt hw, h.image_of_lt hw, Option.some.injEq, View.mk.injEq] at this
  exact this.1

/-- A copy-on-write page is made writable whether or not the process may use it. -/
theorem usertrapStore_guard (h : Space L s T n top f) (htop : TopOk top) (hmem : s.freelist ≠ 0)
    (hva : va < MAXVA) (hcow : has (pteAt s.mem T.root va) PTE_COW = true) (killed : Bool) :
    wp (usertrapStore L (T.root * PGSIZE) va killed) s fun r s' => r = killed ∧
      Unshared s s' T.root va ∧ (∃ T', Space L s' T' n top f ∧ Local f s T s' T') ∧
      ∀ w, w / PGSIZE < n →
        s'.mem (ppn (pteAt s'.mem T.root w)) = s.mem (ppn (pteAt s.mem T.root w)) := by
  rw [h.has.pteAt_eq hva, has_COW] at hcow
  have hv := h.lt_of_cow htop hcow
  have hret := (storeFault_cow h htop hva hcow).weaken (F := fun _ => False) fun e he => hmem he.2
  unfold usertrapStore
  refine Lib.wp.bind (hret.returns) ?_
  rintro r s' ⟨rfl, -, T', p, h', hl, himg, hleaf⟩
  rw [if_pos rfl, Lib.wp_pure]
  exact ⟨rfl, h.unshared h' hv hva hl.root hleaf, ⟨T', h', hl⟩,
    fun w hw => h.contents_eq h' hl.root himg hw (h.lt_maxva hw)⟩

/-- A store fault at an address without a table for its entry does not return. -/
theorem usertrapStore_missing (h : Space L s T n top f) (hva : va < MAXVA)
    (hlow : T.low (va / PGSIZE / 512) = none) (killed : Bool) {Q : Bool → Phys → Prop} :
    ¬ wp (usertrapStore L (T.root * PGSIZE) va killed) s Q := by
  intro hret
  unfold usertrapStore at hret
  obtain ⟨r, s', hok, -⟩ := Lib.wp_bind.mp hret
  exact (storeFault_missing (E := fun _ => True) (Q := fun _ _ => False) h hva hlow trivial).of_run hok

/-- **Store page faults.** While a page is free, the handler of a store fault returns with one of two
outcomes: if the entry is valid, for the user and copy-on-write, then the page of the address becomes
writable, not copy-on-write and private, its contents and all other pages stay, and the process goes on;
otherwise the process is marked as killed and nothing else changes. This is so if and only if the address
has an entry, which is not that of a guard page that `fork` has made copy-on-write. -/
theorem store_fault_outcome (h : Space L s T n top f) (htop : TopOk top) (hmem : s.freelist ≠ 0)
    (killed : Bool) :
    (wp (usertrapStore L (T.root * PGSIZE) va killed) s fun r s' =>
      if (has (pteAt s.mem T.root va) PTE_V && has (pteAt s.mem T.root va) PTE_U &&
          has (pteAt s.mem T.root va) PTE_COW) = true then
        r = killed ∧ Unshared s s' T.root va ∧
          (∃ T', Space L s' T' n top f ∧ Local f s T s' T') ∧
          ∀ w, w / PGSIZE < n →
            s'.mem (ppn (pteAt s'.mem T.root w)) = s.mem (ppn (pteAt s.mem T.root w))
      else r = true ∧ s' = s) ↔
    (va < MAXVA → T.low (va / PGSIZE / 512) ≠ none) ∧
      (has (pteAt s.mem T.root va) PTE_COW = true → has (pteAt s.mem T.root va) PTE_U = true) := by
  constructor
  · intro hout
    refine ⟨fun hva hnone => usertrapStore_missing h hva hnone killed hout, fun hcow => ?_⟩
    by_contra huser
    have hva : va < MAXVA := by
      by_contra hge
      simp [pteAt, not_lt.mp hge] at hcow
    -- A guard page is made writable, so the state is not the one before the fault.
    obtain ⟨r, s', hret, hout⟩ := hout
    rw [if_neg (by simp [huser])] at hout
    obtain ⟨-, hun, -⟩ := (usertrapStore_guard h htop hmem hva hcow killed).of_run hret
    rw [hout.2] at hun
    rw [hun.notCow] at hcow
    cases hcow
  · rintro ⟨hlow, huser⟩
    by_cases hcow : has (pteAt s.mem T.root va) PTE_COW = true
    · have hva : va < MAXVA := by
        by_contra hge
        simp [pteAt, not_lt.mp hge] at hcow
      have hvalid : has (pteAt s.mem T.root va) PTE_V = true := by
        have h8 := hcow
        rw [h.has.pteAt_eq hva, has_COW] at h8
        rw [h.has.pteAt_eq hva, has_V]
        exact (h.mapped _ (h.lt_of_cow htop h8)).valid
      refine (usertrapStore_guard h htop hmem hva hcow killed).mono ?_
      intro r s' hr
      rwa [if_pos (by rw [hvalid, huser hcow, hcow]; rfl)]
    · have hplain : (T.leaf (va / PGSIZE)).testBit 8 = false := by
        by_cases hva : va < MAXVA
        · rw [h.has.pteAt_eq hva, has_COW] at hcow
          simpa using hcow
        · exact (h.leaf_of_le htop (not_lt.mp fun hv => hva (h.lt_maxva hv))).2
      have hret := storeFault_plain (E := fun _ => False) h hlow hplain
      unfold usertrapStore
      refine Lib.wp.bind (hret.returns) ?_
      rintro r s' ⟨rfl, rfl⟩
      rw [if_neg (by decide), Lib.wp_pure, if_neg (by simp [hcow])]
      exact ⟨rfl, rfl⟩

/-- **A store fault without memory.** Whenever a process stores to a copy-on-write page and `kalloc`
returns 0, the handler goes on to the copy, whose destination is address 0, and the kernel crashes: it
never returns with the process marked as killed and the memory as it was. -/
theorem store_fault_no_memory (h : Space L s T n top f) (hva : va < MAXVA)
    (hcow : has (pteAt s.mem T.root va) PTE_COW = true) (hempty : s.freelist = 0) (killed : Bool) :
    (usertrapStore L (T.root * PGSIZE) va killed).run s = .error .null ∧
      ¬ wp (usertrapStore L (T.root * PGSIZE) va killed) s fun r s' =>
        r = true ∧ s'.mem = s.mem ∧ ∀ p, InRam L p → s'.refcnt p = s.refcnt p := by
  rw [h.has.pteAt_eq hva, has_COW] at hcow
  have hfault := storeFault_cow_empty h hva hcow hempty
  have hrun : (usertrapStore L (T.root * PGSIZE) va killed).run s = .error .null := by
    unfold usertrapStore
    rw [StateT.run_bind]
    cases hr : (storeFault L (T.root * PGSIZE) va).run s with
    | error e =>
      obtain rfl := hfault.of_error hr
      rfl
    | ok r => exact (hfault.of_run hr).elim
  refine ⟨hrun, ?_⟩
  rintro ⟨r, s', hok, -⟩
  rw [hrun] at hok
  cases hok

end

end Xv6.Vm

namespace Xv6.Process

open Vm

/-- The first process stores to its first page, which it shares since `fork`. -/
theorem store_fault_outcome_forkStore : ∃ (k : Kernel) (T : Tree) (s' : Phys),
    Run small blank forkStore k ∧ (k.proc proc0).pagetable = T.root * PGSIZE ∧
    (usertrapStore small (T.root * PGSIZE) 0 false).run k.phys = .ok (false, s') ∧
    Unshared k.phys s' T.root 0 := by
  have hex : ((Lib.execute (next small) (served small) (Kernel.boot small blank) forkStore).map
      fun k => ((k.proc proc0).state, k.phys.freelist != 0,
        let e := pteAt k.phys.mem ((k.proc proc0).pagetable / PGSIZE) 0
        has e PTE_V && has e PTE_U && has e PTE_COW)) = some (.runnable, true, true) := by
    decide +kernel
  obtain ⟨k, hk, heq⟩ := Option.map_eq_some_iff.mp hex
  simp only [Prod.mk.injEq, bne_iff_ne, ne_eq] at heq
  obtain ⟨hstate, hmem, he⟩ := heq
  have hrun : Run small blank forkStore k := Run.boot.execute hk
  obtain ⟨T, Kt, hinv, -⟩ := hrun.inv
  have hok := hinv.ok (i := proc0) (by rw [hstate]; decide)
  rw [hok.root, mul_div_pgsize] at he
  have hcow : has (pteAt k.phys.mem (T proc0).root 0) PTE_COW = true := (Bool.and_eq_true_iff.mp he).2
  have hlow : (T proc0).low (0 / PGSIZE / 512) ≠ none := by
    intro hnone
    rw [hok.space.has.pteAt_eq (by decide), hok.space.has.rep.leaf_eq_zero _ hnone] at hcow
    exact absurd hcow (by decide)
  obtain ⟨r, s', hret, hout⟩ := (store_fault_outcome hok.space topOk_topEntries hmem false).mpr
    ⟨fun _ => hlow, fun _ => (Bool.and_eq_true_iff.mp (Bool.and_eq_true_iff.mp he).1).2⟩
  rw [if_pos he] at hout
  obtain ⟨rfl, hun, -⟩ := hout
  exact ⟨k, T proc0, s', hrun, hok.root, hret, hun⟩

/-- The code has crashed on a null pointer. -/
def isNull {α : Type} : Except Vm.Panic α → Bool
  | .error .null => true
  | _ => false

/-- A store fault at `0x40000000` crashes the kernel although there is memory: the root page table has
no entry for that gigabyte, and `walk` returns 0. -/
theorem store_fault_crashes : ∃ (k : Kernel) (T : Tree) (n : ℕ) (f : ℕ → ℕ),
    Run small blank forkStore k ∧ k.phys.freelist ≠ 0 ∧ (k.proc proc0).pagetable = T.root * PGSIZE ∧
    Space small k.phys T n (topEntries small (k.proc proc0).tf) f ∧
    (usertrapStore small (T.root * PGSIZE) 0x40000000 false).run k.phys = .error .null := by
  have hex : ((Lib.execute (next small) (served small) (Kernel.boot small blank) forkStore).map
      fun k => ((k.proc proc0).state, k.phys.freelist != 0,
        isNull ((usertrapStore small (k.proc proc0).pagetable 0x40000000 false).run k.phys))) =
      some (.runnable, true, true) := by
    decide +kernel
  obtain ⟨k, hk, heq⟩ := Option.map_eq_some_iff.mp hex
  simp only [Prod.mk.injEq, bne_iff_ne, ne_eq] at heq
  obtain ⟨hstate, hmem, he⟩ := heq
  have hrun : Run small blank forkStore k := Run.boot.execute hk
  obtain ⟨T, Kt, hinv, -⟩ := hrun.inv
  have hok := hinv.ok (i := proc0) (by rw [hstate]; decide)
  refine ⟨k, T proc0, _, _, hrun, hmem, hok.root, hok.space, ?_⟩
  rw [← hok.root]
  unfold isNull at he
  split at he
  next hnull => exact hnull
  next => cases he

/-- After a `fork` that leaves three pages, these are allocated to the kernel. -/
def forkExhaust : List Event := [.userinit, .fork proc0, .kalloc, .kalloc, .kalloc]

/-- With no free page, the first process stores to its first page, which it shares since `fork`. -/
theorem store_fault_no_memory_forkExhaust : ∃ (k : Kernel) (T : Tree),
    Run small blank forkExhaust k ∧ k.phys.freelist = 0 ∧
    (k.proc proc0).pagetable = T.root * PGSIZE ∧
    has (pteAt k.phys.mem T.root 0) PTE_COW = true ∧
    (usertrapStore small (T.root * PGSIZE) 0 false).run k.phys = .error .null := by
  have hex : ((Lib.execute (next small) (served small) (Kernel.boot small blank) forkExhaust).map
      fun k => ((k.proc proc0).state, k.phys.freelist == 0,
        has (pteAt k.phys.mem ((k.proc proc0).pagetable / PGSIZE) 0) PTE_COW)) =
      some (.runnable, true, true) := by
    decide +kernel
  obtain ⟨k, hk, heq⟩ := Option.map_eq_some_iff.mp hex
  simp only [Prod.mk.injEq, beq_iff_eq] at heq
  obtain ⟨hstate, hempty, hcow⟩ := heq
  have hrun : Run small blank forkExhaust k := Run.boot.execute hk
  obtain ⟨T, Kt, hinv, -⟩ := hrun.inv
  have hok := hinv.ok (i := proc0) (by rw [hstate]; decide)
  rw [hok.root, mul_div_pgsize] at hcow
  exact ⟨k, T proc0, hrun, hempty, hok.root, hcow,
    (store_fault_no_memory hok.space (by decide) hcow hempty false).1⟩

/-- The same store, as an execution: the handler does not return, so the process is not marked as killed
with the memory as it was. -/
theorem store_fault_no_memory_crashes : ∃ (k : Kernel),
    Run small blank forkExhaust k ∧ k.phys.freelist = 0 ∧
    has (pteAt k.phys.mem ((k.proc proc0).pagetable / PGSIZE) 0) PTE_COW = true ∧
    ¬ Lib.wp (usertrapStore small (k.proc proc0).pagetable 0 false) k.phys fun r s' =>
      r = true ∧ s'.mem = k.phys.mem ∧ ∀ p, InRam small p → s'.refcnt p = k.phys.refcnt p := by
  have hex : ((Lib.execute (next small) (served small) (Kernel.boot small blank) forkExhaust).map
      fun k => (k.phys.freelist == 0,
        has (pteAt k.phys.mem ((k.proc proc0).pagetable / PGSIZE) 0) PTE_COW,
        isNull ((usertrapStore small (k.proc proc0).pagetable 0 false).run k.phys))) =
      some (true, true, true) := by
    decide +kernel
  obtain ⟨k, hk, heq⟩ := Option.map_eq_some_iff.mp hex
  simp only [Prod.mk.injEq, beq_iff_eq] at heq
  obtain ⟨hempty, hcow, hnull⟩ := heq
  refine ⟨k, Run.boot.execute hk, hempty, hcow, ?_⟩
  rintro ⟨r, s', hok, -⟩
  rw [hok] at hnull
  cases hnull

end Xv6.Process
