import Xv6.Process.Fault

/-!
# What user mode can reach

The invariant of the page owners read as protection: the pages that a page table gives to user mode are
the user's alone (`user_pages_protected`), and a process notices nothing of the events of others
(`other_events_unseen`).
-/

namespace Xv6.Process

open Lib
open Xv6.Vm

section Reachable

variable {L : Layout} {k : Kernel} {T : Fin NPROC → Tree} {Kt : Tree} {i j : Fin NPROC} {va v : ℕ}

/-- An address that user mode can use is below the size. -/
theorem Inv.user_lt (h : Inv L k T Kt) (hi : (k.proc i).state ≠ .unused) (hva : va < MAXVA)
    (hv : has (k.pte i va) PTE_V = true) (hu : has (k.pte i va) PTE_U = true) :
    va / PGSIZE < npages (k.proc i).sz := by
  have hsp := (h.ok hi).space
  rw [h.pte_eq hi hva, has_V] at hv
  rw [h.pte_eq hi hva, has_U] at hu
  by_cases hlow : va / PGSIZE < userPages
  · exact (hsp.valid_iff hlow).mp hv
  · -- The entries of the trapframe and the trampoline are not for the user.
    rw [hsp.top _ (not_lt.mp hlow), topEntries] at hv hu
    split_ifs at hv hu
    · rw [testBit_mkPte_lt (by decide) (by decide)] at hu
      exact absurd hu (by decide)
    · rw [testBit_mkPte_lt (by decide) (by decide)] at hu
      exact absurd hu (by decide)
    · simp at hv

theorem Inv.own_page (h : Inv L k T Kt) (hi : (k.proc i).state ≠ .unused)
    (hv : v < npages (k.proc i).sz) : (k.proc i).own (T i) (ppn ((T i).leaf v)) ≠ 0 := by
  have := (h.ok hi).space.user_ne_zero hv
  simp only [(h.ok hi).own_eq, Pi.add_apply]
  omega

/-- A page of a process is in no page table and is no trapframe. -/
theorem Inv.page_apart (h : Inv L k T Kt) (hi : (k.proc i).state ≠ .unused)
    (hj : (k.proc j).state ≠ .unused) (hv : v < npages (k.proc i).sz) :
    (T j).pt (ppn ((T i).leaf v)) = 0 ∧ (k.proc j).tf ≠ ppn ((T i).leaf v) := by
  have hown := h.own_page hi hv
  have hok := h.ok hj
  by_cases hij : i = j
  · subst hij
    refine ⟨hok.space.pt_leaf hv, fun heq => ?_⟩
    have := hok.space.user_ne_zero hv
    have := hok.excl
    rw [heq] at this
    omega
  · have hrest : k.rest T Kt {j} (ppn ((T i).leaf v)) ≠ 0 := by
      rw [Kernel.rest_insert (j := i) (S := {j}) (by simpa using hij), Pi.add_apply]
      omega
    refine ⟨?_, fun heq => ?_⟩
    · by_contra hpt
      have := hok.space.has.excl _ hpt
      simp only [Pi.add_apply] at this
      omega
    · have := hok.excl
      rw [heq] at this
      omega

theorem Inv.page_ktree (h : Inv L k T Kt) (hi : (k.proc i).state ≠ .unused)
    (hv : v < npages (k.proc i).sz) (hk : k.kernelPagetable ≠ 0) :
    k.ktree.pt (ppn ((T i).leaf v)) = 0 := by
  obtain hzero | hok := h.kern
  · exact absurd hzero hk
  rw [Kernel.ktree, hok.root, mul_div_pgsize, ← hok.has.rep.eq_ofMem]
  by_contra hpt
  have hexcl := hok.has.excl _ hpt
  have hle := Finset.single_le_sum (f := fun j => (k.proc j).own (T j) (ppn ((T i).leaf v)))
    (fun _ _ => Nat.zero_le _) (Finset.mem_univ i)
  have hown := h.own_page hi hv
  simp only [Pi.add_apply, Kernel.owns, Finset.sum_apply] at hexcl
  omega

end Reachable

/-- **Memory protection.** In every state of a run of whole calls, take an address that user mode can use in
a live process. Its page is RAM that is in use, and is neither part of a page table, of a process or the kernel,
nor a trapframe. If user mode can store to it, the page has no other owner: no other process, pipe, stack
or queue of the kernel shares it. -/
theorem user_pages_protected {L : Layout} {mem : ℕ → Page} {k : Kernel}
    (h : Reach (Kernel.boot L mem) (Step L) (Ample L) k) {i : Fin NPROC} {va : ℕ}
    (hi : (k.proc i).state ≠ .unused) (hva : va < MAXVA) (hv : has (k.pte i va) PTE_V = true)
    (hu : has (k.pte i va) PTE_U = true) :
    InRam L (ppn (k.pte i va)) ∧
    (∀ j, (k.proc j).state ≠ .unused →
      (k.tree j).pt (ppn (k.pte i va)) = 0 ∧ (k.proc j).tf ≠ ppn (k.pte i va)) ∧
    (k.kernelPagetable ≠ 0 → k.ktree.pt (ppn (k.pte i va)) = 0) ∧
    k.owners (ppn (k.pte i va)) ≠ 0 ∧
    (has (k.pte i va) PTE_W = true → k.owners (ppn (k.pte i va)) = 1) := by
  obtain ⟨T, Kt, hinv⟩ := reach_inv h
  have hlt := hinv.user_lt hi hva hv hu
  have hsp := (hinv.ok hi).space
  rw [hinv.pte_eq hi hva, hinv.owners_eq]
  refine ⟨hsp.inRam hlt, fun j hj => ?_, hinv.page_ktree hi hlt, ?_, fun hw => ?_⟩
  · rw [hinv.tree_eq hj]
    exact hinv.page_apart hi hj hlt
  · rw [Kernel.rest_insert (j := i) (by simp), Pi.add_apply]
    exact fun hzero => hinv.own_page hi hlt (Nat.eq_zero_of_add_eq_zero_right hzero)
  · rw [has_W] at hw
    rw [← hinv.acct.refcnt _ (hsp.inRam hlt), hsp.refcnt_eq hlt, hsp.priv _ hlt hw]

/-- The child has its own copy of the page that it has stored to. -/
theorem user_pages_protected_forkStore : ∃ k : Kernel, (k.proc proc1).state ≠ .unused ∧
    has (k.pte proc1 0) PTE_W = true ∧ k.owners (ppn (k.pte proc1 0)) = 1 := by
  have hex : ((execute (next small) (served small) (Kernel.boot small blank) forkStore).map fun k =>
      ((k.proc proc1).state, has (k.pte proc1 0) PTE_V, has (k.pte proc1 0) PTE_U,
        has (k.pte proc1 0) PTE_W)) = some (.runnable, true, true, true) := by
    decide +kernel
  obtain ⟨k, hk, heq⟩ := Option.map_eq_some_iff.mp hex
  simp only [Prod.mk.injEq] at heq
  obtain ⟨hstate, hv, hu, hw⟩ := heq
  have hlive : (k.proc proc1).state ≠ .unused := by
    rw [hstate]
    decide
  exact ⟨k, hlive, hw, (user_pages_protected (forkStore_reach hk) hlive (by decide) hv hu).2.2.2.2 hw⟩

/-- In the reference system, an event of another process leaves the memory of a process alone, unless it
makes the process or frees it. -/
theorem Ref.System.image_step (r : Ref.System) {e : Event} {j : Fin NPROC} (he : e.actor ≠ some j)
    (hj : (r.proc j).state ≠ .unused) (hj' : ((r.step e).proc j).state ≠ .unused) :
    ((r.step e).proc j).image = (r.proc j).image := by
  have hne : ∀ {i}, e.actor = some i → j ≠ i := fun hi hji => he (hi.trans (congrArg some hji.symm))
  have hset : ∀ (r : Ref.System) {i p}, j ≠ i → ((r.setProc i p).proc j).image = (r.proc j).image :=
    fun r i p hji => congrArg Ref.Proc.image (Function.update_of_ne hji _ _)
  have hexit : ∀ i s, j ≠ i → ((r.exit i s).proc j).image = (r.proc j).image := fun i s hji => by
    rw [Ref.System.exit, hset _ hji]
    dsimp only
    split_ifs <;> rfl
  have hfree : ∀ {np}, r.find (fun p => p.state = .unused) = some np → j ≠ np := fun hf hjn => by
    have := List.find?_some hf
    rw [← hjn] at this
    exact hj (by simpa using this)
  cases e with
  | userinit | fork i =>
    simp only [Ref.System.step, Ref.System.userinit, Ref.System.fork]
    split
    · rfl
    · next np hf => exact hset _ (hfree hf)
  | growproc i n =>
    simp only [Ref.System.step, Ref.System.growproc]
    split_ifs
    · exact hset _ (hne rfl)
    · exact hset _ (hne rfl)
    · rfl
  | exec i file uargv => exact hset _ (hne rfl)
  | exit i status => exact hexit i status (hne rfl)
  | wait i addr =>
    simp only [Ref.System.step, Ref.System.wait] at hj' ⊢
    split at hj'
    · rfl
    · next c hf =>
      -- The child that is freed is not `j`, which is still there.
      have hgone : ∀ r : Ref.System, ((r.setProc c .empty).proc j).state ≠ .unused → j ≠ c := by
        rintro r hlive rfl
        exact hlive (by simp [Ref.System.setProc, Ref.Proc.empty])
      split_ifs at hj' ⊢
      · exact hset _ (hne rfl)
      · exact (hset _ (hgone _ hj')).trans (hset _ (hne rfl))
      · exact hset _ (hne rfl)
      · exact (hset _ (hgone _ hj')).trans (hset _ (hne rfl))
  | store i va b =>
    simp only [Ref.System.step, Ref.System.store]
    split
    · exact hset _ (hne rfl)
    · exact hexit i _ (hne rfl)
  | copyout i dstva src len => exact hset _ (hne rfl)
  | _ => rfl

/-- **Isolation.** A whole call of one process, or of the kernel, changes nothing that another process can
read in user mode, as long as the process is there and there is memory. -/
theorem other_events_unseen {L : Layout} {mem : ℕ → Page} {k k' : Kernel} {e : Event} {j : Fin NPROC}
    (h : Reach (Kernel.boot L mem) (Step L) (Ample L) k) (hs : Step L k e k')
    (hoom : k'.phys.oom = false) (he : e.actor ≠ some j) (hj : (k.proc j).state ≠ .unused)
    (hj' : (k'.proc j).state ≠ .unused) (va : ℕ) :
    userByte k'.phys.mem ((k'.proc j).pagetable / PGSIZE) va =
      userByte k.phys.mem ((k.proc j).pagetable / PGSIZE) va := by
  obtain ⟨T, Kt, hinv⟩ := reach_inv h
  rcases Step.inv hinv hs with ⟨-, htrue⟩ | ⟨T', Kt', hinv', ⟨-, href⟩ | htrue⟩
  · rw [hoom] at htrue
    cases htrue
  · refine hinv.userByte_congr hinv' hj hj' ?_
    have hstate : ((k.abs T).step e).proc j = (k'.abs T').proc j := by rw [href]
    have himg := Ref.System.image_step (k.abs T) he hj (by rw [hstate]; exact hj')
    rw [hstate] at himg
    exact himg
  · rw [hoom] at htrue
    cases htrue

/-- The parent does not notice that the child grows. -/
theorem other_events_unseen_growproc : ∃ k k' : Kernel, Step small k (.growproc proc1 4096) k' ∧
    userByte k'.phys.mem ((k'.proc proc0).pagetable / PGSIZE) 0 =
      userByte k.phys.mem ((k.proc proc0).pagetable / PGSIZE) 0 := by
  have hex : ((execute (next small) (served small) (Kernel.boot small blank) [.userinit, .fork proc0]).bind
      fun k => (next small k (.growproc proc1 4096)).map fun k' =>
        (k'.phys.oom, (k.proc proc0).state, (k'.proc proc0).state)) =
      some (false, .runnable, .runnable) := by
    decide +kernel
  obtain ⟨k, hk, hex⟩ := Option.bind_eq_some_iff.mp hex
  obtain ⟨k', hk', heq⟩ := Option.map_eq_some_iff.mp hex
  simp only [Prod.mk.injEq] at heq
  obtain ⟨hoom, hstate, hstate'⟩ := heq
  have hreach : Reach (Kernel.boot small blank) (Step small) (Ample small) k :=
    Reach.execute (fun _ _ _ => next_eq.mp) (fun _ _ => ample_of_served) .init hk
  exact ⟨k, k', next_eq.mp hk', other_events_unseen hreach (next_eq.mp hk') hoom (by decide)
    (by rw [hstate]; decide) (by rw [hstate']; decide) 0⟩

end Xv6.Process
