import Xv6.Process.Calls

/-!
# The pages that the kernel holds

Pipes, the virtio queue and other kernel code take pages from the allocator and give them back;
processes see nothing of it.
-/

namespace Xv6.Process

open Lib
open Xv6.Vm

section Misc

variable {L : Layout} {k : Kernel} {T : Fin NPROC → Tree} {Kt : Tree} {p : ℕ}

theorem Inv.changeMisc (h : Inv L k T Kt) (k' : Kernel) (hproc : k'.proc = k.proc)
    (hkt : k'.kernelPagetable = k.kernelPagetable)
    (halign : ∀ a ∈ k'.pages, a = a / PGSIZE * PGSIZE)
    (hacct : Acct L k'.phys (k.owns T Finset.univ + (k.table Kt + k'.misc)))
    (hk : Keeps (k.owns T Finset.univ + k.table Kt) k.phys k'.phys)
    (hg : ∀ q, (k.owns T Finset.univ + k.table Kt) q ≠ 0 → k.misc q = 0 → k'.misc q = 0) :
    Inv L k' T Kt ∧ ∀ j, k'.image T j = k.image T j := by
  have htable : k'.table Kt = k.table Kt := by rw [Kernel.table, hkt, Kernel.table]
  have hbase : k'.base Kt = k.table Kt + k'.misc := by rw [Kernel.base, htable]
  refine h.changeBase k' hproc (by rwa [hbase]) (hk.mono fun q hq => ?_) (fun q hq hzero => ?_) ?_
    halign
  · rw [Pi.add_apply]
    omega
  · rw [Kernel.base, Pi.add_apply] at hzero
    rw [hbase, Pi.add_apply, hg q (by rw [Pi.add_apply]; omega) (by omega)]
    omega
  · rw [hkt]
    refine h.kern.imp_right fun hkern => ?_
    have htab : k.table Kt = Kt.pt + stackRefs Kt := if_neg hkern.pagetable_ne
    have hne : ∀ q, Kt.pt q ≠ 0 → (k.owns T Finset.univ + k.table Kt) q ≠ 0 := fun q hq => by
      rw [htab]
      simp only [Pi.add_apply]
      omega
    refine hkern.frame ?_ (fun q hq => hk q (hne q hq)) fun q hq hzero => ?_
    · rw [htab] at hacct
      convert hacct using 1
      abel
    · rw [Pi.add_apply] at hzero ⊢
      rw [hg q (hne q hq) (by omega)]
      omega

theorem Kernel.rest_univ (k : Kernel) (T : Fin NPROC → Tree) (Kt : Tree) :
    k.rest T Kt ∅ = k.owns T Finset.univ + (k.table Kt + k.misc) := by
  rw [Kernel.rest, Finset.compl_empty, Kernel.base]

theorem Inv.takePage (h : Inv L k T Kt) (k' : Kernel) (hproc : k'.proc = k.proc)
    (hkt : k'.kernelPagetable = k.kernelPagetable) (hmisc : k'.misc = k.misc + ref p)
    (halign : ∀ a ∈ k'.pages, a = a / PGSIZE * PGSIZE) (hfree : k.rest T Kt ∅ p = 0)
    (hacct : Acct L k'.phys (k.rest T Kt ∅ + ref p))
    (hmem : ∀ q, q ≠ p → k'.phys.mem q = k.phys.mem q) :
    Inv L k' T Kt ∧ ∀ j, k'.image T j = k.image T j := by
  rw [k.rest_univ] at hfree hacct
  simp only [Pi.add_apply] at hfree
  have hne : ∀ q, (k.owns T Finset.univ + k.table Kt) q ≠ 0 → q ≠ p := by
    rintro q hq rfl
    rw [Pi.add_apply] at hq
    omega
  refine h.changeMisc k' hproc hkt halign ?_ (fun q hq => hmem q (hne q hq)) fun q hq hzero => ?_
  · rw [hmisc]
    convert hacct using 1
    abel
  · rw [hmisc, Pi.add_apply, ref_of_ne (hne q hq), hzero]

theorem Inv.givePage (h : Inv L k T Kt) (k' : Kernel) (hproc : k'.proc = k.proc)
    (hkt : k'.kernelPagetable = k.kernelPagetable) (hmisc : k.misc = k'.misc + ref p)
    (halign : ∀ a ∈ k'.pages, a = a / PGSIZE * PGSIZE)
    (hacct : Acct L k'.phys (k.owns T Finset.univ + (k.table Kt + k'.misc)))
    (hk : Keeps (k.owns T Finset.univ + (k.table Kt + k'.misc)) k.phys k'.phys) :
    Inv L k' T Kt ∧ ∀ j, k'.image T j = k.image T j := by
  refine h.changeMisc k' hproc hkt halign hacct (hk.mono fun q hq => ?_) fun q _ hzero => ?_
  · simp only [Pi.add_apply] at hq ⊢
    omega
  · rw [hmisc, Pi.add_apply] at hzero
    omega

theorem refs_perm {l l' : List ℕ} (h : l.Perm l') : refs l = refs l' := (h.map ref).sum_eq

theorem misc_of_perm {k k' : Kernel} (h : k'.pages.Perm (p * PGSIZE :: k.pages)) :
    k'.misc = k.misc + ref p := by
  rw [Kernel.misc, refs_perm (h.map _), List.map_cons, mul_div_pgsize, refs_cons, add_comm]
  rfl

/-- A page that the kernel takes for itself is not one of a process. -/
theorem takePage_spec (h : Inv L k T Kt) (put : ℕ → Kernel → Kernel)
    (hput : ∀ s pa, (put pa { k with phys := s }).phys = s ∧ (put pa { k with phys := s }).proc = k.proc ∧
      (put pa { k with phys := s }).kernelPagetable = k.kernelPagetable ∧
      (put pa { k with phys := s }).pages.Perm (pa :: k.pages) ∧
      (put pa { k with phys := s }).initproc = k.initproc ∧
      (put pa { k with phys := s }).nextpid = k.nextpid) :
    wp (do
      let pa ← vm kalloc
      if pa = 0 then return (-1 : ℤ)
      else
        modify (put pa)
        return 0) k fun _ k' => Inv L k' T Kt ∧ Refines k T id k' T := by
  refine (wp_vm (kalloc_spec h.acct)).bind ?_
  rintro pa _ ⟨s, rfl, ⟨rfl, hacct, hmem, hoom⟩ | ⟨p, rfl, hram, hfree, hacct, hmem, hoom⟩⟩
  · rw [if_pos rfl, wp_pure]
    exact ⟨(h.still { k with phys := s } ⟨rfl, rfl, rfl, rfl⟩ rfl hacct fun q _ => by rw [hmem]).1,
      .inr hoom⟩
  · rw [if_neg (Nat.mul_ne_zero hram.pos pgsize_pos.ne'), wp_bind, wp_modify, wp_pure]
    obtain ⟨hphys, hproc, hkt, hperm, hinit, hpid⟩ := hput s (p * PGSIZE)
    have halign : ∀ a ∈ (put (p * PGSIZE) { k with phys := s }).pages, a = a / PGSIZE * PGSIZE := by
      intro a ha
      rcases List.mem_cons.mp (hperm.mem_iff.mp ha) with rfl | ha
      · rw [mul_div_pgsize]
      · exact h.aligned a ha
    obtain ⟨hinv, himg⟩ := h.takePage _ hproc hkt (misc_of_perm hperm) halign hfree (by rwa [hphys])
      fun q hq => by rw [hphys, hmem, Function.update_of_ne hq]
    refine ⟨hinv, .inl ⟨by rw [hphys]; exact hoom, Kernel.abs_eq (fun j => ?_) hinit hpid⟩⟩
    exact Kernel.view_eq (by rw [hproc]) (himg j)

/-- A page that the kernel has taken is given back. -/
theorem givePage_spec (h : Inv L k T Kt) (k1 : Kernel) {pa : ℕ} (hphys : k1.phys = k.phys)
    (hproc : k1.proc = k.proc) (hkt : k1.kernelPagetable = k.kernelPagetable)
    (hperm : k.pages.Perm (pa :: k1.pages)) (hinit : k1.initproc = k.initproc)
    (hpid : k1.nextpid = k.nextpid) :
    wp (vm (kfree L pa)) k1 fun _ k' => Inv L k' T Kt ∧ Refines k T id k' T := by
  obtain ⟨p, rfl⟩ : ∃ p, pa = p * PGSIZE :=
    ⟨_, h.aligned pa (hperm.mem_iff.mpr (List.mem_cons_self ..))⟩
  have hmisc : k.misc = k1.misc + ref p := misc_of_perm hperm
  have hacct := h.acct
  rw [k.rest_univ, hmisc, ← hphys, ← add_assoc (k.table Kt), ← add_assoc] at hacct
  refine (wp_vm (kfree_spec hacct)).mono ?_
  rintro - _ ⟨s, rfl, hs, hk, hoom⟩
  rw [hphys] at hk hoom
  obtain ⟨hinv, himg⟩ := h.givePage { k1 with phys := s } hproc hkt hmisc
    (fun a ha => h.aligned a (hperm.mem_iff.mpr (List.mem_cons_of_mem _ ha))) hs hk
  refine ⟨hinv, .inl ⟨hoom, Kernel.abs_eq (fun j => ?_) hinit hpid⟩⟩
  exact Kernel.view_eq (by rw [← hproc]) (himg j)

end Misc

section Calls

variable {L : Layout} {k : Kernel} {T : Fin NPROC → Tree} {Kt : Tree}

/-- Taking a page is not seen by any process. -/
theorem hold_spec (h : Inv L k T Kt) :
    wp hold k fun _ k' => Inv L k' T Kt ∧ Refines k T id k' T := by
  refine takePage_spec h (fun pa k => { k with held := pa :: k.held }) fun s pa =>
    ⟨rfl, rfl, rfl, ?_, rfl, rfl⟩
  exact List.perm_middle

/-- `pipealloc` takes a page for the pipe, which no process sees. -/
theorem pipealloc_spec (h : Inv L k T Kt) :
    wp pipealloc k fun _ k' => Inv L k' T Kt ∧ Refines k T id k' T := by
  refine takePage_spec h (fun pa k => { k with pipes := ⟨pa, true, true⟩ :: k.pipes }) fun s pa =>
    ⟨rfl, rfl, rfl, ?_, rfl, rfl⟩
  simp only [Kernel.pages, List.map_cons, List.append_assoc, List.cons_append]
  exact List.perm_middle

theorem perm_eraseIdx {α : Type} {l : List α} {n : ℕ} {a : α} (h : l[n]? = some a) :
    l.Perm (a :: l.eraseIdx n) := by
  obtain ⟨hn, rfl⟩ := List.getElem?_eq_some_iff.mp h
  exact (List.getElem_cons_eraseIdx_perm hn).symm

/-- Neither is giving one back. -/
theorem drop_spec (h : Inv L k T Kt) (n : ℕ) :
    wp (drop L n) k fun _ k' => Inv L k' T Kt ∧ Refines k T id k' T := by
  unfold drop
  rw [wp_bind, wp_get]
  cases hn : k.held[n]? with
  | none => exact (wp_pure _).mpr ⟨h, .inl ⟨rfl, rfl⟩⟩
  | some pa =>
    simp only
    rw [wp_bind, wp_modify]
    refine givePage_spec h _ rfl rfl rfl ?_ rfl rfl
    exact ((perm_eraseIdx hn).append_left _).trans List.perm_middle

/-- `pipeclose` frees the page of the pipe when both ends are closed. -/
theorem pipeclose_spec (h : Inv L k T Kt) (n : ℕ) (writable : Bool) :
    wp (pipeclose L n writable) k fun _ k' => Inv L k' T Kt ∧ Refines k T id k' T := by
  unfold pipeclose
  rw [wp_bind, wp_get]
  cases hn : k.pipes[n]? with
  | none => exact (wp_pure _).mpr ⟨h, .inl ⟨rfl, rfl⟩⟩
  | some pi =>
    simp only
    set pi' : Pipe := if writable = true then { pi with writeopen := false }
      else { pi with readopen := false } with hpi'
    have hpage : pi'.page = pi.page := by
      rw [hpi']
      split_ifs <;> rfl
    split_ifs with hclosed
    · -- Both ends are closed.
      rw [wp_bind, wp_modify, hpage]
      refine givePage_spec h _ rfl rfl rfl ?_ rfl rfl
      have hperm := (perm_eraseIdx hn).map Pipe.page
      rw [List.map_cons] at hperm
      have h1 := (hperm.append_left k.disk).append_right k.held
      refine h1.trans ?_
      simp only [Kernel.pages, List.append_assoc, List.cons_append]
      exact List.perm_middle
    · rw [wp_modify]
      have hpages : (k.pipes.set n pi').map Pipe.page = k.pipes.map Pipe.page := by
        refine List.ext_getElem? fun m => ?_
        rw [List.getElem?_map, List.getElem?_map]
        by_cases hm : n = m
        · subst hm
          rw [List.getElem?_set_self', hn]
          simp [hpage]
        · rw [List.getElem?_set_ne hm]
      set k' : Kernel := { k with pipes := k.pipes.set n pi' } with hk'
      have hsame : k'.pages = k.pages := by simp only [hk', Kernel.pages, hpages]
      have hmisc : k'.misc = k.misc := by rw [Kernel.misc, hsame, Kernel.misc]
      have hacct := h.acct
      rw [k.rest_univ, ← hmisc] at hacct
      obtain ⟨hinv, himg⟩ := h.changeMisc k' rfl rfl (by rw [hsame]; exact h.aligned) hacct (.refl _ _)
        fun q _ hzero => by rw [hmisc, hzero]
      exact ⟨hinv, .inl ⟨rfl, Kernel.abs_eq (fun j => Kernel.view_eq rfl (himg j)) rfl rfl⟩⟩

end Calls

end Xv6.Process
