import Xv6.Process.Inv

/-!
# The system calls and the accesses of processes

Each call keeps the invariant and does to the processes what it does in the reference system, unless
memory runs out; then it still keeps the invariant.
-/

namespace Xv6.Process

open Function Lib
open Xv6.Vm

section Rules

variable {k : Kernel} {α : Type} {x : M α} {E : Panic → Prop}

theorem wp_vm {P : α → Phys → Prop} (h : wp x k.phys P) :
    wp (vm x) k fun a k' => ∃ s, k' = { k with phys := s } ∧ P a s :=
  wp.zoom (h.mono fun _ s hP => ⟨s, rfl, hP⟩)

theorem wpOr_vm {P : α → Phys → Prop} (h : wpOr E x k.phys P) :
    wpOr E (vm x) k fun a k' => ∃ s, k' = { k with phys := s } ∧ P a s :=
  wpOr.zoom (h.mono fun _ s hP => ⟨s, rfl, hP⟩)

theorem wp_setProc {i : Fin NPROC} {u : Proc → Proc} {Q : Unit → Kernel → Prop} :
    wp (setProc i u) k Q ↔
      Q ⟨⟩ { k with proc := update k.proc i (u (k.proc i)) } := wp_modify _

theorem wp_discard {x : K α} {Q : Unit → Kernel → Prop} (h : wp x k fun _ k' => Q ⟨⟩ k') :
    wp (discard x) k Q := by
  obtain ⟨a, k', hr, hQ⟩ := h
  refine ⟨⟨⟩, k', ?_, hQ⟩
  change StateT.run ((fun _ => PUnit.unit) <$> x) k = _
  rw [StateT.run_map, hr]
  rfl

end Rules

/-! ## Allocating and freeing processes -/

section Alloc

variable {L : Layout} {k : Kernel} {T : Tree} {f : ℕ → ℕ} {i : Fin NPROC} {tf : ℕ}

/-- What `freeproc` leaves. -/
def Freed (L : Layout) (k : Kernel) (i : Fin NPROC) (f : ℕ → ℕ) (k' : Kernel) : Prop :=
  ∃ s, k' = { k with phys := s, proc := update k.proc i Proc.empty } ∧ Acct L s f ∧
    Keeps f k.phys s ∧ s.oom = k.phys.oom

/-- `freeproc` gives back all pages of the process. -/
theorem freeproc_spec (h : ProcOk L k.phys (k.proc i) T f) :
    wp (freeproc L i) k fun _ => Freed L k i f := by
  have htf : (k.proc i).trapframe ≠ 0 := by
    rw [h.trapframe]
    exact Nat.mul_ne_zero h.inRam.pos pgsize_pos.ne'
  unfold freeproc
  rw [wp_bind, wp_get]
  simp only
  rw [if_pos htf, h.trapframe]
  refine wp.bind (wp_vm h.space.kfree) ?_
  rintro - _ ⟨s, rfl, hs, hk, hoom⟩
  rw [if_pos h.pagetable_ne, h.root]
  refine wp.bind (wp_vm (procFreepagetable_spec hs)) ?_
  rintro - _ ⟨s', rfl, hacct, hk', hoom'⟩
  rw [wp_setProc]
  refine ⟨s', rfl, hacct, (hk.mono fun q hq => ?_).trans hk', hoom'.trans hoom⟩
  rw [Pi.add_apply]
  omega

theorem freeproc_started {t : ℕ} (hpt : (k.proc i).pagetable = 0)
    (h : (k.proc i).trapframe = 0 ∧ Acct L k.phys f ∨
      t ≠ 0 ∧ (k.proc i).trapframe = t * PGSIZE ∧ Acct L k.phys (f + ref t)) :
    wp (freeproc L i) k fun _ => Freed L k i f := by
  unfold freeproc
  rw [wp_bind, wp_get]
  simp only
  rcases h with ⟨htf, hacct⟩ | ⟨hpos, htf, hacct⟩
  · rw [if_neg (not_not.mpr htf), if_neg (not_not.mpr hpt), wp_setProc]
    exact ⟨k.phys, rfl, hacct, .refl _ _, rfl⟩
  · rw [htf, if_pos (Nat.mul_ne_zero hpos pgsize_pos.ne')]
    refine wp.bind (wp_vm (kfree_spec hacct)) ?_
    rintro - _ ⟨s, rfl, hs, hk, hoom⟩
    rw [if_neg (not_not.mpr hpt), wp_setProc]
    exact ⟨s, rfl, hs, hk, hoom⟩

theorem Space.user_eq_zero {s : Phys} {C : Tree} {top f : ℕ → ℕ} (h : Space L s C 0 top f) (q : ℕ) :
    C.user q = 0 := by
  by_contra hne
  obtain ⟨v, hv, hvalid, -⟩ := Tree.user_ne_zero.mp hne
  rw [h.unmapped v (Nat.zero_le _) hv, Nat.zero_testBit] at hvalid
  exact absurd hvalid (by decide)

/-- The process that `allocproc` makes. -/
def newProc (pid tf : ℕ) (C : Tree) : Proc :=
  ⟨.used, pid, none, 0, 0, C.root * PGSIZE, tf * PGSIZE⟩

/-- `allocproc`: no place is free, or no memory, or a process with an empty address space. -/
theorem allocproc_spec (hacct : Acct L k.phys f)
    (hempty : ∀ i, (k.proc i).state = .unused → k.proc i = Proc.empty) :
    wp (allocproc L) k fun r k' =>
      (r = none ∧ findProc k (fun p => p.state = .unused) = none ∧ k' = k) ∨
      (r = none ∧ ∃ s n, k' = { k with phys := s, nextpid := n } ∧ Acct L s f ∧ Keeps f k.phys s ∧
        s.oom = true) ∨
      ∃ i C tf s, r = some i ∧ findProc k (fun p => p.state = .unused) = some i ∧
        k' = { k with
          phys := s, nextpid := k.nextpid + 1
          proc := update k.proc i (newProc k.nextpid tf C) } ∧
        ProcOk L s (newProc k.nextpid tf C) C f ∧ Space L s C 0 (topEntries L tf) (ref tf + f) ∧
        Keeps f k.phys s ∧ s.oom = k.phys.oom := by
  unfold allocproc
  rw [wp_bind, wp_get]
  cases hfind : findProc k fun p => p.state = .unused with
  | none => exact (wp_pure _).mpr (.inl ⟨rfl, rfl, rfl⟩)
  | some i =>
  have hi : k.proc i = Proc.empty := hempty i (by simpa using List.find?_some hfind)
  have hself : update k.proc i Proc.empty = k.proc := by
    rw [← hi, update_eq_self]
  simp only
  rw [wp_bind, wp_get, wp_bind, wp_modify, wp_bind, wp_setProc]
  refine wp.bind (wp_vm (kalloc_spec hacct)) ?_
  rintro pa _ ⟨s, rfl, ⟨rfl, hs, hmem, hoom⟩ | ⟨tf, rfl, hram, hfree, hs, hmem, hoom⟩⟩
  · -- No memory for the trapframe.
    rw [wp_bind, wp_setProc, if_pos rfl]
    refine (freeproc_started (f := f) (t := 0) ?_ (.inl ⟨?_, hs⟩)).bind ?_
    · simp [hi, Proc.empty]
    · simp
    · rintro - _ ⟨s', rfl, hs', hk', hoom'⟩
      rw [wp_pure]
      refine .inr (.inl ⟨rfl, s', k.nextpid + 1, ?_, hs', fun q hq => ?_, hoom'.trans hoom⟩)
      · simp only [update_idem, hself]
      · rw [hk' q hq, hmem]
  rw [wp_bind, wp_setProc, if_neg (Nat.mul_ne_zero hram.pos pgsize_pos.ne')]
  have hkeep : Keeps f k.phys s := fun q hq => by
    rw [hmem, update_of_ne (by rintro rfl; exact hq hfree)]
  refine wp.bind (wp_vm (procPagetable_spec hs (by have := hram.lt; omega))) ?_
  rintro pt _ ⟨u, rfl, ⟨rfl, hu, hku, hoomu⟩ | ⟨C, rfl, hC, hu, hku, hoomu⟩⟩
  · -- No memory for the page table.
    rw [wp_bind, wp_setProc, if_pos rfl]
    refine (freeproc_started (f := f) (t := tf) ?_ (.inr ⟨hram.pos, ?_, hu⟩)).bind ?_
    · simp
    · simp
    · rintro - _ ⟨s', rfl, hs', hk', hoom'⟩
      rw [wp_pure]
      refine .inr (.inl ⟨rfl, s', k.nextpid + 1, ?_, hs', fun q hq => ?_, hoom'.trans hoomu⟩)
      · simp only [update_idem, hself]
      · rw [hk' q hq, hku q (by rw [Pi.add_apply]; omega), hkeep q hq]
  rw [wp_bind, wp_setProc, if_neg (Nat.mul_ne_zero hC pgsize_pos.ne'), wp_pure]
  rw [add_comm] at hu
  have htf : (newProc k.nextpid tf C).tf = tf := mul_div_pgsize tf
  have hspace : Space L u C (npages 0) (topEntries L tf) (ref tf + f) := by rwa [npages_zero]
  refine .inr (.inr ⟨i, C, tf, u, rfl, rfl, ?_,
    ⟨rfl, by rw [htf]; rfl, by rw [htf]; exact hspace, ?_⟩, hu, fun q hq => ?_, hoomu.trans hoom⟩)
  · simp only [update_idem, update_self, hi]
    rfl
  · rw [htf, Space.user_eq_zero hu tf, hfree]
  · rw [hku q (by rw [Pi.add_apply]; omega), hkeep q hq]

end Alloc

/-- The step does to the processes what `r` does in the reference system, unless memory ran out. -/
def Refines (k : Kernel) (T : Fin NPROC → Tree) (r : Ref.System → Ref.System) (k' : Kernel)
    (T' : Fin NPROC → Tree) : Prop :=
  k'.phys.oom = k.phys.oom ∧ k'.abs T' = r (k.abs T) ∨ k'.phys.oom = true

section Basics

variable {L : Layout} {k k' : Kernel} {T : Fin NPROC → Tree} {Kt : Tree} {i j : Fin NPROC}

theorem Inv.ok (h : Inv L k T Kt) (hi : (k.proc i).state ≠ .unused) :
    ProcOk L k.phys (k.proc i) (T i) (k.rest T Kt {i}) := by
  obtain hempty | ⟨-, hok⟩ := h.proc i
  · rw [hempty] at hi
    exact absurd rfl hi
  · exact hok

theorem Inv.empty_of_unused (h : Inv L k T Kt) (hi : (k.proc i).state = .unused) :
    k.proc i = Proc.empty := by
  obtain hempty | ⟨hne, -⟩ := h.proc i
  · exact hempty
  · exact absurd hi hne

theorem Inv.image_of_ok (h : Inv L k T Kt) (hi : (k.proc i).state ≠ .unused) :
    k.image T i = (T i).image k.phys.mem := if_neg (h.ok hi).pagetable_ne

theorem Inv.still (h : Inv L k T Kt) (k' : Kernel) (hb : SameBase k k') (hproc : k'.proc = k.proc)
    (hacct : Acct L k'.phys (k.rest T Kt ∅)) (hk : Keeps (k.rest T Kt ∅) k.phys k'.phys) :
    Inv L k' T Kt ∧ ∀ j, k'.image T j = k.image T j := by
  have hC : Change L k T Kt k' T ∅ := ⟨hb, fun j _ => by rw [hproc], fun _ _ => rfl,
    by rwa [show k'.owns T ∅ = 0 from rfl, zero_add], hk, fun _ _ _ => rfl⟩
  exact ⟨h.change hC (by simp), fun j => h.image_eq hC (by simp)⟩

theorem Kernel.rest_of_empty (T : Fin NPROC → Tree) (Kt : Tree) (hi : k.proc i = Proc.empty) :
    k.rest T Kt {i} = k.rest T Kt ∅ := by
  rw [k.rest_empty T Kt {i}, k.owns_singleton, hi, Proc.own_empty, zero_add]

theorem Inv.add (h : Inv L k T Kt) (k' : Kernel) (hi : k.proc i = Proc.empty) {C : Tree} {tf : ℕ}
    (hb : SameBase k k') (hproc : k'.proc = update k.proc i (newProc k.nextpid tf C))
    (hok : ProcOk L k'.phys (newProc k.nextpid tf C) C (k.rest T Kt ∅))
    (hspace : Space L k'.phys C 0 (topEntries L tf) (ref tf + k.rest T Kt ∅))
    (hk : Keeps (k.rest T Kt ∅) k.phys k'.phys) :
    Inv L k' (update T i C) Kt ∧
      ∀ j, j ≠ i → k'.image (update T i C) j = k.image T j := by
  have hself : k'.proc i = newProc k.nextpid tf C := by rw [hproc, update_self]
  have hrest := Kernel.rest_of_empty T Kt hi
  refine h.act k' hb (fun j hj => by rw [hproc, update_of_ne hj]) (by rw [hself]; simp [newProc])
    (by rw [hself, hrest]; exact hok) (by rw [hrest]; exact hk) fun q hq _ => ?_
  rw [hrest] at hq
  have h1 := hspace.pt_eq_zero (q := q) (.inr (by rw [Pi.add_apply]; omega))
  have h2 := Space.user_eq_zero hspace q
  have h3 := hok.excl
  have htf : (newProc k.nextpid tf C).tf = tf := mul_div_pgsize tf
  rw [hself, hok.own_eq, htf]
  simp only [Pi.add_apply]
  rw [h1, h2, ref_of_ne]
  rintro rfl
  rw [htf] at h3
  omega

end Basics

/-! ## `fork` -/

section Fork

variable {L : Layout} {k k' : Kernel} {T : Fin NPROC → Tree} {Kt T' C' : Tree} {i np : Fin NPROC}
  {s : Phys}

/-- The owners beside a parent and a child. -/
def Kernel.beside (k : Kernel) (T : Fin NPROC → Tree) (Kt : Tree) (i np : Fin NPROC) : ℕ → ℕ :=
  ref (k.proc np).tf + ref (k.proc i).tf + k.rest T Kt {np, i}

theorem Inv.pair (h : Inv L k T Kt) (hne : i ≠ np) (hi : (k.proc i).state ≠ .unused)
    (hnp : (k.proc np).state ≠ .unused) :
    Space L k.phys (T i) (npages (k.proc i).sz) (topEntries L (k.proc i).tf)
        ((T np).pt + (T np).user + k.beside T Kt i np) ∧
      Space L k.phys (T np) (npages (k.proc np).sz) (topEntries L (k.proc np).tf)
        ((T i).pt + (T i).user + k.beside T Kt i np) := by
  have hp := (h.ok hi).space
  have hc := (h.ok hnp).space
  rw [Kernel.rest_insert (j := np) (by simpa using hne.symm), (h.ok hnp).own_eq] at hp
  rw [Kernel.rest_insert (j := i) (by simpa using hne), (h.ok hi).own_eq, Finset.pair_comm] at hc
  constructor
  · convert hp using 1
    rw [Kernel.beside]
    abel
  · convert hc using 1
    rw [Kernel.beside]
    abel

theorem Inv.share (h : Inv L k T Kt) (k' : Kernel) (hne : i ≠ np)
    (hi : (k.proc i).state ≠ .unused) (hnp : (k.proc np).state ≠ .unused) (hb : SameBase k k')
    (hproc : ∀ j, j ≠ np → k'.proc j = k.proc j) (hstate : (k'.proc np).state ≠ .unused)
    (hptr : (k'.proc np).pagetable = (k.proc np).pagetable)
    (htr : (k'.proc np).trapframe = (k.proc np).trapframe)
    (hp : Space L k'.phys T' (npages (k.proc i).sz) (topEntries L (k.proc i).tf)
      (C'.pt + C'.user + k.beside T Kt i np))
    (hc : Space L k'.phys C' (npages (k'.proc np).sz) (topEntries L (k.proc np).tf)
      (T'.pt + T'.user + k.beside T Kt i np))
    (hsh : Shared (k.beside T Kt i np) k.phys (T i) (T np) s T' C')
    (hcu : ∀ q, (T i).user q = 0 → C'.user q = 0)
    (hk : Keeps (k.rest T Kt {np, i}) k.phys k'.phys) :
    Inv L k' (update (update T i T') np C') Kt ∧
      ∀ j, j ≠ i → j ≠ np →
        k'.image (update (update T i T') np C') j = k.image T j := by
  have hoi := h.ok hi
  have hon := h.ok hnp
  have hi' : k'.proc i = k.proc i := hproc i hne
  have htf : (k'.proc np).tf = (k.proc np).tf := by rw [Proc.tf, htr, Proc.tf]
  have htp : (update (update T i T') np C') np = C' := update_self ..
  have htp' : (update (update T i T') np C') i = T' := by
    rw [update_of_ne hne, update_self]
  have hown : (k'.proc np).own C' = C'.pt + C'.user + ref (k.proc np).tf := by
    rw [Proc.own, if_neg (by rw [hptr]; exact hon.pagetable_ne), htf]
  have howni : (k'.proc i).own T' = T'.pt + T'.user + ref (k.proc i).tf := by
    rw [hi', Proc.own, if_neg hoi.pagetable_ne]
  set T'' := update (update T i T') np C' with hT''
  have howns : k'.owns T'' {np, i} = C'.pt + C'.user + ref (k.proc np).tf +
      (T'.pt + T'.user + ref (k.proc i).tf) := by
    rw [Kernel.owns_pair hne.symm, htp, htp', hown, howni]
  have hR : ∀ q, k.rest T Kt {np, i} q ≠ 0 → k.beside T Kt i np q ≠ 0 := fun q hq => by
    rw [Kernel.beside]
    simp only [Pi.add_apply]
    omega
  have hexi := hoi.excl
  have hexn := hon.excl
  rw [Kernel.rest_insert (j := np) (by simpa using hne.symm), hon.own_eq] at hexi
  rw [Kernel.rest_insert (j := i) (by simpa using hne), hoi.own_eq, Finset.pair_comm] at hexn
  simp only [Pi.add_apply] at hexi hexn
  have hC : Change L k T Kt k' T'' {np, i} := by
    refine ⟨hb, fun j hj => hproc j ?_, fun j hj => ?_, ?_, hk, fun q hq hzero => ?_⟩
    · rintro rfl
      simp at hj
    · simp only [Finset.mem_insert, Finset.mem_singleton, not_or] at hj
      rw [hT'', update_of_ne hj.1, update_of_ne hj.2]
    · have hacct := hp.has.acct
      rw [howns]
      convert hacct using 1
      rw [Kernel.beside]
      abel
    · rw [Kernel.owns_pair hne.symm, hon.own_eq, hoi.own_eq] at hzero
      simp only [Pi.add_apply] at hzero
      have hpt := hc.pt_eq_zero (q := q) (.inr (by
        have := hR q hq
        simp only [Pi.add_apply]
        omega))
      have hu := hcu q (by omega)
      rw [howns, hsh.pt, hsh.user]
      simp only [Pi.add_apply]
      omega
  refine ⟨h.change hC fun j hj => .inr ?_, fun j hji hjn => h.image_eq hC (by simp [hji, hjn])⟩
  have hresti : k'.rest T'' Kt {i} = C'.pt + C'.user + ref (k.proc np).tf + k.rest T Kt {np, i} := by
    rw [Kernel.rest_insert (j := np) (by simpa using hne.symm), htp, hown, hC.rest_eq le_rfl]
  have hrestn : k'.rest T'' Kt {np} = T'.pt + T'.user + ref (k.proc i).tf + k.rest T Kt {np, i} := by
    rw [Kernel.rest_insert (j := i) (by simpa using hne), htp', howni, Finset.pair_comm,
      hC.rest_eq le_rfl]
  rcases Finset.mem_insert.mp hj with rfl | hj
  · rw [htp, hrestn]
    have hu := hcu (k.proc j).tf (by omega)
    refine ⟨hstate, ?_, by rw [htr, htf, hon.trapframe], ?_, ?_⟩
    · rw [hptr, hon.root, hsh.child]
    · rw [htf]
      convert hc using 1
      rw [Kernel.beside]
      abel
    · rw [htf, hsh.pt, hsh.user]
      simp only [Pi.add_apply]
      omega
  · obtain rfl := Finset.mem_singleton.mp hj
    rw [htp', hresti, hi']
    have hu := hcu (k.proc j).tf (by omega)
    have hpt := hc.pt_eq_zero (q := (k.proc j).tf) (.inr (by
      rw [Kernel.beside]
      simp only [Pi.add_apply, ref_self]
      omega))
    refine ⟨hi, ?_, hoi.trapframe, ?_, ?_⟩
    · rw [hoi.root, hsh.root]
    · convert hp using 1
      rw [Kernel.beside]
      abel
    · rw [hsh.user]
      simp only [Pi.add_apply]
      omega

theorem Kernel.abs_eq {T1 : Fin NPROC → Tree} {r : Ref.System} (hproc : ∀ j, k'.view T1 j = r.proc j)
    (hinit : k'.initproc = r.initproc) (hpid : k'.nextpid = r.nextpid) : k'.abs T1 = r :=
  Ref.System.ext (funext hproc) hinit hpid

theorem Kernel.view_eq {T1 : Fin NPROC → Tree} {j : Fin NPROC} (hproc : k'.proc j = k.proc j)
    (himg : k'.image T1 j = k.image T j) : k'.view T1 j = k.view T j := by
  rw [Kernel.view, Kernel.view, hproc, himg]

/-- `fork` keeps the invariant and refines the reference. -/
theorem fork_spec (h : Inv L k T Kt) (hi : (k.proc i).state ≠ .unused) :
    wp (fork L i) k fun _ k' => ∃ T', Inv L k' T' Kt ∧ Refines k T (·.fork i) k' T' := by
  unfold fork
  refine (allocproc_spec h.acct fun j hj => h.empty_of_unused hj).bind ?_
  rintro r k1 (⟨rfl, hfind, rfl⟩ | ⟨rfl, s, n, rfl, hacct, hk, hoom⟩ |
    ⟨np, C, tf, s, rfl, hfind, hk1, hok, hspace, hk, hoom⟩)
  · -- No place is free.
    rw [wp_pure]
    refine ⟨T, h, .inl ⟨rfl, ?_⟩⟩
    have hfind' : (k1.abs T).find (fun p => p.state = .unused) = none := hfind
    simp only [Ref.System.fork, hfind']
  · rw [wp_pure]
    obtain ⟨h1, -⟩ := h.still { k with phys := s, nextpid := n } ⟨rfl, rfl, rfl, rfl⟩ rfl hacct hk
    exact ⟨T, h1, .inr hoom⟩
  have hunused : (k.proc np).state = .unused := by simpa using List.find?_some hfind
  have hne : i ≠ np := by
    rintro rfl
    exact hi hunused
  have hempty := h.empty_of_unused hunused
  have hproc1 : ∀ j, j ≠ np → k1.proc j = k.proc j := fun j hj => by
    rw [hk1]
    exact update_of_ne hj _ _
  have hnp1 : k1.proc np = newProc k.nextpid tf C := by
    rw [hk1]
    exact update_self ..
  have hphys1 : k1.phys = s := by rw [hk1]
  have hb1 : SameBase k k1 := by
    rw [hk1]
    exact ⟨rfl, rfl, rfl, rfl⟩
  rw [← hphys1] at hok hspace hk hoom
  obtain ⟨h1, himg1⟩ := h.add k1 hempty hb1 (by rw [hk1]) hok hspace hk
  set T1 := update T np C with hT1
  have hi1 : (k1.proc i).state ≠ .unused := by rwa [hproc1 i hne]
  have hn1 : (k1.proc np).state ≠ .unused := by simp [hnp1, newProc]
  obtain ⟨hp, hc⟩ := h1.pair hne hi1 hn1
  have hoi := h1.ok hi1
  have hon := h1.ok hn1
  rw [wp_bind, wp_get, wp_bind, wp_get]
  simp only
  rw [hoi.root, hon.root]
  have hsz : npages (k1.proc np).sz = 0 := by
    rw [hnp1, show (newProc k.nextpid tf C).sz = 0 from rfl, npages_zero]
  have hc0 : Space L k1.phys (T1 np) 0 (topEntries L (k1.proc np).tf)
      ((T1 i).pt + (T1 i).user + k1.beside T1 Kt i np) := by rwa [hsz] at hc
  have hR : ∀ q, k1.rest T1 Kt {np, i} q ≠ 0 → k1.beside T1 Kt i np q ≠ 0 := fun q hq => by
    rw [Kernel.beside]
    simp only [Pi.add_apply]
    omega
  refine wp.bind (wp_vm (uvmcopy_spec hp hc0)) ?_
  rintro r k2 ⟨s2, rfl, T', C', hsh, hp2, ⟨rfl, hoom2, hc2, huser, himg⟩ | ⟨rfl, hoom2, hc2⟩⟩
  swap
  · -- No memory: the child is freed.
    rw [if_pos (by decide)]
    obtain ⟨h2, -⟩ := h1.share { k1 with phys := s2 } hne hi1 hn1 ⟨rfl, rfl, rfl, rfl⟩
      (fun _ _ => rfl) hn1 rfl rfl hp2 (by rw [hsz]; exact hc2) hsh
      (fun q _ => Space.user_eq_zero hc2 q) fun q hq => hsh.keeps q (hR q hq)
    refine wp.bind (freeproc_spec (h2.ok hn1)) ?_
    rintro - _ ⟨s3, rfl, hacct3, hk3, hoom3⟩
    rw [wp_pure]
    obtain ⟨h3, -⟩ := h2.clear
      { k1 with phys := s3, proc := update k1.proc np Proc.empty } ⟨rfl, rfl, rfl, rfl⟩ rfl
      hacct3 hk3
    exact ⟨_, h3, .inr (hoom3.trans hoom2)⟩
  · rw [if_neg (by decide), hon.trapframe, hoi.trapframe]
    -- The trapframe of the child, which nobody else has.
    have hexn := hon.excl
    rw [Kernel.rest_insert (j := i) (by simpa using hne), hoi.own_eq, Finset.pair_comm] at hexn
    simp only [Pi.add_apply] at hexn
    set tc := (k1.proc np).tf with htc
    have hheld : k1.beside T1 Kt i np tc ≠ 0 := by
      rw [Kernel.beside]
      simp only [Pi.add_apply, ← htc, ref_self]
      omega
    refine wp.bind (wp_vm (P := fun _ t => ∃ b, t = s2.write tc b)
      (wp_copyPage.mpr ⟨_, rfl⟩)) ?_
    rintro - _ ⟨_, rfl, b, rfl⟩
    refine wp.bind (wp_vm (P := fun _ t => ∃ b', t = (s2.write tc b).write tc b')
      ((wp_store64 (show 14 < 512 by decide)).mpr ⟨_, rfl⟩)) ?_
    rintro - _ ⟨_, rfl, b', rfl⟩
    rw [wp_bind, wp_setProc, wp_pure]
    simp only
    set p' : Proc := { k1.proc np with
      state := .runnable, parent := some i, sz := (k1.proc i).sz } with hp'
    set s4 := (s2.write tc b).write tc b' with hs4
    have hmem : ∀ q, q ≠ tc → s4.mem q = s2.mem q := fun q hq => by
      rw [hs4, Phys.write_of_ne hq, Phys.write_of_ne hq]
    set k4 : Kernel := { k1 with phys := s4, proc := update k1.proc np p' } with hk4
    have hself : k4.proc np = p' := update_self ..
    have hproc4 : ∀ j, j ≠ np → k4.proc j = k1.proc j := fun j hj => update_of_ne hj _ _
    have hrestc : ∀ q, k1.beside T1 Kt i np q ≠ 0 → (C'.pt + C'.user + k1.beside T1 Kt i np) q ≠ 0 ∧
        (T'.pt + T'.user + k1.beside T1 Kt i np) q ≠ 0 := fun q hq => by
      simp only [Pi.add_apply]
      omega
    have hp4 := (hp2.writeHeld (hrestc tc hheld).1 b).writeHeld (hrestc tc hheld).1 b'
    have hc4 := (hc2.writeHeld (hrestc tc hheld).2 b).writeHeld (hrestc tc hheld).2 b'
    obtain ⟨h4, himg4⟩ := h1.share k4 hne hi1 hn1 ⟨rfl, rfl, rfl, rfl⟩ hproc4
      (by rw [hself]; simp [hp']) (by rw [hself]) (by rw [hself]) hp4 (by rw [hself]; exact hc4)
      hsh (fun q hq => by rw [huser, hq]) fun q hq => by
        rw [hmem q (by rintro rfl; omega), hsh.keeps q (hR q hq)]
    have hrun : k4.abs (update (update T1 i T') np C') = (k.abs T).fork i := by
      have hfind' : (k.abs T).find (fun p => p.state = .unused) = some np := hfind
      simp only [Ref.System.fork, hfind']
      -- The trapframe is not among the user pages, so both see what the parent saw.
      have hsee : ∀ C : Tree, C.user = (T1 i).user → C.image s4.mem = C.image s2.mem := fun C hC =>
        Tree.image_congr rfl fun q hq => hmem q (by
          rintro rfl
          rw [hC] at hq
          omega)
      have hparent : (T1 i).image k1.phys.mem = k.image T i := by
        rw [← himg1 i hne, h1.image_of_ok hi1]
      refine Kernel.abs_eq (fun j => ?_) (by rw [hk4, hk1]; rfl) (by rw [hk4, hk1]; rfl)
      by_cases hjn : j = np
      · subst hjn
        have hstate : (k4.proc j).state ≠ .unused := by rw [hself]; simp [hp']
        rw [Kernel.view, hself, h4.image_of_ok hstate, update_self]
        simp only [Ref.System.setProc, update_self]
        rw [hsee C' huser, himg, hparent, hp', hnp1, hproc1 i hne]
        rfl
      · have hold : (k4.proc j) = k.proc j := by rw [hproc4 j hjn, hproc1 j hjn]
        simp only [Ref.System.setProc, update_of_ne hjn]
        refine Kernel.view_eq hold ?_
        by_cases hji : j = i
        · subst hji
          rw [h4.image_of_ok (by rwa [hold]), update_of_ne hne, update_self,
            hsee T' hsh.user, hsh.image, hparent]
        · rw [himg4 j hji hjn, himg1 j hjn]
    exact ⟨_, h4, .inl ⟨hoom2.trans hoom, hrun⟩⟩

end Fork

/-! ## Calls that change one address space -/

/-- The kernel with another address space for process `i`. -/
def Kernel.setSpace (k : Kernel) (i : Fin NPROC) (s : Phys) (C : Tree) (sz : ℕ) : Kernel :=
  { k with
    phys := s
    proc := update k.proc i { k.proc i with pagetable := C.root * PGSIZE, sz := sz } }

section Space

variable {L : Layout} {k : Kernel} {T : Fin NPROC → Tree} {Kt C : Tree} {i : Fin NPROC} {s : Phys}
  {sz : ℕ}

theorem Local.replaces {f : ℕ → ℕ} {s s' : Phys} {T T' : Tree} (h : Local f s T s' T') (tf : ℕ) :
    Replaces tf f s T s' T' := ⟨fun q hq _ => h.keeps q hq, h.user⟩

/-- The owners beside process `i`. -/
def Kernel.around (k : Kernel) (T : Fin NPROC → Tree) (Kt : Tree) (i : Fin NPROC) : ℕ → ℕ :=
  ref (k.proc i).tf + k.rest T Kt {i}

theorem Inv.setSpace (h : Inv L k T Kt) (hi : (k.proc i).state ≠ .unused)
    (hs : Space L s C (npages sz) (topEntries L (k.proc i).tf) (k.around T Kt i))
    (hr : Replaces (k.proc i).tf (k.around T Kt i) k.phys (T i) s C) :
    Inv L (k.setSpace i s C sz) (update T i C) Kt ∧
      (∀ j, j ≠ i → (k.setSpace i s C sz).image (update T i C) j = k.image T j) ∧
      (k.setSpace i s C sz).abs (update T i C) =
        (k.abs T).setProc i { (k.abs T).proc i with sz := sz, image := C.image s.mem } := by
  set k' := k.setSpace i s C sz with hk'
  have hself : k'.proc i = { k.proc i with pagetable := C.root * PGSIZE, sz := sz } :=
    update_self ..
  have hproc : ∀ j, j ≠ i → k'.proc j = k.proc j := fun j hj => update_of_ne hj _ _
  have hstate : (k'.proc i).state ≠ .unused := by rwa [hself]
  obtain ⟨hinv, himg⟩ := h.actSpace k' hi ⟨rfl, rfl, rfl, rfl⟩ hproc hstate (by rw [hself])
    (by rw [hself]) (by rw [hself]; exact hs) hr
  refine ⟨hinv, himg, Kernel.abs_eq (fun j => ?_) rfl rfl⟩
  simp only [Ref.System.setProc]
  by_cases hj : j = i
  · subst hj
    rw [update_self, Kernel.view, hinv.image_of_ok hstate, update_self, hself]
    rfl
  · rw [update_of_ne hj]
    exact Kernel.view_eq (hproc j hj) (himg j hj)

theorem Kernel.setSpace_self (hroot : (k.proc i).pagetable = C.root * PGSIZE) :
    k.setSpace i s C (k.proc i).sz = { k with phys := s } := by
  rw [Kernel.setSpace, ← hroot, show ({ k.proc i with
    pagetable := (k.proc i).pagetable, sz := (k.proc i).sz } : Proc) = k.proc i from rfl,
    update_eq_self]

/-- So does `growproc`. -/
theorem growproc_spec (h : Inv L k T Kt) (hi : (k.proc i).state ≠ .unused) (n : ℤ) :
    wp (growproc L i n) k fun _ k' => ∃ T', Inv L k' T' Kt ∧ Refines k T (·.growproc i n) k' T' := by
  have hok := h.ok hi
  unfold growproc
  rw [wp_bind, wp_get]
  simp only
  set newsz := (((k.proc i).sz + n) % 2 ^ 64).toNat with hnewsz
  by_cases hpos : n > 0
  · rw [if_pos hpos, hok.root]
    refine wp.bind (wp_vm (uvmalloc_spec hok.space (by decide))) ?_
    rintro r _ ⟨s, rfl, C, hl, ⟨hr, hoom, hs, himg⟩ | ⟨rfl, hoom, hs, himg⟩⟩
    swap
    · rw [if_pos rfl, wp_pure]
      obtain ⟨hinv, -, -⟩ := h.setSpace hi hs (Local.replaces hl _)
      rw [Kernel.setSpace_self (by rw [hok.root, hl.root])] at hinv
      exact ⟨_, hinv, .inr hoom⟩
    obtain ⟨hinv, -, habs⟩ := h.setSpace hi hs (Local.replaces hl _)
    have hrun : (k.setSpace i s C r).abs (update T i C) = (k.abs T).growproc i n := by
      rw [habs, himg, Ref.System.growproc]
      simp only
      rw [if_pos hpos, hr, ← h.image_of_ok hi]
      rfl
    by_cases hzero : r = 0
    · have hsz : r = (k.proc i).sz := by omega
      rw [if_pos hzero, wp_pure]
      rw [hsz, Kernel.setSpace_self (by rw [hok.root, hl.root])] at hinv hrun
      exact ⟨_, hinv, .inl ⟨hoom, hrun⟩⟩
    · rw [if_neg hzero, wp_bind, wp_setProc, wp_pure]
      have heq : k.setSpace i s C r = { k with
          phys := s, proc := update k.proc i { k.proc i with sz := r } } := by
        rw [Kernel.setSpace, hl.root, ← hok.root]
      rw [heq] at hinv hrun
      exact ⟨_, hinv, .inl ⟨hoom, hrun⟩⟩
  rw [if_neg hpos]
  by_cases hneg : n < 0
  · rw [if_pos hneg, hok.root]
    refine wp.bind (wp_vm (uvmdealloc_spec hok.space)) ?_
    rintro r _ ⟨s, rfl, C, hr, hs, hl, himg, hoom, -⟩
    rw [wp_bind, wp_setProc, wp_pure]
    obtain ⟨hinv, -, habs⟩ := h.setSpace hi hs (Local.replaces hl _)
    have hrun : (k.setSpace i s C r).abs (update T i C) = (k.abs T).growproc i n := by
      rw [habs, himg, Ref.System.growproc]
      simp only
      rw [if_neg hpos, if_pos hneg, hr, ← h.image_of_ok hi]
      rfl
    have heq : k.setSpace i s C r = { k with
        phys := s, proc := update k.proc i { k.proc i with sz := r } } := by
      rw [Kernel.setSpace, hl.root, ← hok.root]
    rw [heq] at hinv hrun
    exact ⟨_, hinv, .inl ⟨hoom, hrun⟩⟩
  · rw [if_neg hneg, wp_pure]
    refine ⟨T, h, .inl ⟨rfl, ?_⟩⟩
    change _ = (k.abs T).growproc i n
    rw [Ref.System.growproc]
    simp only
    rw [if_neg hpos, if_neg hneg]

/-- So does `exec`. -/
theorem execve_spec (h : Inv L k T Kt) (hi : (k.proc i).state ≠ .unused) (file : Option File)
    (uargv : ℕ) :
    wp (execve L i file uargv) k fun _ k' => ∃ T', Inv L k' T' Kt ∧
      Refines k T (·.execve i file uargv) k' T' := by
  have hok := h.ok hi
  unfold execve
  rw [wp_bind, wp_get]
  simp only
  rw [hok.root, hok.trapframe]
  refine wp.bind (wp_vm (sysExec_spec hok.space (by rw [Pi.add_apply, ref_self]; omega)
    (by have := hok.inRam.lt; omega))) ?_
  rintro ⟨r, pagetable, sz⟩ _ ⟨s, rfl, C, hr, hs, hrep, hcase⟩
  simp only at hr hs hcase
  subst hr
  rw [wp_bind, wp_setProc, wp_pure]
  obtain ⟨hinv, -, habs⟩ := h.setSpace hi hs hrep
  refine ⟨_, hinv, ?_⟩
  rcases hcase with ⟨hoom, heq⟩ | hoom
  · refine .inl ⟨hoom, habs.trans ?_⟩
    have himg : (k.abs T).proc i = k.view T i := rfl
    change _ = (k.abs T).execve i file uargv
    rw [Ref.System.execve]
    simp only
    rw [himg, Kernel.view, h.image_of_ok hi]
    simp only
    rw [← heq]
  · exact .inr hoom

/-- `copyout` to a process: the others see nothing of it. -/
theorem copyoutProc_spec (h : Inv L k T Kt) (hi : (k.proc i).state ≠ .unused) (dstva : ℕ)
    (src : ℕ → UInt8) (len : ℕ) :
    wp (vm (copyout L (k.proc i).pagetable dstva src len)) k fun r k' => ∃ s C,
      k' = { k with phys := s } ∧ Inv L k' (update T i C) Kt ∧
        (∀ j, j ≠ i → k'.image (update T i C) j = k.image T j) ∧
        (s.oom = k.phys.oom ∧ r = ((k.image T i).copyout len dstva src len).1 ∧
          k'.abs (update T i C) =
            (k.abs T).setImage i ((k.image T i).copyout len dstva src len).2 ∨
          r = -1 ∧ s.oom = true) := by
  have hok := h.ok hi
  rw [hok.root]
  refine (wp_vm (copyout_spec hok.space topOk_topEntries dstva src len)).mono ?_
  rintro r _ ⟨s, rfl, C, hs, hl, hcase⟩
  obtain ⟨hinv, himg, habs⟩ := h.setSpace hi hs (Local.replaces hl _)
  rw [Kernel.setSpace_self (by rw [hok.root, hl.root])] at hinv himg habs
  refine ⟨s, C, rfl, hinv, himg, ?_⟩
  rw [h.image_of_ok hi]
  rcases hcase with ⟨hoom, heq⟩ | hfail
  · refine .inl ⟨hoom, congrArg Prod.fst heq, ?_⟩
    rw [habs, ← congrArg Prod.snd heq]
    rfl
  · exact .inr hfail

end Space

/-! ## `exit`, `wait` and stores -/

section Exit

variable {L : Layout} {k : Kernel} {T : Fin NPROC → Tree} {Kt : Tree} {i : Fin NPROC}

/-- `exit` keeps the invariant, and frees nothing yet. -/
theorem exit_spec (h : Inv L k T Kt) (hi : (k.proc i).state ≠ .unused) (hinit : k.initproc ≠ some i)
    (status : ℕ) :
    wp (exit i status) k fun _ k' => Inv L k' T Kt ∧ k'.phys = k.phys ∧
      (∀ j, k'.image T j = k.image T j) ∧ k'.abs T = (k.abs T).exit i status := by
  unfold exit
  rw [wp_bind, wp_get, if_neg hinit, wp_bind, wp_modify, wp_setProc]
  set k1 : Kernel := { k with
    proc := fun j => if (k.proc j).parent = some i then { k.proc j with parent := k.initproc }
      else k.proc j } with hk1
  set k2 : Kernel := { k1 with
    proc := update k1.proc i { k1.proc i with xstate := status, state := .zombie } } with hk2
  have h1 : ∀ j, k1.proc j = k.proc j ∨ (k.proc j).state ≠ .unused ∧
      k1.proc j = { k.proc j with parent := k.initproc } := by
    intro j
    by_cases hpar : (k.proc j).parent = some i
    · refine .inr ⟨fun hun => ?_, if_pos hpar⟩
      rw [h.empty_of_unused hun] at hpar
      simp [Proc.empty] at hpar
    · exact .inl (if_neg hpar)
  have hself : k2.proc i = { k1.proc i with xstate := status, state := .zombie } :=
    update_self ..
  have hother : ∀ j, j ≠ i → k2.proc j = k1.proc j := fun j hj => update_of_ne hj _ _
  obtain ⟨hinv, himg⟩ := h.relabel k2 ⟨rfl, rfl, rfl, rfl⟩ rfl fun j => by
    by_cases hj : j = i
    · subst hj
      right
      rw [hself]
      rcases h1 j with heq | ⟨-, heq⟩ <;> rw [heq] <;> exact ⟨hi, by simp, rfl, rfl, rfl⟩
    · rw [hother j hj]
      rcases h1 j with heq | ⟨hst, heq⟩
      · exact .inl heq
      · rw [heq]
        exact .inr ⟨hst, hst, rfl, rfl, rfl⟩
  refine ⟨hinv, rfl, himg, Kernel.abs_eq (fun j => ?_) rfl rfl⟩
  have hview : ∀ j, k1.view T j = if (k.proc j).parent = some i then
      { k.view T j with parent := k.initproc } else k.view T j := by
    intro j
    rw [Kernel.view, hk1]
    simp only
    split_ifs with hpar
    · simp only [Kernel.image, Kernel.view, if_pos hpar]
    · simp only [Kernel.image, Kernel.view, if_neg hpar]
  have hsame : k2.image T j = k1.image T j := by
    rw [Kernel.image, Kernel.image]
    by_cases hj : j = i
    · subst hj
      rw [hself]
    · rw [hother j hj]
  simp only [Ref.System.exit, Ref.System.setProc]
  by_cases hj : j = i
  · subst hj
    rw [update_self, Kernel.view, hself, hsame]
    change { k1.view T j with xstate := status, state := .zombie } = _
    rw [hview j]
    rfl
  · rw [update_of_ne hj, Kernel.view_eq (hother j hj) hsame, hview j]
    rfl

theorem exit_init {E : Panic → Prop} {Q : Unit → Kernel → Prop} {status : ℕ}
    (hinit : k.initproc = some i) (hE : E .initExiting) : wpOr E (exit i status) k Q := by
  unfold exit
  refine wp.bindOr ((wp_get (Q := fun a k' => a = k ∧ k' = k)).mpr ⟨rfl, rfl⟩) ?_
  rintro _ _ ⟨rfl, rfl⟩
  rw [if_pos hinit]
  exact wpOr_throw.mpr hE

theorem freeproc_inv {j : Fin NPROC} (h : Inv L k T Kt) (hj : (k.proc j).state ≠ .unused) :
    wp (freeproc L j) k fun _ k' => Inv L k' T Kt ∧ k'.phys.oom = k.phys.oom ∧
      k'.abs T = (k.abs T).setProc j .empty := by
  refine (freeproc_spec (h.ok hj)).mono ?_
  rintro - _ ⟨s, rfl, hacct, hk, hoom⟩
  set k' : Kernel := { k with phys := s, proc := update k.proc j Proc.empty } with hk'
  have hself : k'.proc j = Proc.empty := update_self ..
  obtain ⟨hinv, himg⟩ := h.clear k' ⟨rfl, rfl, rfl, rfl⟩ rfl hacct hk
  refine ⟨hinv, hoom, Kernel.abs_eq (fun l => ?_) rfl rfl⟩
  simp only [Ref.System.setProc]
  by_cases hl : l = j
  · subst hl
    rw [update_self, Kernel.view, Kernel.image, hself]
    rfl
  · rw [update_of_ne hl]
    exact Kernel.view_eq (update_of_ne hl _ _) (himg l hl)

/-- `wait` copies the status out and frees a child that has exited. -/
theorem wait_spec (h : Inv L k T Kt) (hi : (k.proc i).state = .runnable) (addr : ℕ) :
    wp (wait L i addr) k fun _ k' => ∃ T', Inv L k' T' Kt ∧ Refines k T (·.wait i addr) k' T' := by
  unfold wait
  rw [wp_bind, wp_get]
  have hfind' : (k.abs T).find (fun p => p.parent = some i ∧ p.state = .zombie) =
    findProc k fun p => p.parent = some i ∧ p.state = .zombie := rfl
  cases hfind : findProc k fun p => p.parent = some i ∧ p.state = .zombie with
  | none =>
    refine (wp_pure _).mpr ⟨T, h, .inl ⟨rfl, ?_⟩⟩
    rw [hfind] at hfind'
    simp only [Ref.System.wait, hfind']
  | some j =>
    rw [hfind] at hfind'
    have hzombie : (k.proc j).state = .zombie := by
      have := List.find?_some hfind
      simp only [decide_eq_true_eq] at this
      exact this.2
    have hij : j ≠ i := by
      rintro rfl
      rw [hi] at hzombie
      cases hzombie
    simp only
    rw [wp_bind, wp_get, wp_bind, wp_get]
    have hfree : ∀ k1 T1, Inv L k1 T1 Kt → k1.proc = k.proc → k1.phys.oom = k.phys.oom →
        (k1.abs T1).setProc j .empty = (k.abs T).wait i addr →
        wp (do
          freeproc L j
          return ((k.proc j).pid : ℤ)) k1 fun _ k' => ∃ T', Inv L k' T' Kt ∧
            Refines k T (·.wait i addr) k' T' := by
      intro k1 T1 h1 hproc hoom habs
      have hj : (k1.proc j).state ≠ .unused := by simp [hproc, hzombie]
      refine (freeproc_inv h1 hj).bind ?_
      rintro - k2 ⟨h2, hoom2, habs2⟩
      rw [wp_pure]
      exact ⟨T1, h2, .inl ⟨hoom2.trans hoom, habs2.trans habs⟩⟩
    by_cases haddr : addr ≠ 0
    · rw [if_pos haddr]
      refine (copyoutProc_spec h (by simp [hi]) _ _ _).bind ?_
      rintro r _ ⟨s, C, rfl, h1, -, ⟨hoom, hr, habs⟩ | ⟨rfl, hoom⟩⟩
      swap
      · rw [if_pos (by decide), wp_pure]
        exact ⟨_, h1, .inr hoom⟩
      have hwait : (k.abs T).wait i addr = if r < 0 then
          (k.abs T).setImage i ((k.image T i).copyout 4 addr (Bytes.leByte (k.proc j).xstate) 4).2
          else ((k.abs T).setImage i ((k.image T i).copyout 4 addr
            (Bytes.leByte (k.proc j).xstate) 4).2).setProc j .empty := by
        simp only [Ref.System.wait, hfind', if_pos haddr]
        rw [hr]
        rfl
      by_cases hneg : r < 0
      · rw [if_pos hneg, wp_pure]
        rw [if_pos hneg] at hwait
        exact ⟨_, h1, .inl ⟨hoom, habs.trans hwait.symm⟩⟩
      · rw [if_neg hneg]
        rw [if_neg hneg] at hwait
        exact hfree _ _ h1 rfl hoom (by rw [habs, hwait])
    · rw [if_neg haddr, wp_bind, wp_pure, if_neg (by decide)]
      refine hfree k T h rfl rfl ?_
      have hsame : (k.abs T).setImage i ((k.abs T).proc i).image = k.abs T := by
        rw [Ref.System.setImage, Ref.System.setProc]
        exact Ref.System.ext (update_eq_self i _) rfl rfl
      simp only [Ref.System.wait, hfind', if_neg haddr, hsame]
      rfl

/-- A store: what the process may store it stores, and otherwise it is killed. The others see nothing
of it. -/
theorem store_spec (h : Inv L k T Kt) (hi : (k.proc i).state ≠ .unused) (va : ℕ) (b : UInt8) :
    wpOr (fun e => e = .null ∧ (k.phys.freelist = 0 ∨ (k.image T i).store va b = none) ∨
        e = .initExiting ∧ k.initproc = some i ∧ (k.image T i).store va b = none)
      (store L i va b) k fun _ k' => ∃ T', Inv L k' T' Kt ∧
        (∀ j, j ≠ i → k'.image T' j = k.image T j) ∧ k'.phys.oom = k.phys.oom ∧
        k'.abs T' = (k.abs T).store i va b := by
  have hok := h.ok hi
  unfold store
  refine wp.bindOr ((wp_get (Q := fun a k' => a = k ∧ k' = k)).mpr ⟨rfl, rfl⟩) ?_
  rintro _ _ ⟨rfl, rfl⟩
  rename_i k
  simp only
  rw [hok.root, h.image_of_ok hi]
  refine wpOr.bind (wpOr_vm ((userStore_spec hok.space topOk_topEntries).weaken
    fun e he => .inl he)) ?_
  rintro r _ ⟨s, rfl, hoom, C, hs, hl, hr, himgC⟩
  obtain ⟨h1, himg, habs⟩ := h.setSpace hi hs (Local.replaces hl _)
  rw [Kernel.setSpace_self (by rw [hok.root, hl.root])] at h1 himg habs
  have hload : ((k.abs T).proc i).image.store va b = ((T i).image k.phys.mem).store va b := by
    rw [← h.image_of_ok hi]
    rfl
  rw [himgC] at habs
  cases hcase : ((T i).image k.phys.mem).store va b with
  | some img =>
    rw [hcase] at hr habs hload
    subst hr
    refine wp.or ?_
    rw [if_pos (by rfl), wp_pure]
    refine ⟨_, h1, himg, hoom, ?_⟩
    rw [habs, Ref.System.store, hload]
    rfl
  | none =>
    rw [hcase] at hr habs hload
    subst hr
    rw [if_neg (by simp)]
    have hsame : (k.abs T).setProc i
        { (k.abs T).proc i with sz := (k.proc i).sz, image := (T i).image k.phys.mem } = k.abs T := by
      refine Ref.System.ext ?_ rfl rfl
      rw [Ref.System.setProc, ← h.image_of_ok hi]
      exact update_eq_self i _
    rw [Option.getD_none, hsame] at habs
    by_cases hinit : k.initproc = some i
    · exact exit_init hinit (.inr ⟨rfl, hinit, rfl⟩)
    · refine wp.or ((exit_spec h1 hi hinit (2 ^ 32 - 1)).mono ?_)
      rintro - k2 ⟨h2, hphys, himg2, habs2⟩
      refine ⟨_, h2, fun j hj => (himg2 j).trans (himg j hj), by rw [hphys]; exact hoom, ?_⟩
      rw [habs2, habs, Ref.System.store, hload]

end Exit

end Xv6.Process
