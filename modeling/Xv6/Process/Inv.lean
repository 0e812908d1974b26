import Xv6.Process.ExecSpec
import Xv6.Process.Reference

/-!
# Who owns which page

Each process owns the pages of its page table, the user pages mapped there and its trapframe; the
kernel owns the pages of its page table and the stacks mapped there, and the pages of the virtio
queue, of pipes and of other code. `Inv` says that the counts of the allocator are those of all these
owners, that each process's page table is an address space beside everything else, and that trapframes
are not shared. A step changes what some processes own and leaves the rest alone; `Inv.change` and
`Inv.changeBase` are the rules for such steps.
-/

namespace Xv6.Process

open Function
open Lib (Bytes wp)
open Xv6.Vm

/-- The page of the trapframe. -/
def Proc.tf (p : Proc) : ℕ := p.trapframe / PGSIZE

/-- The owners of pages that a process with page table `T` makes. -/
def Proc.own (p : Proc) (T : Tree) : ℕ → ℕ :=
  if p.pagetable = 0 then 0 else T.pt + T.user + ref p.tf

/-- The process has the page table `T`, and `f` counts the other owners of pages. -/
structure ProcOk (L : Layout) (s : Phys) (p : Proc) (T : Tree) (f : ℕ → ℕ) : Prop where
  root : p.pagetable = T.root * PGSIZE
  trapframe : p.trapframe = p.tf * PGSIZE
  space : Space L s T (npages p.sz) (topEntries L p.tf) (ref p.tf + f)
  excl : T.user p.tf + f p.tf = 0

/-- The owners of pages that the kernel's stacks make. -/
def stackRefs (T : Tree) : ℕ → ℕ := ∑ i ∈ Finset.range NPROC, own (T.leaf (kstack i / PGSIZE))

/-- The kernel's page table is `T`, and `f` counts the other owners of pages. -/
structure KernOk (L : Layout) (s : Phys) (pagetable : ℕ) (T : Tree) (f : ℕ → ℕ) : Prop where
  root : pagetable = T.root * PGSIZE
  has : Has L s T (stackRefs T + f)

/-- The addresses of pages that the kernel holds apart from its page table. -/
def Kernel.pages (k : Kernel) : List ℕ := k.disk ++ k.pipes.map Pipe.page ++ k.held

/-- The owners of pages that these make. -/
def Kernel.misc (k : Kernel) : ℕ → ℕ := refs (k.pages.map (· / PGSIZE))

/-- The owners of pages that the kernel's page table makes. -/
def Kernel.table (k : Kernel) (Kt : Tree) : ℕ → ℕ :=
  if k.kernelPagetable = 0 then 0 else Kt.pt + stackRefs Kt

/-- The owners of pages outside the processes. -/
def Kernel.base (k : Kernel) (Kt : Tree) : ℕ → ℕ := k.table Kt + k.misc

/-- The owners of pages that the processes in `S` make. -/
def Kernel.owns (k : Kernel) (T : Fin NPROC → Tree) (S : Finset (Fin NPROC)) : ℕ → ℕ :=
  ∑ i ∈ S, (k.proc i).own (T i)

/-- All owners of pages but the processes in `S`. -/
def Kernel.rest (k : Kernel) (T : Fin NPROC → Tree) (Kt : Tree) (S : Finset (Fin NPROC)) : ℕ → ℕ :=
  k.owns T Sᶜ + k.base Kt

/-- The pages have the owners they should have. -/
structure Inv (L : Layout) (k : Kernel) (T : Fin NPROC → Tree) (Kt : Tree) : Prop where
  acct : Acct L k.phys (k.rest T Kt ∅)
  proc : ∀ i, k.proc i = Proc.empty ∨
    (k.proc i).state ≠ .unused ∧ ProcOk L k.phys (k.proc i) (T i) (k.rest T Kt {i})
  kern : k.kernelPagetable = 0 ∨
    KernOk L k.phys k.kernelPagetable Kt (k.owns T Finset.univ + k.misc)
  aligned : ∀ a ∈ k.pages, a = a / PGSIZE * PGSIZE

/-! ## Frames -/

section Frame

variable {L : Layout} {s s' : Phys} {p : Proc} {T : Tree} {f g : ℕ → ℕ} {a : ℕ}

theorem ProcOk.pagetable_ne (h : ProcOk L s p T f) : p.pagetable ≠ 0 := by
  rw [h.root]
  exact Nat.mul_ne_zero (h.space.has.inRam (x := .root) rfl).pos pgsize_pos.ne'

theorem ProcOk.own_eq (h : ProcOk L s p T f) : p.own T = T.pt + T.user + ref p.tf :=
  if_neg h.pagetable_ne

theorem ProcOk.acct (h : ProcOk L s p T f) : Acct L s (p.own T + f) := by
  have := h.space.has.acct
  rwa [h.own_eq, add_assoc, add_assoc]

theorem ProcOk.inRam (h : ProcOk L s p T f) : InRam L p.tf :=
  h.acct.inRam _ (by rw [h.own_eq]; simp)

@[simp] theorem Proc.own_empty (T : Tree) : Proc.empty.own T = 0 := if_pos rfl

theorem ProcOk.frame (h : ProcOk L s p T f) (hacct : Acct L s' (p.own T + g))
    (hk : Keeps (p.own T) s s') (hg : ∀ q, p.own T q ≠ 0 → f q = 0 → g q = 0) :
    ProcOk L s' p T g := by
  have hown := h.own_eq
  have happly : ∀ q, p.own T q = T.pt q + T.user q + ref p.tf q := fun q => by rw [hown]; rfl
  refine ⟨h.root, h.trapframe, h.space.frame ?_ (fun q hq => hk q ?_) (fun q hq => ?_)
    fun v hv hw => ?_, ?_⟩
  · rwa [hown, add_assoc, add_assoc] at hacct
  · rw [happly]
    omega
  · have := h.space.has.excl q hq
    simp only [Pi.add_apply] at this ⊢
    rw [hg q (by rw [happly]; omega) (by omega)]
    omega
  · have := h.space.priv v hv hw
    have := h.space.user_ne_zero hv
    simp only [Pi.add_apply] at *
    rw [hg _ (by rw [happly]; omega) (by omega)]
    omega
  · have := h.excl
    rw [hg p.tf (by rw [happly, ref_self]; omega) (by omega)]
    omega

theorem ProcOk.image_eq (h : ProcOk L s p T f) (hk : Keeps (p.own T) s s') :
    T.image s'.mem = T.image s.mem :=
  Tree.image_congr rfl fun q hq => hk q (by
    rw [h.own_eq]
    simp only [Pi.add_apply]
    omega)

theorem ProcOk.congr {p' : Proc} (h : ProcOk L s p T f) (h1 : p'.pagetable = p.pagetable)
    (h2 : p'.trapframe = p.trapframe) (h3 : p'.sz = p.sz) : ProcOk L s p' T f := by
  have htf : p'.tf = p.tf := by rw [Proc.tf, h2, Proc.tf]
  refine ⟨h1.trans h.root, ?_, ?_, ?_⟩
  · rw [h2, htf, h.trapframe]
  · rw [h3, htf]
    exact h.space
  · rw [htf]
    exact h.excl

theorem KernOk.pagetable_ne (h : KernOk L s a T f) : a ≠ 0 := by
  rw [h.root]
  exact Nat.mul_ne_zero (h.has.inRam (x := .root) rfl).pos pgsize_pos.ne'

theorem KernOk.frame (h : KernOk L s a T f) (hacct : Acct L s' (T.pt + stackRefs T + g))
    (hk : Keeps T.pt s s') (hg : ∀ q, T.pt q ≠ 0 → f q = 0 → g q = 0) : KernOk L s' a T g := by
  refine ⟨h.root, h.has.frame (by rwa [← add_assoc]) hk fun q hq => ?_⟩
  have := h.has.excl q hq
  simp only [Pi.add_apply] at this ⊢
  rw [hg q hq (by omega)]
  omega

end Frame

/-! ## Sums over processes -/

section Sums

variable {k k' : Kernel} {T T' : Fin NPROC → Tree} {Kt : Tree} {S : Finset (Fin NPROC)}
  {i j : Fin NPROC}

theorem Kernel.owns_singleton (k : Kernel) (T : Fin NPROC → Tree) (i : Fin NPROC) :
    k.owns T {i} = (k.proc i).own (T i) := Finset.sum_singleton _ _

theorem Kernel.owns_pair (h : i ≠ j) :
    k.owns T {i, j} = (k.proc i).own (T i) + (k.proc j).own (T j) := Finset.sum_pair h

theorem Kernel.owns_compl (k : Kernel) (T : Fin NPROC → Tree) (S : Finset (Fin NPROC)) :
    k.owns T Finset.univ = k.owns T S + k.owns T Sᶜ := (Finset.sum_add_sum_compl S _).symm

theorem Kernel.rest_empty (k : Kernel) (T : Fin NPROC → Tree) (Kt : Tree) (S : Finset (Fin NPROC)) :
    k.rest T Kt ∅ = k.owns T S + k.rest T Kt S := by
  rw [Kernel.rest, Finset.compl_empty, k.owns_compl T S, add_assoc, Kernel.rest]

theorem Kernel.rest_singleton (h : j ∉ S) :
    k.rest T Kt {j} = k.owns T S + k.rest T Kt (insert j S) := by
  have hset : ({j} : Finset (Fin NPROC))ᶜ = S ∪ (insert j S)ᶜ := by
    ext l
    simp only [Finset.mem_compl, Finset.mem_singleton, Finset.mem_union, Finset.mem_insert]
    by_cases hl : l ∈ S
    · simp only [hl, true_or, iff_true]
      rintro rfl
      exact h hl
    · simp [hl]
  have hdisj : Disjoint S (insert j S)ᶜ :=
    disjoint_compl_right.mono_left (Finset.subset_insert j S)
  rw [Kernel.rest, hset, Kernel.owns, Finset.sum_union hdisj, add_assoc]
  rfl

theorem Kernel.rest_insert (h : j ∉ S) :
    k.rest T Kt S = (k.proc j).own (T j) + k.rest T Kt (insert j S) := by
  have hset : Sᶜ = insert j (insert j S)ᶜ := by
    ext l
    simp only [Finset.mem_compl, Finset.mem_insert]
    by_cases hl : l = j
    · simp [hl, h]
    · simp [hl]
  rw [Kernel.rest, hset, Kernel.owns, Finset.sum_insert (by simp), add_assoc]
  rfl

end Sums

/-! ## Steps -/

/-- What each process sees. -/
def Kernel.image (k : Kernel) (T : Fin NPROC → Tree) (i : Fin NPROC) : Image :=
  if (k.proc i).pagetable = 0 then .empty else (T i).image k.phys.mem

/-- What the kernel holds outside the processes is the same. -/
structure SameBase (k k' : Kernel) : Prop where
  kernelPagetable : k'.kernelPagetable = k.kernelPagetable
  disk : k'.disk = k.disk
  pipes : k'.pipes = k.pipes
  held : k'.held = k.held

section Change

variable {L : Layout} {k k' : Kernel} {T T' : Fin NPROC → Tree} {Kt Kt' : Tree}
  {S : Finset (Fin NPROC)} {i j : Fin NPROC}

theorem SameBase.pages (h : SameBase k k') : k'.pages = k.pages := by
  rw [Kernel.pages, h.disk, h.pipes, h.held, Kernel.pages]

theorem SameBase.base (h : SameBase k k') (Kt : Tree) : k'.base Kt = k.base Kt := by
  rw [Kernel.base, Kernel.table, h.kernelPagetable, Kernel.misc, h.pages]
  rfl

/-- The processes in `S` change, the others see nothing of it: they keep their pages, and what `S`
comes to own was not theirs alone. -/
structure Change (L : Layout) (k : Kernel) (T : Fin NPROC → Tree) (Kt : Tree) (k' : Kernel)
    (T' : Fin NPROC → Tree) (S : Finset (Fin NPROC)) : Prop where
  base : SameBase k k'
  proc : ∀ j, j ∉ S → k'.proc j = k.proc j
  tree : ∀ j, j ∉ S → T' j = T j
  acct : Acct L k'.phys (k'.owns T' S + k.rest T Kt S)
  keeps : Keeps (k.rest T Kt S) k.phys k'.phys
  nosteal : ∀ q, k.rest T Kt S q ≠ 0 → k.owns T S q = 0 → k'.owns T' S q = 0

theorem Change.rest_eq (h : Change L k T Kt k' T' S) {S' : Finset (Fin NPROC)} (hS : S ⊆ S') :
    k'.rest T' Kt S' = k.rest T Kt S' := by
  have howns : k'.owns T' S'ᶜ = k.owns T S'ᶜ := Finset.sum_congr rfl fun j hj => by
    have hj' : j ∉ S := fun hjS => Finset.mem_compl.mp hj (hS hjS)
    rw [h.proc j hj', h.tree j hj']
  rw [Kernel.rest, howns, h.base.base, Kernel.rest]

theorem Inv.change (h : Inv L k T Kt) (hc : Change L k T Kt k' T' S)
    (hS : ∀ i ∈ S, k'.proc i = Proc.empty ∨ (k'.proc i).state ≠ .unused ∧
      ProcOk L k'.phys (k'.proc i) (T' i) (k'.rest T' Kt {i})) : Inv L k' T' Kt := by
  have htotal : Acct L k'.phys (k'.rest T' Kt ∅) := by
    rw [k'.rest_empty T' Kt S, hc.rest_eq le_rfl]
    exact hc.acct
  refine ⟨htotal, fun j => ?_, ?_, by rw [hc.base.pages]; exact h.aligned⟩
  · by_cases hj : j ∈ S
    · exact hS j hj
    rw [hc.proc j hj, hc.tree j hj]
    refine (h.proc j).imp_right fun ⟨hstate, hok⟩ => ⟨hstate, ?_⟩
    have hrest : k.rest T Kt S = (k.proc j).own (T j) + k.rest T Kt (insert j S) :=
      Kernel.rest_insert hj
    have hne : ∀ q, (k.proc j).own (T j) q ≠ 0 → k.rest T Kt S q ≠ 0 := fun q hq => by
      rw [hrest, Pi.add_apply]
      omega
    refine hok.frame ?_ (fun q hq => hc.keeps q (hne q hq)) fun q hq hzero => ?_
    · rw [k'.rest_empty T' Kt {j}, Kernel.owns_singleton, hc.proc j hj, hc.tree j hj] at htotal
      exact htotal
    · rw [Kernel.rest_singleton hj, Pi.add_apply] at hzero
      rw [Kernel.rest_singleton hj, Pi.add_apply, hc.rest_eq (Finset.subset_insert j S),
        hc.nosteal q (hne q hq) (by omega)]
      omega
  · rw [hc.base.kernelPagetable]
    refine h.kern.imp_right fun hkern => ?_
    have htable : k.table Kt = Kt.pt + stackRefs Kt := if_neg hkern.pagetable_ne
    have hmisc : k'.misc = k.misc := by rw [Kernel.misc, hc.base.pages, Kernel.misc]
    have hne : ∀ q, Kt.pt q ≠ 0 → k.rest T Kt S q ≠ 0 := fun q hq => by
      rw [Kernel.rest, Kernel.base, htable]
      simp only [Pi.add_apply]
      omega
    refine hkern.frame ?_ (fun q hq => hc.keeps q (hne q hq)) fun q hq hzero => ?_
    · rw [Kernel.rest, hc.base.base, Kernel.base, htable, Finset.compl_empty] at htotal
      rw [hmisc]
      convert htotal using 1
      abel
    · have hcompl := k'.owns_compl T' S
      have hrest := hc.rest_eq (le_refl S)
      rw [k.owns_compl T S] at hzero
      simp only [Pi.add_apply] at hzero
      have hsame : k'.owns T' Sᶜ = k.owns T Sᶜ := Finset.sum_congr rfl fun j hj => by
        rw [hc.proc j (Finset.mem_compl.mp hj), hc.tree j (Finset.mem_compl.mp hj)]
      rw [hcompl, hmisc, hsame]
      simp only [Pi.add_apply]
      rw [hc.nosteal q (hne q hq) (by omega)]
      omega

theorem Inv.image_eq (h : Inv L k T Kt) (hc : Change L k T Kt k' T' S) (hj : j ∉ S) :
    k'.image T' j = k.image T j := by
  rw [Kernel.image, Kernel.image, hc.proc j hj, hc.tree j hj]
  rcases h.proc j with hempty | ⟨-, hok⟩
  · rw [hempty]
    rfl
  · rw [if_neg hok.pagetable_ne, if_neg hok.pagetable_ne]
    refine hok.image_eq fun q hq => hc.keeps q ?_
    rw [Kernel.rest_insert hj, Pi.add_apply]
    omega

theorem Inv.changeBase (h : Inv L k T Kt) (k' : Kernel) (hproc : k'.proc = k.proc)
    (hacct : Acct L k'.phys (k.owns T Finset.univ + k'.base Kt'))
    (hk : Keeps (k.owns T Finset.univ) k.phys k'.phys)
    (hg : ∀ q, k.owns T Finset.univ q ≠ 0 → k.base Kt q = 0 → k'.base Kt' q = 0)
    (hkern : k'.kernelPagetable = 0 ∨
      KernOk L k'.phys k'.kernelPagetable Kt' (k.owns T Finset.univ + k'.misc))
    (halign : ∀ a ∈ k'.pages, a = a / PGSIZE * PGSIZE) :
    Inv L k' T Kt' ∧ ∀ j, k'.image T j = k.image T j := by
  have howns : ∀ S, k'.owns T S = k.owns T S := fun S =>
    Finset.sum_congr rfl fun j _ => by rw [hproc]
  have hle : ∀ j q, (k.proc j).own (T j) q ≠ 0 → k.owns T Finset.univ q ≠ 0 := fun j q hq => by
    rw [k.owns_compl T {j}, k.owns_singleton, Pi.add_apply]
    omega
  refine ⟨⟨?_, fun j => ?_, by rwa [howns], halign⟩, fun j => ?_⟩
  · rwa [Kernel.rest, Finset.compl_empty, howns]
  · rw [hproc]
    refine (h.proc j).imp_right fun ⟨hstate, hok⟩ => ⟨hstate, ?_⟩
    refine hok.frame ?_ (fun q hq => hk q (hle j q hq)) fun q hq hzero => ?_
    · rwa [Kernel.rest, howns, ← add_assoc, ← k.owns_singleton, ← k.owns_compl]
    · rw [Kernel.rest, Pi.add_apply] at hzero
      rw [Kernel.rest, Pi.add_apply, howns, hg q (hle j q hq) (by omega)]
      omega
  · rw [Kernel.image, Kernel.image, hproc]
    rcases h.proc j with hempty | ⟨-, hok⟩
    · rw [hempty]
      rfl
    · rw [if_neg hok.pagetable_ne, if_neg hok.pagetable_ne]
      exact hok.image_eq fun q hq => hk q (hle j q hq)

theorem Inv.act (h : Inv L k T Kt) (k' : Kernel) {C : Tree} (hb : SameBase k k')
    (hproc : ∀ j, j ≠ i → k'.proc j = k.proc j) (hstate : (k'.proc i).state ≠ .unused)
    (hok : ProcOk L k'.phys (k'.proc i) C (k.rest T Kt {i}))
    (hk : Keeps (k.rest T Kt {i}) k.phys k'.phys)
    (hg : ∀ q, k.rest T Kt {i} q ≠ 0 → (k.proc i).own (T i) q = 0 → (k'.proc i).own C q = 0) :
    Inv L k' (update T i C) Kt ∧
      ∀ j, j ≠ i → k'.image (update T i C) j = k.image T j := by
  have hC : Change L k T Kt k' (update T i C) {i} := by
    refine ⟨hb, fun j hj => hproc j (by simpa using hj), fun j hj => ?_, ?_, hk, ?_⟩
    · rw [update_of_ne (by simpa using hj)]
    · rw [Kernel.owns_singleton, update_self]
      exact hok.acct
    · rw [Kernel.owns_singleton, Kernel.owns_singleton, update_self]
      exact hg
  refine ⟨h.change hC fun j hj => .inr ?_, fun j hj => h.image_eq hC (by simpa using hj)⟩
  obtain rfl := Finset.mem_singleton.mp hj
  rw [update_self, hC.rest_eq le_rfl]
  exact ⟨hstate, hok⟩

theorem Inv.clear (h : Inv L k T Kt) (k' : Kernel) (hb : SameBase k k')
    (hproc : k'.proc = update k.proc i Proc.empty)
    (hacct : Acct L k'.phys (k.rest T Kt {i})) (hk : Keeps (k.rest T Kt {i}) k.phys k'.phys) :
    Inv L k' T Kt ∧ ∀ j, j ≠ i → k'.image T j = k.image T j := by
  have hzero : k'.owns T {i} = 0 := by
    rw [Kernel.owns_singleton, hproc, update_self, Proc.own_empty]
  have hC : Change L k T Kt k' T {i} := by
    refine ⟨hb, fun j hj => ?_, fun j _ => rfl, ?_, hk, fun q _ _ => by rw [hzero]; rfl⟩
    · rw [hproc, update_of_ne (by simpa using hj)]
    · rwa [hzero, zero_add]
  refine ⟨h.change hC fun j hj => .inl ?_, fun j hj => h.image_eq hC (by simpa using hj)⟩
  obtain rfl := Finset.mem_singleton.mp hj
  rw [hproc, update_self]

theorem Inv.actSpace (h : Inv L k T Kt) (k' : Kernel) {C : Tree}
    (hi : (k.proc i).state ≠ .unused) (hb : SameBase k k') (hproc : ∀ j, j ≠ i → k'.proc j = k.proc j)
    (hstate : (k'.proc i).state ≠ .unused) (hroot : (k'.proc i).pagetable = C.root * PGSIZE)
    (htf : (k'.proc i).trapframe = (k.proc i).trapframe)
    (hs : Space L k'.phys C (npages (k'.proc i).sz) (topEntries L (k.proc i).tf)
      (ref (k.proc i).tf + k.rest T Kt {i}))
    (hr : Replaces (k.proc i).tf (ref (k.proc i).tf + k.rest T Kt {i}) k.phys (T i) k'.phys C) :
    Inv L k' (update T i C) Kt ∧
      ∀ j, j ≠ i → k'.image (update T i C) j = k.image T j := by
  obtain hempty | ⟨-, hok⟩ := h.proc i
  · rw [hempty] at hi
    exact absurd rfl hi
  have htf' : (k'.proc i).tf = (k.proc i).tf := by rw [Proc.tf, htf, Proc.tf]
  have hle : ∀ q, k.rest T Kt {i} q ≠ 0 → (ref (k.proc i).tf + k.rest T Kt {i}) q ≠ 0 :=
    fun q hq => by
      rw [Pi.add_apply]
      omega
  have hexcl := hok.excl
  have hok' : ProcOk L k'.phys (k'.proc i) C (k.rest T Kt {i}) := by
    refine ⟨hroot, by rw [htf, htf', hok.trapframe], by rw [htf']; exact hs, ?_⟩
    have := hr.user (k.proc i).tf (by rw [Pi.add_apply, ref_self]; omega)
    rw [htf']
    omega
  refine h.act k' hb hproc hstate hok' (fun q hq => hr.keeps q (hle q hq) ?_) fun q hq hown => ?_
  · rintro rfl
    omega
  · have h1 := hs.pt_eq_zero (.inr (hle q hq))
    have h2 := hr.user q (hle q hq)
    rw [hok.own_eq] at hown
    rw [hok'.own_eq, htf']
    simp only [Pi.add_apply] at hown ⊢
    omega

theorem Inv.relabel (h : Inv L k T Kt) (k' : Kernel) (hb : SameBase k k') (hphys : k'.phys = k.phys)
    (hproc : ∀ j, k'.proc j = k.proc j ∨ (k.proc j).state ≠ .unused ∧ (k'.proc j).state ≠ .unused ∧
      (k'.proc j).pagetable = (k.proc j).pagetable ∧ (k'.proc j).trapframe = (k.proc j).trapframe ∧
        (k'.proc j).sz = (k.proc j).sz) :
    Inv L k' T Kt ∧ ∀ j, k'.image T j = k.image T j := by
  have hown : ∀ j, (k'.proc j).own (T j) = (k.proc j).own (T j) := fun j => by
    rcases hproc j with heq | ⟨-, -, h1, h2, -⟩
    · rw [heq]
    · rw [Proc.own, h1, Proc.tf, h2]
      rfl
  have howns : ∀ S, k'.owns T S = k.owns T S := fun S => Finset.sum_congr rfl fun j _ => hown j
  have hrest : ∀ S, k'.rest T Kt S = k.rest T Kt S := fun S => by
    rw [Kernel.rest, howns, hb.base, Kernel.rest]
  refine ⟨⟨by rw [hphys, hrest]; exact h.acct, fun j => ?_, ?_, by rw [hb.pages]; exact h.aligned⟩,
    fun j => ?_⟩
  · rw [hphys, hrest]
    rcases hproc j with heq | ⟨hst, hst', h1, h2, h3⟩
    · rw [heq]
      exact h.proc j
    · rcases h.proc j with hempty | ⟨-, hok⟩
      · rw [hempty] at hst
        exact absurd rfl hst
      · exact .inr ⟨hst', hok.congr h1 h2 h3⟩
  · rw [hb.kernelPagetable, hphys, howns, Kernel.misc, hb.pages]
    exact h.kern
  · rw [Kernel.image, Kernel.image, hphys]
    rcases hproc j with heq | ⟨-, -, h1, -, -⟩
    · rw [heq]
    · rw [h1]

end Change

/-! ## The reference system of a kernel -/

/-- What a process is, with what it sees. -/
def Kernel.view (k : Kernel) (T : Fin NPROC → Tree) (i : Fin NPROC) : Ref.Proc :=
  let p := k.proc i
  ⟨p.state, p.pid, p.parent, p.xstate, p.sz, k.image T i⟩

/-- The reference system that the kernel stands for. -/
def Kernel.abs (k : Kernel) (T : Fin NPROC → Tree) : Ref.System := ⟨k.view T, k.initproc, k.nextpid⟩

end Xv6.Process
