import Xv6.Process.Boot
import Xv6.Vm.Overlap

/-!
# The system

Every event keeps the invariant and refines the reference system, so both hold in every state of a
run. What the invariant says of page tables is then read off memory: `Tree.ofMem` walks a page table,
and `Kernel.owners` counts the owners of a page in the page tables found this way.
-/

namespace Xv6.Process

open Lib
open Xv6.Vm

/-! ## Events -/

/-- How an event can crash the kernel: for want of memory during the boot or in a store fault, by a
store to an address that is not mapped, or because the first process exits. -/
def Event.crash (k : Kernel) (T : Fin NPROC → Tree) : Event → Panic → Prop
  | .kvminit, e => e = .null ∨ e = .kvmmap ∨ e = .mapstacks
  | .virtioDiskInit, e => e = .virtio
  | .userinit, e => e = .null
  | .store i va b, e => e = .null ∧ (k.phys.freelist = 0 ∨ (k.image T i).store va b = none) ∨
      e = .initExiting ∧ k.initproc = some i ∧ (k.image T i).store va b = none
  | .exit i _, e => e = .initExiting ∧ k.initproc = some i
  | _, _ => False

section Events

variable {L : Layout} {k k' : Kernel} {T : Fin NPROC → Tree} {Kt : Tree} {e : Event}

theorem Event.runnable {i : Fin NPROC} (he : e.enabled k = true) (hi : e.actor = some i) :
    (k.proc i).state = .runnable := by
  cases e <;> simp_all [Event.enabled, Event.actor]

theorem Event.live {i : Fin NPROC} (he : e.enabled k = true) (hi : e.actor = some i) :
    (k.proc i).state ≠ .unused := by
  rw [Event.runnable he hi]
  decide

/-- Every event keeps the invariant and does what it does in the reference system. Only `userinit`
does not notice that there is no memory. -/
theorem Event.spec (h : Inv L k T Kt) (he : e.enabled k = true) :
    wpOr (e.crash k T) (e.code L) k fun _ k' => e = .userinit ∧ k'.phys.oom = true ∨
      ∃ T' Kt', Inv L k' T' Kt' ∧ Refines k T (·.step e) k' T' := by
  have hid : ∀ {k'}, Inv L k' T Kt ∧ Refines k T id k' T → ∃ T' Kt', Inv L k' T' Kt' ∧
      Refines k T id k' T' := fun hx => ⟨T, Kt, hx.1, hx.2⟩
  cases e with
  | kvminit =>
    refine (kvminit_spec h (by simpa [Event.enabled] using he)).mono ?_
    rintro - k' ⟨Kt', hinv, href⟩
    exact .inr ⟨T, Kt', hinv, href⟩
  | virtioDiskInit =>
    refine (virtioDiskInit_spec h (by simpa [Event.enabled] using he)).mono ?_
    rintro - k' hx
    exact .inr (hid hx)
  | userinit =>
    refine (userinit_spec h).mono ?_
    rintro - k' (hoom | ⟨T', hinv, hoom, habs⟩)
    · exact .inl ⟨rfl, hoom⟩
    · exact .inr ⟨T', Kt, hinv, .inl ⟨hoom, habs⟩⟩
  | kalloc => exact wp.or (wp_discard ((hold_spec h).mono fun _ k' hx => .inr (hid hx)))
  | kfree n => exact wp.or ((drop_spec h n).mono fun _ k' hx => .inr (hid hx))
  | fork i =>
    refine wp.or (wp_discard ((fork_spec h (Event.live he rfl)).mono ?_))
    rintro - k' ⟨T', hinv, href⟩
    exact .inr ⟨T', Kt, hinv, href⟩
  | growproc i n =>
    refine wp.or (wp_discard ((growproc_spec h (Event.live he rfl) n).mono ?_))
    rintro - k' ⟨T', hinv, href⟩
    exact .inr ⟨T', Kt, hinv, href⟩
  | exec i file uargv =>
    refine wp.or (wp_discard ((execve_spec h (Event.live he rfl) file uargv).mono ?_))
    rintro - k' ⟨T', hinv, href⟩
    exact .inr ⟨T', Kt, hinv, href⟩
  | exit i status =>
    by_cases hinit : k.initproc = some i
    · exact exit_init hinit ⟨rfl, hinit⟩
    · refine wp.or ((exit_spec h (Event.live he rfl) hinit status).mono ?_)
      rintro - k' ⟨hinv, hphys, -, habs⟩
      exact .inr ⟨T, Kt, hinv, .inl ⟨by rw [hphys], habs⟩⟩
  | wait i addr =>
    refine wp.or (wp_discard ((wait_spec h (Event.runnable he rfl) addr).mono ?_))
    rintro - k' ⟨T', hinv, href⟩
    exact .inr ⟨T', Kt, hinv, href⟩
  | load i va => exact wp.or ((wp_pure _).mpr (.inr ⟨T, Kt, h, .inl ⟨rfl, rfl⟩⟩))
  | store i va b =>
    refine (store_spec h (Event.live he rfl) va b).mono ?_
    rintro - k' ⟨T', hinv, -, hoom, habs⟩
    exact .inr ⟨T', Kt, hinv, .inl ⟨hoom, habs⟩⟩
  | copyin i srcva len =>
    have hok := h.ok (Event.live he rfl)
    refine wp.or ?_
    change wp (do
      let p := (← get).proc i
      discard (vm (Vm.copyin p.pagetable srcva len))) k _
    rw [wp_bind, wp_get]
    simp only
    rw [hok.root]
    refine wp_discard ((wp_vm (P := fun _ s => s = k.phys)
      ((wp_copyinLoop (hok.space.reads topOk_topEntries)).mpr rfl)).mono ?_)
    rintro - _ ⟨s, rfl, rfl⟩
    exact .inr ⟨T, Kt, h, .inl ⟨rfl, rfl⟩⟩
  | copyout i dstva src len =>
    refine wp.or ?_
    change wp (do
      let p := (← get).proc i
      discard (vm (Vm.copyout L p.pagetable dstva src len))) k _
    rw [wp_bind, wp_get]
    refine wp_discard ((copyoutProc_spec h (Event.live he rfl) dstva src len).mono ?_)
    rintro r k' ⟨s, C, rfl, hinv, -, hcase⟩
    refine .inr ⟨_, Kt, hinv, ?_⟩
    rcases hcase with ⟨hoom, -, habs⟩ | ⟨-, hoom⟩
    · exact .inl ⟨hoom, habs⟩
    · exact .inr hoom
  | pipealloc => exact wp.or (wp_discard ((pipealloc_spec h).mono fun _ k' hx => .inr (hid hx)))
  | pipeclose n writable => exact wp.or ((pipeclose_spec h n writable).mono fun _ k' hx => .inr (hid hx))

theorem Step.inv (h : Inv L k T Kt) (hs : Step L k e k') :
    e = .userinit ∧ k'.phys.oom = true ∨
      ∃ T' Kt', Inv L k' T' Kt' ∧ Refines k T (·.step e) k' T' :=
  (Event.spec h hs.1).of_run hs.2

end Events

/-! ## Runs -/

theorem boot_inv (L : Layout) (mem : ℕ → Page) :
    Inv L (Kernel.boot L mem) (fun _ => Tree.empty 0) (Tree.empty 0) ∧
      (Kernel.boot L mem).phys.oom = false ∧
      (Kernel.boot L mem).abs (fun _ => Tree.empty 0) = Ref.System.boot := by
  obtain ⟨⟨⟩, _, hrun, s, rfl, hacct, hoom⟩ := wp_vm (k := Kernel.reset mem) (kinit_spec L mem)
  have hboot : Kernel.boot L mem = ⟨s, fun _ => Proc.empty, none, 1, 0, [], [], []⟩ := by
    rw [Kernel.boot, hrun]
    rfl
  rw [hboot]
  set k : Kernel := ⟨s, fun _ => Proc.empty, none, 1, 0, [], [], []⟩ with hk
  have hrest : ∀ S, k.rest (fun _ => Tree.empty 0) (Tree.empty 0) S = 0 := fun S => by
    have howns : k.owns (fun _ => Tree.empty 0) Sᶜ = 0 :=
      Finset.sum_eq_zero fun i _ => Proc.own_empty _
    rw [Kernel.rest, howns, zero_add, Kernel.base, Kernel.table, if_pos rfl, zero_add]
    rfl
  refine ⟨⟨by rw [hrest]; exact hacct, fun i => .inl rfl, .inl rfl, by simp [hk, Kernel.pages]⟩, hoom,
    Kernel.abs_eq (fun i => ?_) rfl rfl⟩
  rfl

/-- A run of the kernel from `kinit` in which every `kalloc` has succeeded. -/
inductive Run (L : Layout) (mem : ℕ → Page) : List Event → Kernel → Prop
  | boot : Run L mem [] (Kernel.boot L mem)
  | step {es : List Event} {k k' : Kernel} {e : Event} :
      Run L mem es k → Step L k e k' → k'.phys.oom = false → Run L mem (es ++ [e]) k'

/-- `userinit`, which does not check `mappages`, has the memory for the first process. -/
def Ample (L : Layout) (k : Kernel) (e : Event) : Prop :=
  e = .userinit → ∀ k', Step L k e k' → k'.phys.oom = false

section Runs

variable {L : Layout} {mem : ℕ → Page} {k k' : Kernel} {es : List Event}

/-- A run in which memory does not run out follows the reference system. -/
theorem Run.inv (h : Run L mem es k) :
    ∃ T Kt, Inv L k T Kt ∧ k.abs T = Ref.System.run es := by
  induction h with
  | boot =>
    obtain ⟨hinv, -, habs⟩ := boot_inv L mem
    exact ⟨_, _, hinv, habs⟩
  | step _ hs hoom ih =>
    obtain ⟨T, Kt, hinv, habs⟩ := ih
    rcases Step.inv hinv hs with ⟨-, htrue⟩ | ⟨T', Kt', hinv', ⟨-, href⟩ | htrue⟩
    · rw [hoom] at htrue
      cases htrue
    · refine ⟨T', Kt', hinv', ?_⟩
      rw [href, habs, Ref.System.run, Ref.System.run, List.foldl_append]
      rfl
    · rw [hoom] at htrue
      cases htrue

/-- The invariant holds in every state, also where memory has run out. -/
theorem reach_inv (h : Reach (Kernel.boot L mem) (Step L) (Ample L) k) :
    ∃ T Kt, Inv L k T Kt := by
  refine h.invariant (P := fun k => ∃ T Kt, Inv L k T Kt) ⟨_, _, (boot_inv L mem).1⟩ ?_
  rintro k e k' ⟨T, Kt, hinv⟩ hok hs
  rcases Step.inv hinv hs with ⟨he, htrue⟩ | ⟨T', Kt', hinv', -⟩
  · rw [hok he k' hs] at htrue
    cases htrue
  · exact ⟨T', Kt', hinv'⟩

end Runs

/-! ## A small machine -/

/-- The state after an event. -/
def next (L : Layout) (k : Kernel) (e : Event) : Option Kernel :=
  if e.enabled k then
    match (e.code L).run k with
    | .ok (_, k') => some k'
    | .error _ => none
  else none

/-- No `kalloc` fails in the event. -/
def served (L : Layout) (k : Kernel) (e : Event) : Bool := (next L k e).all fun k' => !k'.phys.oom

section Next

variable {L : Layout} {mem : ℕ → Page} {k k' : Kernel} {e : Event} {es es' : List Event}

theorem next_eq : next L k e = some k' ↔ Step L k e k' := by
  unfold next Step
  by_cases he : e.enabled k = true
  · rw [if_pos he]
    cases hrun : (e.code L).run k with
    | error err => simp
    | ok r => simp [he, Prod.ext_iff]
  · simp [he]

theorem oom_of_served (h : served L k e = true) (hs : Step L k e k') : k'.phys.oom = false := by
  rw [served, next_eq.mpr hs] at h
  simpa using h

theorem ample_of_served (h : served L k e = true) : Ample L k e :=
  fun _ _ hs => oom_of_served h hs

theorem Run.execute (h : Run L mem es k) (he : execute (next L) (served L) k es' = some k') :
    Run L mem (es ++ es') k' := by
  induction es' generalizing es k with
  | nil =>
    cases he
    rwa [List.append_nil]
  | cons e es' ih =>
    rw [execute] at he
    split_ifs at he with hb
    obtain ⟨t, ht, he⟩ := Option.bind_eq_some_iff.mp he
    have hs := next_eq.mp ht
    rw [List.append_cons]
    exact ih (h.step hs (oom_of_served hb hs)) he

end Next

/-- A machine with sixteen pages of RAM. -/
def small : Layout where
  kend := 0x87FF0000
  etext := 0x80008000
  trampoline := 0x80007000
  base_lt := by decide
  etext_lt := by decide
  kend_le := by decide
  etext_aligned := by decide
  trampoline_aligned := by decide
  trampoline_ge := by decide
  trampoline_lt := by decide

/-- Memory of zeros. -/
def blank : ℕ → Page := fun _ => Bytes.fill PGSIZE 0

/-- The first process. -/
def proc0 : Fin NPROC := ⟨0, zero_lt_nproc⟩
/-- The second process. -/
def proc1 : Fin NPROC := ⟨1, one_lt_nproc⟩

/-- The first process forks, and its child stores a byte to the page that they share. -/
def forkStore : List Event := [.userinit, .fork proc0, .store proc1 0 7]

theorem forkStore_possible : ∃ k,
    execute (next small) (served small) (Kernel.boot small blank) forkStore = some k ∧
      (k.proc proc0).state = .runnable ∧ (k.proc proc1).state = .runnable := by
  have hex : ((execute (next small) (served small) (Kernel.boot small blank) forkStore).map
      fun k => ((k.proc proc0).state, (k.proc proc1).state)) = some (.runnable, .runnable) := by
    decide +kernel
  obtain ⟨k, hk, hstate⟩ := Option.map_eq_some_iff.mp hex
  exact ⟨k, hk, congrArg Prod.fst hstate, congrArg Prod.snd hstate⟩

/-- The first process keeps its one page of memory. -/
theorem forkStore_sz {k : Kernel}
    (hk : execute (next small) (served small) (Kernel.boot small blank) forkStore = some k) :
    (k.proc proc0).sz = PGSIZE := by
  have hex : ((execute (next small) (served small) (Kernel.boot small blank) forkStore).map
      fun k => (k.proc proc0).sz) = some PGSIZE := by decide +kernel
  rw [hk] at hex
  exact Option.some.inj hex

theorem forkStore_reach {k : Kernel}
    (hk : execute (next small) (served small) (Kernel.boot small blank) forkStore = some k) :
    Reach (Kernel.boot small blank) (Step small) (Ample small) k :=
  Reach.execute (fun _ _ _ => next_eq.mp) (fun _ _ => ample_of_served) .init hk

/-! ## Reading -/

section Reading

variable {L : Layout} {k k' : Kernel} {T T' : Fin NPROC → Tree} {Kt Kt' : Tree} {i j : Fin NPROC}
  {va : ℕ}

/-- What the hardware lets a process read is what its image shows. -/
theorem Inv.userByte_eq (h : Inv L k T Kt) (hi : (k.proc i).state ≠ .unused) :
    userByte k.phys.mem ((k.proc i).pagetable / PGSIZE) va = (k.image T i).byte va := by
  have hok := h.ok hi
  rw [hok.root, mul_div_pgsize, hok.space.userByte_eq topOk_topEntries, h.image_of_ok hi]

theorem Inv.userByte_congr (h : Inv L k T Kt) (h' : Inv L k' T' Kt')
    (hj : (k.proc j).state ≠ .unused) (hj' : (k'.proc j).state ≠ .unused)
    (himg : k'.image T' j = k.image T j) :
    userByte k'.phys.mem ((k'.proc j).pagetable / PGSIZE) va =
      userByte k.phys.mem ((k.proc j).pagetable / PGSIZE) va := by
  rw [h'.userByte_eq hj', himg, h.userByte_eq hj]

theorem Ref.System.store_proc_of_ne (r : Ref.System) {i j : Fin NPROC} (h : j ≠ i) (va : ℕ)
    (b : UInt8) : ((r.store i va b).proc j).state = (r.proc j).state := by
  unfold Ref.System.store
  split
  · exact congrArg Ref.Proc.state (Function.update_of_ne h _ _)
  · refine (congrArg Ref.Proc.state (Function.update_of_ne h _ _)).trans ?_
    dsimp only
    split_ifs <;> rfl

theorem store_isolated (h : Inv L k T Kt) {b : UInt8} {w : ℕ} (hs : Step L k (.store i w b) k')
    (hj : j ≠ i) (hlive : (k.proc j).state ≠ .unused) :
    userByte k'.phys.mem ((k'.proc j).pagetable / PGSIZE) va =
      userByte k.phys.mem ((k.proc j).pagetable / PGSIZE) va := by
  obtain ⟨T', h', himg, -, habs⟩ := (store_spec h (Event.live hs.1 rfl) w b).of_run hs.2
  have hstate : (k'.proc j).state = (k.proc j).state := by
    have := congrArg (fun r : Ref.System => (r.proc j).state) habs
    rwa [Ref.System.store_proc_of_ne _ hj] at this
  exact h.userByte_congr h' hlive (by rwa [hstate]) (himg j hj)

/-- What the kernel copies to a process, no other process reads. -/
theorem copyout_isolated (h : Inv L k T Kt) {dstva len : ℕ} {src : ℕ → UInt8}
    (hs : Step L k (.copyout i dstva src len) k') (hj : j ≠ i)
    (hlive : (k.proc j).state ≠ .unused) :
    userByte k'.phys.mem ((k'.proc j).pagetable / PGSIZE) va =
      userByte k.phys.mem ((k.proc j).pagetable / PGSIZE) va := by
  have hspec : wp (Event.code L (.copyout i dstva src len)) k fun _ k' => ∃ T', Inv L k' T' Kt ∧
      k'.proc = k.proc ∧ ∀ j, j ≠ i → k'.image T' j = k.image T j := by
    change wp (do
      let p := (← get).proc i
      discard (vm (Vm.copyout L p.pagetable dstva src len))) k _
    rw [wp_bind, wp_get]
    refine wp_discard ((copyoutProc_spec h (Event.live hs.1 rfl) dstva src len).mono ?_)
    rintro r k' ⟨s, C, rfl, hinv, himg, -⟩
    exact ⟨_, hinv, rfl, himg⟩
  obtain ⟨T', h', hproc, himg⟩ := hspec.of_run hs.2
  exact h.userByte_congr h' hlive (by rwa [hproc]) (himg j hj)

/-- A store that the reference system allows is carried out while there is memory for a copy. -/
theorem store_returns (h : Inv L k T Kt) {b : UInt8} (hi : (k.proc i).state = .runnable)
    (hmem : k.phys.freelist ≠ 0) (hstore : (k.image T i).store va b ≠ none) :
    ∃ k', Step L k (.store i va b) k' := by
  have hspec := store_spec h (i := i) (by rw [hi]; decide) va b
  cases hrun : (store L i va b).run k with
  | error e =>
    obtain ⟨-, hfree | hnone⟩ | ⟨-, -, hnone⟩ := hspec.of_error hrun
    · exact absurd hfree hmem
    · exact absurd hnone hstore
    · exact absurd hnone hstore
  | ok r => exact ⟨r.2, by simp [Event.enabled, Event.actor, hi], hrun⟩

end Reading

/-- **Copy-on-write refines copying.** In a run in which every `kalloc` succeeds, each process reads
the bytes that it would read if `fork` had copied every page. What one process stores, or the kernel
copies to it, changes nothing that another reads. A store that the reference system allows does not
fail while there is memory. -/
theorem cow_refines_copy {L : Layout} {mem : ℕ → Page} {es : List Event} {k : Kernel}
    (h : Run L mem es k) :
    (∀ i, (k.proc i).state = ((Ref.System.run es).proc i).state ∧
      (k.proc i).sz = ((Ref.System.run es).proc i).sz) ∧
    (∀ i va, (k.proc i).state ≠ .unused →
      userByte k.phys.mem ((k.proc i).pagetable / PGSIZE) va =
        ((Ref.System.run es).proc i).image.byte va) ∧
    (∀ i j e k', (∃ va b, e = Event.store i va b) ∨ (∃ va src len, e = .copyout i va src len) →
      Step L k e k' → j ≠ i → (k.proc j).state ≠ .unused → ∀ va,
      userByte k'.phys.mem ((k'.proc j).pagetable / PGSIZE) va =
        userByte k.phys.mem ((k.proc j).pagetable / PGSIZE) va) ∧
    ∀ i va b, (k.proc i).state = .runnable → k.phys.freelist ≠ 0 →
      ((Ref.System.run es).proc i).image.store va b ≠ none → ∃ k', Step L k (.store i va b) k' := by
  obtain ⟨T, Kt, hinv, habs⟩ := h.inv
  rw [← habs]
  refine ⟨fun i => ⟨rfl, rfl⟩, fun i va hi => hinv.userByte_eq hi, ?_, ?_⟩
  · rintro i j e k' (⟨w, b, rfl⟩ | ⟨w, src, len, rfl⟩) hs hj hlive va
    · exact store_isolated hinv hs hj hlive
    · exact copyout_isolated hinv hs hj hlive
  · intro i va b hi hmem hstore
    exact store_returns hinv hi hmem hstore

theorem cow_refines_copy_forkStore : ∃ k : Kernel, Run small blank forkStore k ∧
    (k.proc proc0).state ≠ .unused ∧
    ∀ va, userByte k.phys.mem ((k.proc proc0).pagetable / PGSIZE) va =
      ((Ref.System.run forkStore).proc proc0).image.byte va := by
  obtain ⟨k, hk, hrunnable, -⟩ := forkStore_possible
  have hlive : (k.proc proc0).state ≠ .unused := by
    rw [hrunnable]
    decide
  have hrun : Run small blank forkStore k := Run.boot.execute hk
  exact ⟨k, hrun, hlive, fun va => (cow_refines_copy hrun).2.1 proc0 va hlive⟩

/-! ## Reading page tables off memory -/

/-- The page table of a process. -/
def Kernel.tree (k : Kernel) (i : Fin NPROC) : Tree :=
  Tree.ofMem k.phys.mem ((k.proc i).pagetable / PGSIZE)

/-- The kernel's page table. -/
def Kernel.ktree (k : Kernel) : Tree := Tree.ofMem k.phys.mem (k.kernelPagetable / PGSIZE)

/-- The owners of a page: the entries for user pages in the page tables of processes, the page tables
themselves, trapframes, kernel stacks, the pages of the virtio queue, pipes, and what other kernel
code holds. -/
def Kernel.owners (k : Kernel) : ℕ → ℕ := k.rest k.tree k.ktree ∅

section Owners

variable {L : Layout} {k : Kernel} {T : Fin NPROC → Tree} {Kt : Tree} {i : Fin NPROC}

theorem Inv.tree_eq (h : Inv L k T Kt) (hi : (k.proc i).state ≠ .unused) : k.tree i = T i := by
  have hok := h.ok hi
  rw [Kernel.tree, hok.root, mul_div_pgsize]
  exact hok.space.has.rep.eq_ofMem.symm

theorem Inv.own_tree (h : Inv L k T Kt) (i : Fin NPROC) :
    (k.proc i).own (k.tree i) = (k.proc i).own (T i) := by
  obtain hempty | ⟨hi, -⟩ := h.proc i
  · rw [hempty, Proc.own_empty, Proc.own_empty]
  · rw [h.tree_eq hi]

theorem Inv.table_ktree (h : Inv L k T Kt) : k.table k.ktree = k.table Kt := by
  obtain hzero | hok := h.kern
  · rw [Kernel.table, Kernel.table, if_pos hzero, if_pos hzero]
  · rw [Kernel.ktree, hok.root, mul_div_pgsize, ← hok.has.rep.eq_ofMem]

theorem Inv.owners_eq (h : Inv L k T Kt) : k.owners = k.rest T Kt ∅ := by
  rw [Kernel.owners, Kernel.rest, Kernel.rest, Kernel.base, Kernel.base, h.table_ktree,
    Kernel.owns, Kernel.owns, Finset.sum_congr rfl fun i _ => h.own_tree i]

end Owners

/-- In every state of a run of whole calls each page of RAM is on the free list, once, and has no owner,
or it is not on the free list and its count is the number of its owners, and not zero. -/
theorem reach_accounted {L : Layout} {mem : ℕ → Page} {k : Kernel}
    (h : Reach (Kernel.boot L mem) (Step L) (Ample L) k) :
    ∃ l, Chain k.phys.mem k.phys.freelist l ∧ l.Nodup ∧ (∀ p ∈ l, InRam L p) ∧
      ∀ p, InRam L p → p ∈ l ∧ k.owners p = 0 ∨
        p ∉ l ∧ k.owners p ≠ 0 ∧ k.phys.refcnt p = k.owners p := by
  obtain ⟨T, Kt, hinv⟩ := reach_inv h
  obtain ⟨l, hchain, hnodup, hl⟩ := hinv.acct.free
  refine ⟨l, hchain, hnodup, fun p hp => ((hl p).mp hp).1, fun p hp => ?_⟩
  rw [hinv.owners_eq]
  by_cases hc : k.rest T Kt ∅ p = 0
  · exact .inl ⟨(hl p).mpr ⟨hp, hc⟩, hc⟩
  · exact .inr ⟨fun hmem => hc ((hl p).mp hmem).2, hc, hinv.acct.refcnt p hp⟩

/-- **Page accounting.** In a run of whole calls every page is on the free list, once, and has no owner, or
its count is the number of its owners. If the calls overlap, the same holds of the references, apart from
pages that one call is moving, as long as no `kfree` takes a count to 0 while another `kfree` of the page
is between its decrement and its test; and after a step where one does, the free list can be ruined. -/
theorem page_accounting (L : Layout) (mem : ℕ → Page) :
    (∀ k, Reach (Kernel.boot L mem) (Step L) (Ample L) k →
      ∃ l, Chain k.phys.mem k.phys.freelist l ∧ l.Nodup ∧ (∀ p ∈ l, InRam L p) ∧
        ∀ p, InRam L p → p ∈ l ∧ k.owners p = 0 ∨
          p ∉ l ∧ k.owners p ≠ 0 ∧ k.phys.refcnt p = k.owners p) ∧
    wp (kinit L) (.reset mem) fun _ s₀ => ∀ s,
      Reach (.start s₀) (fun s a s' => Overlap.step L s a = some s') Overlap.Calm s →
      Overlap.Accounted L s ∧ ∀ a s', Overlap.step L s a = some s' → ¬ Overlap.Calm s a →
        ∃ as t, execute (Overlap.step L) (fun _ _ => true) s' as = some t ∧ ¬ Overlap.Accounted L t := by
  refine ⟨fun k => reach_accounted, (kinit_spec L mem).mono fun _ s₀ hs₀ s hs => ?_⟩
  have hinv : Overlap.Inv L s :=
    hs.invariant (.start hs₀.1) fun _ _ _ h hcalm hstep => h.step hcalm hstep
  exact ⟨hinv.accounted, fun a s' hstep hcalm => hinv.not_calm hstep hcalm⟩

/-- The first free page of the small machine after `kinit`. -/
def topPage : ℕ := 0x87FFF

theorem topPage_inRam : InRam small topPage := ⟨by decide, by decide⟩

/-- A page that is shared by `fork` is freed by two processes; then both allocate a page. -/
def freedTwice : List Overlap.Act :=
  [.pop proc0, .count proc0, .share topPage, .drop proc0 topPage, .drop proc1 topPage, .test proc0, .test proc1,
    .push proc0, .push proc1, .pop proc0, .count proc0, .pop proc1, .count proc1]

/-- Two overlapping calls of `kfree`: both find the count 0, and `kalloc` gives the page to both processes.
It has two owners, and its count is 1. -/
theorem kfree_overlap_twice : ∃ s₀ s, (kinit small).run (.reset blank) = .ok ((), s₀) ∧
    execute (Overlap.step small) (fun _ _ => true) (.start s₀) freedTwice = some s ∧
    (∀ c, s.stage c = .idle) ∧ s.held topPage = 2 ∧ s.phys.refcnt topPage = 1 ∧ ¬ Overlap.Accounted small s := by
  obtain ⟨_, s₀, hkinit, -⟩ := kinit_spec small blank
  have hrun : (((kinit small).run (.reset blank)).toOption.bind fun r =>
      (execute (Overlap.step small) (fun _ _ => true) (.start r.2) freedTwice).map fun s =>
        (decide (∀ c, s.stage c = .idle), s.held topPage, s.phys.refcnt topPage)) = some (true, 2, 1) := by
    decide +kernel
  rw [hkinit] at hrun
  obtain ⟨s, hs, heq⟩ := Option.map_eq_some_iff.mp hrun
  simp only [Prod.mk.injEq, decide_eq_true_eq] at heq
  obtain ⟨hidle, hheld, href⟩ := heq
  refine ⟨s₀, s, hkinit, hs, hidle, hheld, href, ?_⟩
  rintro ⟨l, -, -, -, hpages⟩
  have htop := hpages topPage topPage_inRam
  omega

/-- The first process forks and its child stores to the page that they share; and one process allocates a
page while another one is in the middle of giving up its reference to a shared one. -/
theorem page_accounting_forkStore :
    (∃ k : Kernel, (k.proc proc1).state = .runnable ∧
      ∃ l, Chain k.phys.mem k.phys.freelist l ∧ l.Nodup ∧ (∀ p ∈ l, InRam small p) ∧
        ∀ p, InRam small p → p ∈ l ∧ k.owners p = 0 ∨
          p ∉ l ∧ k.owners p ≠ 0 ∧ k.phys.refcnt p = k.owners p) ∧
    ∃ s : Overlap.State, s.stage proc0 = .dropped topPage ∧ s.held topPage = 1 ∧ Overlap.Accounted small s := by
  obtain ⟨hwhole, _, s₀, hkinit, hsplit⟩ := page_accounting small blank
  obtain ⟨k, hk, -, hrunnable⟩ := forkStore_possible
  refine ⟨⟨k, hrunnable, hwhole k (forkStore_reach hk)⟩, ?_⟩
  have hrun : (((kinit small).run (.reset blank)).toOption.bind fun r =>
      (execute (Overlap.step small) (fun s a => decide (Overlap.Calm s a)) (.start r.2)
        [.pop proc0, .count proc0, .share topPage, .drop proc0 topPage, .pop proc1, .count proc1]).map fun s =>
          (s.stage proc0, s.held topPage)) = some (.dropped topPage, 1) := by
    decide +kernel
  rw [hkinit] at hrun
  obtain ⟨s, hs, heq⟩ := Option.map_eq_some_iff.mp hrun
  simp only [Prod.mk.injEq] at heq
  exact ⟨s, heq.1, heq.2, (hsplit s (Reach.init.execute (fun _ _ _ h => h)
    (fun _ _ h => of_decide_eq_true h) hs)).1⟩

/-! ## The shape of address spaces -/

section Shape

variable {L : Layout} {k : Kernel} {T : Fin NPROC → Tree} {Kt : Tree} {i j : Fin NPROC} {va : ℕ}

/-- The entry that the hardware finds for an address of a process. -/
def Kernel.pte (k : Kernel) (i : Fin NPROC) (va : ℕ) : ℕ :=
  pteAt k.phys.mem ((k.proc i).pagetable / PGSIZE) va

theorem Inv.pte_eq (h : Inv L k T Kt) (hi : (k.proc i).state ≠ .unused) (hva : va < MAXVA) :
    k.pte i va = (T i).leaf (va / PGSIZE) := by
  have hok := h.ok hi
  rw [Kernel.pte, hok.root, mul_div_pgsize, hok.space.has.pteAt_eq hva]

theorem Inv.valid_iff (h : Inv L k T Kt) (hi : (k.proc i).state ≠ .unused) (hva : va < TRAPFRAME) :
    has (k.pte i va) PTE_V = true ↔ va < pgRoundUp (k.proc i).sz := by
  have hok := h.ok hi
  have hpage : va / PGSIZE < userPages := by
    rw [trapframe_eq] at hva
    exact (Nat.div_lt_iff_lt_mul pgsize_pos).mpr hva
  have hmax : va < MAXVA := hva.trans (by decide)
  rw [h.pte_eq hi hmax, has_V, hok.space.valid_iff hpage, pgRoundUp_eq hok.space.lt_ram,
    Nat.div_lt_iff_lt_mul pgsize_pos]

theorem Inv.userLeaf (h : Inv L k T Kt) (hi : (k.proc i).state ≠ .unused)
    (hva : va < pgRoundUp (k.proc i).sz) : UserLeaf (k.pte i va) := by
  have hok := h.ok hi
  rw [pgRoundUp_eq hok.space.lt_ram, ← Nat.div_lt_iff_lt_mul pgsize_pos] at hva
  have hmax : va < MAXVA := by
    have := hok.space.lt_ram
    unfold MAXVA
    unfold PGSIZE at hva
    omega
  rw [h.pte_eq hi hmax]
  exact hok.space.mapped _ hva

theorem Inv.pte_top (h : Inv L k T Kt) (hi : (k.proc i).state ≠ .unused) :
    k.pte i TRAPFRAME = mkPte (k.proc i).tf ((PTE_R ||| PTE_W) ||| PTE_V) ∧
      k.pte i TRAMPOLINE = mkPte (L.trampoline / PGSIZE) ((PTE_R ||| PTE_X) ||| PTE_V) := by
  have hok := h.ok hi
  rw [h.pte_eq hi (by decide), h.pte_eq hi (by decide), trapframe_eq, trampoline_eq, mul_div_pgsize,
    mul_div_pgsize, hok.space.top _ le_rfl, hok.space.top _ (by omega)]
  exact ⟨topEntries_self, topEntries_succ⟩

theorem Inv.pt_disjoint (h : Inv L k T Kt) (hi : (k.proc i).state ≠ .unused)
    (hj : (k.proc j).state ≠ .unused) (hij : j ≠ i) {p : ℕ} (hp : (k.tree i).pt p ≠ 0) :
    (k.tree i).pt p = 1 ∧ (k.tree j).pt p = 0 := by
  rw [h.tree_eq hi] at hp ⊢
  rw [h.tree_eq hj]
  have hexcl := (h.ok hi).space.has.excl p hp
  rw [Kernel.rest_insert (j := j) (S := {i}) (by simpa using hij), (h.ok hj).own_eq] at hexcl
  simp only [Pi.add_apply] at hexcl
  omega

/-- The errors of the paging code that no event raises. -/
def pagingPanics : List Panic :=
  [.unmapAlign, .unmapWalk, .unmapNotMapped, .unmapNotLeaf, .uvmcopyPte, .uvmcopyPresent, .remap,
    .freewalkLeaf, .loadseg]

theorem Event.crash_not_mem {e : Event} {err : Panic} (h : e.crash k T err) :
    err ∉ pagingPanics := by
  cases e <;> simp only [Event.crash] at h
  case kvminit => obtain rfl | rfl | rfl := h <;> decide
  case virtioDiskInit => subst h; decide
  case userinit => subst h; decide
  case store => obtain ⟨rfl, -⟩ | ⟨rfl, -⟩ := h <;> decide
  case exit => obtain ⟨rfl, -⟩ := h; decide

end Shape

/-- **The shape of address spaces.** In every state of a run the page table of a live process maps the
pages below its rounded size and no others below the trapframe; these can be read, and are not both
writable and copy-on-write; the trapframe and the trampoline are mapped, not for the user; and no page
of a page table is part of another. No event ends in one of the panics of the paging code. -/
theorem space_shape {L : Layout} {mem : ℕ → Page} {k : Kernel}
    (h : Reach (Kernel.boot L mem) (Step L) (Ample L) k) :
    (∀ i, (k.proc i).state ≠ .unused →
      (∀ va, va < TRAPFRAME → (has (k.pte i va) PTE_V = true ↔ va < pgRoundUp (k.proc i).sz)) ∧
      (∀ va, va < pgRoundUp (k.proc i).sz → has (k.pte i va) PTE_R = true ∧
        ¬ (has (k.pte i va) PTE_W = true ∧ has (k.pte i va) PTE_COW = true)) ∧
      (∀ va, va = TRAPFRAME ∨ va = TRAMPOLINE →
        has (k.pte i va) PTE_V = true ∧ has (k.pte i va) PTE_U = false) ∧
      ∀ j, (k.proc j).state ≠ .unused → j ≠ i → ∀ p, (k.tree i).pt p ≠ 0 →
        (k.tree i).pt p = 1 ∧ (k.tree j).pt p = 0) ∧
    ∀ (e : Event) err, e.enabled k = true → (e.code L).run k = .error err → err ∉ pagingPanics := by
  obtain ⟨T, Kt, hinv⟩ := reach_inv h
  refine ⟨fun i hi => ⟨fun va hva => hinv.valid_iff hi hva, fun va hva => ?_, ?_,
    fun j hj hij p hp => hinv.pt_disjoint hi hj hij hp⟩, fun e err he hrun => ?_⟩
  · have hleaf := hinv.userLeaf hi hva
    rw [has_R, has_W, has_COW]
    exact ⟨hleaf.read, hleaf.cow⟩
  · obtain ⟨htf, htr⟩ := hinv.pte_top hi
    rintro va (rfl | rfl)
    · rw [htf, has_V, has_U, testBit_mkPte_lt (by decide) (by decide),
        testBit_mkPte_lt (by decide) (by decide)]
      decide
    · rw [htr, has_V, has_U, testBit_mkPte_lt (by decide) (by decide),
        testBit_mkPte_lt (by decide) (by decide)]
      decide
  · exact Event.crash_not_mem ((Event.spec hinv he).of_error hrun)

theorem space_shape_forkStore : ∃ k : Kernel, (k.proc proc1).state ≠ .unused ∧
    ∀ va, va < TRAPFRAME →
      (has (k.pte proc1 va) PTE_V = true ↔ va < pgRoundUp (k.proc proc1).sz) := by
  obtain ⟨k, hk, -, hrunnable⟩ := forkStore_possible
  have hlive : (k.proc proc1).state ≠ .unused := by
    rw [hrunnable]
    decide
  exact ⟨k, hlive, ((space_shape (forkStore_reach hk)).1 proc1 hlive).1⟩

end Xv6.Process
