import Xv6.Lib.Run
import Xv6.Param
import Xv6.Vm.Kalloc

/-!
# Overlapping calls of `kalloc` and `kfree`

`kfree` takes no lock for the reference counts: it decrements the count of the page in one access and
tests it in another (`kernel/kalloc.c`). Here a call is split into its accesses to shared data, and the
accesses of different processes come in any order. `kalloc` gives its caller a reference, `uvmcopy` makes
a second one of one that exists, and a caller gives one up when it calls `kfree`.

If no call takes a count to 0 while another one for the same page is between its decrement and its test
(`Calm`), every page stays accounted for (`Inv.step`, `Inv.accounted`). The condition cannot be left out:
two such calls both find the count 0 and both put the page on the list, which then leads from the page to
itself (`Inv.not_calm`). A call that is not interrupted does what `kfree` and `kalloc` do
(`execute_kfree`, `execute_kalloc`).
-/

namespace Xv6.Vm

open Function Lib

/-! ## The accesses -/

section Accesses

variable (s : Phys) (p : ℕ)

/-- The decrement at the start of `kfree`. -/
def Phys.drop : Phys :=
  if s.refcnt p > 0 then { s with refcnt := update s.refcnt p (s.refcnt p - 1) } else s

/-- The end of `kfree`: the page is filled with junk and becomes the first of the free list. -/
def Phys.push : Phys :=
  { s with
    mem := update s.mem p ((Bytes.fill PGSIZE 1).setLe 0 8 s.freelist)
    freelist := p * PGSIZE }

/-- The start of `kalloc`: the first page is taken off the free list. -/
def Phys.pop : Phys :=
  if s.freelist ≠ 0 then { s with freelist := (s.mem (s.freelist / PGSIZE)).le 0 8 } else s

/-- The end of `kalloc`, outside the lock: the page is filled with junk and its count is set. -/
def Phys.count : Phys :=
  if p ≠ 0 then
    { s with mem := update s.mem p (Bytes.fill PGSIZE 5), refcnt := update s.refcnt p 1 }
  else { s with refcnt := update s.refcnt p 1, oom := true }

/-- The increment in `uvmcopy`. -/
def Phys.share : Phys := { s with refcnt := update s.refcnt p (s.refcnt p + 1) }

end Accesses

/-! ## The machine -/

namespace Overlap

/-- Where a process stands in a call of `kalloc` or `kfree`. -/
inductive Stage
  | idle
  /-- `kfree` has decremented the count of the page; the test is next. -/
  | dropped (p : ℕ)
  /-- `kfree` has found the count to be 0. -/
  | freeing (p : ℕ)
  /-- `kalloc` has taken the page off the list, or 0 from an empty one; the count is next. -/
  | taken (p : ℕ)
  deriving DecidableEq

/-- The page that a call works on. -/
def Stage.page : Stage → Option ℕ
  | .idle => none
  | .dropped p | .freeing p => some p
  | .taken p => if p = 0 then none else some p

/-- Memory, where each process stands, and the number of references to each page. -/
structure State where
  phys : Phys
  stage : Fin NPROC → Stage
  held : ℕ → ℕ

/-- The accesses of process `c`. -/
inductive Act
  | drop (c : Fin NPROC) (p : ℕ)
  | test (c : Fin NPROC)
  | push (c : Fin NPROC)
  | pop (c : Fin NPROC)
  | count (c : Fin NPROC)
  | share (p : ℕ)

/-- Nobody has a page yet. -/
def State.start (s : Phys) : State := ⟨s, fun _ => .idle, fun _ => 0⟩

/-- One access. A panic ends the run. -/
def step (L : Layout) (s : State) : Act → Option State
  | .drop c p =>
    match s.stage c with
    | .idle =>
      if s.held p ≠ 0 then
        some ⟨s.phys.drop p, update s.stage c (.dropped p), update s.held p (s.held p - 1)⟩
      else none
    | _ => none
  | .test c =>
    match s.stage c with
    | .dropped p =>
      if s.phys.refcnt p > 0 then some { s with stage := update s.stage c .idle }
      else if p * PGSIZE < L.kend ∨ p * PGSIZE ≥ PHYSTOP then none
      else some { s with stage := update s.stage c (.freeing p) }
    | _ => none
  | .push c =>
    match s.stage c with
    | .freeing p => some { s with phys := s.phys.push p, stage := update s.stage c .idle }
    | _ => none
  | .pop c =>
    match s.stage c with
    | .idle => some { s with
        phys := s.phys.pop, stage := update s.stage c (.taken (s.phys.freelist / PGSIZE)) }
    | _ => none
  | .count c =>
    match s.stage c with
    | .taken p => some ⟨s.phys.count p, update s.stage c .idle,
        if p = 0 then s.held else update s.held p (s.held p + 1)⟩
    | _ => none
  | .share p =>
    if s.held p ≠ 0 then
      some { s with phys := s.phys.share p, held := update s.held p (s.held p + 1) }
    else none

/-- No call takes the count of a page to 0 while another one for the page is between its decrement and
its test. -/
def Calm (s : State) : Act → Prop
  | .drop _ p => s.phys.refcnt p = 1 → ∀ c, s.stage c ≠ .dropped p
  | _ => True

instance (s : State) : DecidablePred (Calm s)
  | .drop _ p => inferInstanceAs (Decidable (s.phys.refcnt p = 1 → ∀ c, s.stage c ≠ .dropped p))
  | .test _ | .push _ | .pop _ | .count _ | .share _ => inferInstanceAs (Decidable True)

/-- A page of RAM is on the free list, once, and nobody has it, or it is not on the list and its count is
the number of references to it, or it is on its way to or from the list in exactly one call. -/
def Accounted (L : Layout) (s : State) : Prop :=
  ∃ l, Chain s.phys.mem s.phys.freelist l ∧ l.Nodup ∧ (∀ p ∈ l, InRam L p) ∧ ∀ p, InRam L p →
    (p ∈ l ∧ s.held p = 0 ∧ ∀ c, (s.stage c).page ≠ some p) ∨
    (p ∉ l ∧ s.held p ≠ 0 ∧ s.phys.refcnt p = s.held p) ∨
    (p ∉ l ∧ s.held p = 0 ∧ ∃! c, (s.stage c).page = some p)

/-- Nobody has the page or is about to move it. -/
def State.Free (L : Layout) (s : State) (p : ℕ) : Prop :=
  InRam L p ∧ s.held p = 0 ∧ ∀ c, (s.stage c).page ≠ some p

/-- What holds of one page in a calm run. If it has no reference, at most one call moves it; and a call for
a page that still has references has not yet tested the count. -/
structure Good (L : Layout) (s : State) (p : ℕ) : Prop where
  refcnt : InRam L p → s.phys.refcnt p = s.held p
  inRam : s.held p ≠ 0 → InRam L p
  page_inRam : ∀ c, (s.stage c).page = some p → InRam L p
  unique : s.held p = 0 → ∀ c c', (s.stage c).page = some p → (s.stage c').page = some p → c = c'
  early : s.held p ≠ 0 → ∀ c, (s.stage c).page = some p → s.stage c = .dropped p

/-- The invariant of calm runs. -/
structure Inv (L : Layout) (s : State) : Prop where
  free : ∃ l, Chain s.phys.mem s.phys.freelist l ∧ l.Nodup ∧ ∀ p, p ∈ l ↔ s.Free L p
  good : ∀ p, Good L s p

section Runs

variable {L : Layout} {s s' : State} {c : Fin NPROC} {p : ℕ}

@[simp]
theorem page_idle : Stage.idle.page = none := rfl

@[simp]
theorem page_dropped : (Stage.dropped p).page = some p := rfl

@[simp]
theorem page_freeing : (Stage.freeing p).page = some p := rfl

@[simp]
theorem page_taken : (Stage.taken p).page = if p = 0 then none else some p := rfl

@[simp]
theorem page_ite {P : Prop} [Decidable P] {x y : Stage} :
    (if P then x else y).page = if P then x.page else y.page := apply_ite ..

/-- An access that leaves the list as it is, and every page on it. -/
theorem Inv.of_same_list (h : Inv L s) (hlist : s'.phys.freelist = s.phys.freelist)
    (hmem : ∀ q, s.Free L q → s'.phys.mem q = s.phys.mem q) (hfree : ∀ q, s'.Free L q ↔ s.Free L q)
    (hgood : ∀ q, Good L s' q) : Inv L s' := by
  obtain ⟨l, hl, hnd, hiff⟩ := h.free
  refine ⟨⟨l, ?_, hnd, fun q => (hiff q).trans (hfree q).symm⟩, hgood⟩
  rw [hlist]
  exact hl.congr fun q hq => hmem q ((hiff q).mp hq)

theorem Inv.drop (h : Inv L s) (hc : s.stage c = .idle) (hp : s.held p ≠ 0)
    (hcalm : s.phys.refcnt p = 1 → ∀ c, s.stage c ≠ .dropped p) :
    Inv L ⟨s.phys.drop p, update s.stage c (.dropped p), update s.held p (s.held p - 1)⟩ := by
  have hram := (h.good p).inRam hp
  have href := (h.good p).refcnt hram
  have hdrop : s.phys.drop p = { s.phys with refcnt := update s.phys.refcnt p (s.phys.refcnt p - 1) } :=
    if_pos (by omega)
  have hpage : (s.stage c).page = none := by rw [hc]; rfl
  rw [hdrop]
  refine h.of_same_list rfl (fun _ _ => rfl) (fun q => ?_) fun q => ?_
  · simp only [State.Free, update_apply, page_ite, page_dropped]
    grind
  · -- If the last reference is gone, by calmness nobody else is in a call for the page.
    obtain ⟨h1, h2, h3, h4, h5⟩ := h.good q
    constructor <;> simp only [update_apply, page_ite, page_dropped] <;> grind

theorem Inv.tested (h : Inv L s) (hc : s.stage c = .dropped p) (hpos : s.phys.refcnt p > 0) :
    Inv L { s with stage := update s.stage c .idle } := by
  have hpage : (s.stage c).page = some p := by rw [hc]; rfl
  have href := (h.good p).refcnt ((h.good p).page_inRam c hpage)
  refine h.of_same_list rfl (fun _ _ => rfl) (fun q => ?_) fun q => ?_
  · simp only [State.Free, update_apply, page_ite, page_idle]
    grind
  · obtain ⟨h1, h2, h3, h4, h5⟩ := h.good q
    constructor <;> simp only [update_apply, page_ite, page_idle] <;> grind

theorem Inv.last (h : Inv L s) (hc : s.stage c = .dropped p) (hzero : ¬ s.phys.refcnt p > 0) :
    Inv L { s with stage := update s.stage c (.freeing p) } := by
  have hpage : (s.stage c).page = some p := by rw [hc]; rfl
  have href := (h.good p).refcnt ((h.good p).page_inRam c hpage)
  refine h.of_same_list rfl (fun _ _ => rfl) (fun q => ?_) fun q => ?_
  · simp only [State.Free, update_apply, page_ite, page_freeing]
    grind
  · obtain ⟨h1, h2, h3, h4, h5⟩ := h.good q
    constructor <;> simp only [update_apply, page_ite, page_freeing] <;> grind

/-- A page that a call has taken off the list, or is about to put on it, has no reference. -/
theorem Inv.held_eq_zero (h : Inv L s) (hpage : (s.stage c).page = some p) (hne : s.stage c ≠ .dropped p) :
    s.held p = 0 := by
  by_contra hheld
  exact hne ((h.good p).early hheld c hpage)

theorem Inv.push (h : Inv L s) (hc : s.stage c = .freeing p) :
    Inv L { s with phys := s.phys.push p, stage := update s.stage c .idle } := by
  have hpage : (s.stage c).page = some p := by rw [hc]; rfl
  have hram := (h.good p).page_inRam c hpage
  have hheld := h.held_eq_zero hpage (by simp [hc])
  have hother := (h.good p).unique hheld c
  constructor
  · obtain ⟨l, hl, hnd, hiff⟩ := h.free
    have hpl : p ∉ l := fun hmem => ((hiff p).mp hmem).2.2 c hpage
    refine ⟨p :: l, hl.push (fun q hq => ((hiff q).mp hq).1) hram hpl, List.nodup_cons.mpr ⟨hpl, hnd⟩,
      fun q => ?_⟩
    simp only [List.mem_cons, hiff, State.Free, update_apply, page_ite, page_idle]
    grind
  · intro q
    obtain ⟨h1, h2, h3, h4, h5⟩ := h.good q
    constructor <;> simp only [Phys.push, update_apply, page_ite, page_idle] <;> grind

theorem Inv.pop (h : Inv L s) (hc : s.stage c = .idle) :
    Inv L { s with phys := s.phys.pop, stage := update s.stage c (.taken (s.phys.freelist / PGSIZE)) } := by
  have hpage : (s.stage c).page = none := by rw [hc]; rfl
  obtain ⟨l, hl, hnd, hiff⟩ := h.free
  cases l with
  | nil =>
    have hzero : s.phys.freelist = 0 := hl
    have hpop : s.phys.pop = s.phys := if_neg (by simp [hzero])
    rw [hpop, hzero, Nat.zero_div]
    refine h.of_same_list rfl (fun _ _ => rfl) (fun q => ?_) fun q => ?_
    · simp only [State.Free, update_apply, page_ite, page_taken, if_true]
      grind
    · obtain ⟨h1, h2, h3, h4, h5⟩ := h.good q
      constructor <;> simp only [update_apply, page_ite, page_taken, if_true] <;> grind
  | cons p l =>
    obtain ⟨ha, hp0, hl⟩ := hl
    have hfirst : s.phys.freelist / PGSIZE = p := by rw [ha, mul_div_pgsize]
    have hpop : s.phys.pop = { s.phys with freelist := (s.phys.mem p).le 0 8 } := by
      rw [Phys.pop, if_pos (by rw [ha]; exact Nat.mul_ne_zero hp0 pgsize_pos.ne'), hfirst]
    obtain ⟨hram, hheld, hnone⟩ := (hiff p).mp (by simp)
    obtain ⟨hpl, hnd⟩ := List.nodup_cons.mp hnd
    rw [hpop, hfirst]
    refine ⟨⟨l, hl, hnd, fun q => ?_⟩, fun q => ?_⟩
    · have := hiff q
      simp only [State.Free, update_apply, page_ite, page_taken, if_neg hp0] at this ⊢
      grind
    · obtain ⟨h1, h2, h3, h4, h5⟩ := h.good q
      constructor <;> simp only [update_apply, page_ite, page_taken, if_neg hp0] <;> grind

theorem Inv.count (h : Inv L s) (hc : s.stage c = .taken p) :
    Inv L ⟨s.phys.count p, update s.stage c .idle,
      if p = 0 then s.held else update s.held p (s.held p + 1)⟩ := by
  by_cases hp0 : p = 0
  · -- The list was empty; the count of page 0, which the allocator does not manage, is set.
    subst hp0
    have hpage : (s.stage c).page = none := by rw [hc]; rfl
    simp only [Phys.count, ne_eq, not_true_eq_false, if_false, if_true]
    refine h.of_same_list rfl (fun _ _ => rfl) (fun q => ?_) fun q => ?_
    · simp only [State.Free, update_apply, page_ite, page_idle]
      grind
    · have hne : InRam L q → q ≠ 0 := InRam.pos
      obtain ⟨h1, h2, h3, h4, h5⟩ := h.good q
      constructor <;> simp only [update_apply, page_ite, page_idle] <;> grind
  · have hpage : (s.stage c).page = some p := by rw [hc]; exact if_neg hp0
    have hram := (h.good p).page_inRam c hpage
    have hheld := h.held_eq_zero hpage (by simp [hc])
    have hother := (h.good p).unique hheld c
    simp only [Phys.count, ne_eq, hp0, not_false_eq_true, if_true, if_false]
    refine h.of_same_list rfl (fun q hq => update_of_ne ?_ _ _) (fun q => ?_) fun q => ?_
    · rintro rfl
      exact hq.2.2 c hpage
    · simp only [State.Free, update_apply, page_ite, page_idle]
      grind
    · obtain ⟨h1, h2, h3, h4, h5⟩ := h.good q
      constructor <;> simp only [update_apply, page_ite, page_idle] <;> grind

theorem Inv.share (h : Inv L s) (hp : s.held p ≠ 0) :
    Inv L { s with phys := s.phys.share p, held := update s.held p (s.held p + 1) } := by
  refine h.of_same_list rfl (fun _ _ => rfl) (fun q => ?_) fun q => ?_
  · simp only [State.Free, update_apply]
    grind
  · obtain ⟨h1, h2, h3, h4, h5⟩ := h.good q
    constructor <;> simp only [Phys.share, update_apply] <;> grind

/-- Every access of a calm run keeps the invariant. -/
theorem Inv.step {a : Act} (h : Inv L s) (hcalm : Calm s a) (hs : Overlap.step L s a = some s') :
    Inv L s' := by
  cases a with
  | drop c p =>
    simp only [Overlap.step] at hs
    split at hs
    next hc =>
      split_ifs at hs with hp
      cases hs
      exact h.drop hc hp hcalm
    next => cases hs
  | test c =>
    simp only [Overlap.step] at hs
    split at hs
    next p hc =>
      split_ifs at hs with hpos
      · cases hs
        exact h.tested hc hpos
      · cases hs
        exact h.last hc hpos
    next => cases hs
  | push c =>
    simp only [Overlap.step] at hs
    split at hs
    next p hc =>
      cases hs
      exact h.push hc
    next => cases hs
  | pop c =>
    simp only [Overlap.step] at hs
    split at hs
    next hc =>
      cases hs
      exact h.pop hc
    next => cases hs
  | count c =>
    simp only [Overlap.step] at hs
    split at hs
    next p hc =>
      cases hs
      exact h.count hc
    next => cases hs
  | share p =>
    simp only [Overlap.step] at hs
    split_ifs at hs with hp
    cases hs
    exact h.share hp

/-- The invariant accounts for every page. -/
theorem Inv.accounted (h : Inv L s) : Accounted L s := by
  obtain ⟨l, hl, hnd, hiff⟩ := h.free
  refine ⟨l, hl, hnd, fun p hp => ((hiff p).mp hp).1, fun p hp => ?_⟩
  by_cases hheld : s.held p = 0
  · by_cases hmove : ∃ c, (s.stage c).page = some p
    · obtain ⟨c, hc⟩ := hmove
      exact .inr (.inr ⟨fun hmem => ((hiff p).mp hmem).2.2 c hc, hheld, c, hc,
        fun c' hc' => (h.good p).unique hheld c' c hc' hc⟩)
    · push Not at hmove
      exact .inl ⟨(hiff p).mpr ⟨hp, hheld, hmove⟩, hheld, hmove⟩
  · exact .inr (.inl ⟨fun hmem => hheld ((hiff p).mp hmem).2.1, hheld, (h.good p).refcnt hp⟩)

/-- The invariant holds after `kinit`. -/
theorem Inv.start {s : Phys} (h : Acct L s 0) : Inv L (.start s) := by
  obtain ⟨l, hl, hnd, hmem⟩ := h.free
  refine ⟨⟨l, hl, hnd, fun p => ?_⟩, fun p => ⟨h.refcnt p, fun hp => absurd rfl hp,
    fun c hc => (by cases hc), fun _ c c' hc => (by cases hc), fun hp => absurd rfl hp⟩⟩
  rw [hmem]
  exact ⟨fun hp => ⟨hp.1, rfl, fun c => by simp [State.start]⟩, fun hp => ⟨hp.1, rfl⟩⟩

/-! ## A page that is freed twice -/

/-- No chain goes through a page that leads to itself. -/
theorem not_chain_loop {mem : ℕ → Page} (hp : p ≠ 0) (hloop : (mem p).le 0 8 = p * PGSIZE) (l : List ℕ) :
    ¬ Chain mem (p * PGSIZE) l := by
  induction l with
  | nil => exact Nat.mul_ne_zero hp pgsize_pos.ne'
  | cons q l ih =>
    rintro ⟨heq, -, hl⟩
    obtain rfl : p = q := Nat.eq_of_mul_eq_mul_right pgsize_pos heq
    rw [hloop] at hl
    exact ih hl

/-- After an access that is not calm, the two calls can go on so that the free list has no end. -/
theorem Inv.not_calm {a : Act} (h : Inv L s) (hs : Overlap.step L s a = some s') (hcalm : ¬ Calm s a) :
    ∃ as t, execute (Overlap.step L) (fun _ _ => true) s' as = some t ∧ ¬ Accounted L t := by
  cases a with
  | drop c p =>
    simp only [Calm, Classical.not_imp, not_forall, not_not] at hcalm
    obtain ⟨href, c', hc'⟩ := hcalm
    simp only [Overlap.step] at hs
    split at hs
    next hc =>
      split_ifs at hs with hp
      cases hs
      have hram : InRam L p := (h.good p).inRam hp
      have hne : c' ≠ c := by
        rintro rfl
        cases hc.symm.trans hc'
      have hdrop : s.phys.drop p = { s.phys with refcnt := update s.phys.refcnt p 0 } := by
        rw [Phys.drop, if_pos (by omega), href]
      have hvalid : ¬ (p * PGSIZE < L.kend ∨ p * PGSIZE ≥ PHYSTOP) := fun h => hram.valid (.inr h)
      -- Both calls test the count, which is 0, before one of them pushes the page.
      obtain ⟨t, ht, hphys⟩ : ∃ t, execute (Overlap.step L) (fun _ _ => true)
          ⟨s.phys.drop p, update s.stage c (.dropped p), update s.held p (s.held p - 1)⟩
          [.test c', .test c, .push c', .push c] = some t ∧
          t.phys = ((s.phys.drop p).push p).push p := by
        simp only [execute, if_true, Overlap.step, hdrop, update_self, update_of_ne hne, hc', lt_irrefl,
          gt_iff_lt, if_false, if_neg hvalid, Option.bind_some, update_of_ne hne.symm]
        exact ⟨_, rfl, rfl⟩
      refine ⟨_, t, ht, ?_⟩
      rintro ⟨l, hl, -⟩
      rw [hphys] at hl
      refine not_chain_loop hram.pos ?_ l hl
      simp only [Phys.push, update_self]
      rw [Bytes.le_setLe _ _ _ _ (by decide), Nat.mod_eq_of_lt (hram.2.trans (by decide))]
    next => cases hs
  | _ => exact absurd trivial hcalm

/-! ## Calls that are not interrupted -/

/-- `kfree` is the accesses of one process, one after the other. -/
theorem execute_kfree (h : Inv L s) (hc : s.stage c = .idle) (hp : s.held p ≠ 0) :
    wp (kfree L (p * PGSIZE)) s.phys fun _ t => ∃ as, execute (Overlap.step L) (fun _ _ => true) s as =
      some ⟨t, s.stage, update s.held p (s.held p - 1)⟩ := by
  have hram := (h.good p).inRam hp
  have hvalid : ¬ (p * PGSIZE < L.kend ∨ p * PGSIZE ≥ PHYSTOP) := fun h => hram.valid (.inr h)
  have hback : ∀ x, update (update s.stage c x) c .idle = s.stage := fun x => by
    rw [update_idem, ← hc, update_eq_self]
  unfold kfree
  simp only [mul_div_pgsize, wp_bind, wp_modify, wp_get]
  change wp (if (s.phys.drop p).refcnt p > 0 then _ else _) (s.phys.drop p) _
  refine .ite (fun hpos => ?_) fun hzero => ?_
  · simp only [wp_pure]
    refine ⟨[.drop c p, .test c], ?_⟩
    simp only [execute, if_true, Overlap.step, hc, if_pos hp, update_self, if_pos hpos, hback,
      Option.bind_some]
  · rw [if_neg hram.valid, wp_set]
    refine ⟨[.drop c p, .test c, .push c], ?_⟩
    simp only [execute, if_true, Overlap.step, hc, if_pos hp, update_self, if_neg hzero, hback,
      if_neg hvalid, Option.bind_some, update_idem]
    rfl

/-- `kalloc` is the accesses of one process, one after the other. -/
theorem execute_kalloc (h : Inv L s) (hc : s.stage c = .idle) :
    wp kalloc s.phys fun pa t => execute (Overlap.step L) (fun _ _ => true) s [.pop c, .count c] =
      some ⟨t, s.stage,
        if pa = 0 then s.held else update s.held (pa / PGSIZE) (s.held (pa / PGSIZE) + 1)⟩ := by
  have hzero : s.phys.freelist / PGSIZE = 0 ↔ s.phys.freelist = 0 := by
    obtain ⟨l, hl, -⟩ := h.free
    cases l with
    | nil => simp [show s.phys.freelist = 0 from hl]
    | cons p l => rw [hl.1, mul_div_pgsize, Nat.mul_eq_zero, or_iff_left pgsize_pos.ne']
  have hback : ∀ x, update (update s.stage c x) c .idle = s.stage := fun x => by
    rw [update_idem, ← hc, update_eq_self]
  unfold kalloc
  simp only [wp_bind, wp_get, wp_ite, wp_set, wp_pure]
  by_cases hempty : s.phys.freelist = 0
  · simp only [execute, if_true, Overlap.step, hc, update_self, hback, Option.bind_some, Phys.pop,
      Phys.count, ne_eq, hempty, not_true_eq_false, if_false, Nat.zero_div]
  · simp only [execute, if_true, Overlap.step, hc, update_self, hback, Option.bind_some, Phys.pop,
      Phys.count, ne_eq, hzero, hempty, not_false_eq_true, if_false]

end Runs

end Overlap

end Xv6.Vm
