import Xv6.Sched.Owner

/-!
# The machine keeps the ownership of processes

Every step of the machine is a step of the abstract model of `Xv6.Sched.Owner`, or changes nothing in
it. With this go two invariants of the machine itself: threads are in the calls that they have made
(`Thread.Wf`), and the spin locks that a thread or an interrupt handler holds are held by its CPU
(`Locks`).
-/

namespace Xv6.Sched

open Function (update comp_update update_apply update_self update_of_ne update_eq_self update_idem)

/-- The abstract state of the machine. -/
def Machine.view (m : Machine) : View where
  state := fun j => (m.slot j).state
  phase := fun j => (m.thread j).phase
  making := fun j => (m.thread j).sys.making
  plock := m.plock
  mode := fun c => (m.cpu c).mode
  proc := fun c => (m.cpu c).proc

/-- A thread that was switched away, or is about to be, holds no lock besides. A thread in `sleep` holds
the lock that it gave, and has not called it from anywhere else. -/
structure Thread.Wf (p : Idx) (t : Thread) : Prop where
  calm : t.switch ≠ .none → (⟨t.sys, t.call, .none⟩ : Thread).interruptible = true
  sleep : ∀ pc chan lk, t.call = .sleep pc chan lk →
    (∃ n k, t.sys = .code {n} ∧ lk = .other n ∧ chan = .other k) ∨
      ∃ addr, t.sys = .waitScan addr false 0 ∧ lk = .wait ∧ chan = .proc p

/-- The locks that are held are held by the CPU that executes the holder. -/
@[grind cases]
structure Locks (m : Machine) : Prop where
  thread : ∀ c p lk, (m.cpu c).mode = .run p → lk ∈ (m.thread p).held → m.lock lk = some c
  irq : ∀ c L n, (m.cpu c).irq = some L → n ∈ L → m.lock (.other n) = some c
  calm : ∀ c p, (m.cpu c).irq ≠ none → (m.cpu c).mode = .run p →
    (m.thread p).interruptible = true

/-- The invariant of the machine. -/
structure Inv (m : Machine) : Prop where
  owner : Owner m.view
  wf : ∀ p, (m.thread p).Wf p
  locks : Locks m

section Views

variable (m : Machine)

theorem view_setSlot (j : Idx) (u : Slot → Slot) : (m.setSlot j u).view =
    { m.view with state := update m.view.state j (u (m.slot j)).state } :=
  congrArg (fun s => { m.view with state := s }) (comp_update Slot.state m.slot j _)

theorem view_setThread (p : Idx) (t : Thread) : (m.setThread p t).view =
    { m.view with
      phase := update m.view.phase p t.phase
      making := update m.view.making p t.sys.making } :=
  congrArg₂ (fun a b => { m.view with phase := a, making := b })
    (comp_update Thread.phase m.thread p t)
    (comp_update (fun t : Thread => t.sys.making) m.thread p t)

theorem view_setPlock (j : Idx) (o : Option Cpu) : (m.setPlock j o).view =
    { m.view with plock := update m.view.plock j o } := rfl

theorem view_setCpu (c : Cpu) (u : CpuState → CpuState) : (m.setCpu c u).view =
    { m.view with
      mode := update m.view.mode c (u (m.cpu c)).mode
      proc := update m.view.proc c (u (m.cpu c)).proc } :=
  congrArg₂ (fun a b => { m.view with mode := a, proc := b })
    (comp_update CpuState.mode m.cpu c _) (comp_update CpuState.proc m.cpu c _)

variable {m}

theorem view_setSlot_same {j : Idx} {u : Slot → Slot} (h : (u (m.slot j)).state = (m.slot j).state) :
    (m.setSlot j u).view = m.view := by
  rw [view_setSlot, h]
  exact congrArg (fun s => { m.view with state := s }) (update_eq_self j m.view.state)

theorem view_setThread_same {p : Idx} {t : Thread} (hphase : t.phase = (m.thread p).phase)
    (hmaking : t.sys.making = (m.thread p).sys.making) : (m.setThread p t).view = m.view := by
  rw [view_setThread, hphase, hmaking]
  have h1 := update_eq_self p m.view.phase
  have h2 := update_eq_self p m.view.making
  change { m.view with
    phase := update m.view.phase p (m.view.phase p)
    making := update m.view.making p (m.view.making p) } = m.view
  rw [h1, h2]

theorem view_setThread_phase {p : Idx} {t : Thread}
    (hmaking : t.sys.making = (m.thread p).sys.making) : (m.setThread p t).view =
      { m.view with phase := update m.view.phase p t.phase } := by
  rw [view_setThread, hmaking]
  exact congrArg (fun s => { m.view with phase := update m.view.phase p t.phase, making := s })
    (update_eq_self p m.view.making)

theorem view_setCpu_same {c : Cpu} {u : CpuState → CpuState} (hmode : (u (m.cpu c)).mode = (m.cpu c).mode)
    (hproc : (u (m.cpu c)).proc = (m.cpu c).proc) : (m.setCpu c u).view = m.view := by
  rw [view_setCpu, hmode, hproc]
  have h1 := update_eq_self c m.view.mode
  have h2 := update_eq_self c m.view.proc
  change { m.view with
    mode := update m.view.mode c (m.view.mode c)
    proc := update m.view.proc c (m.view.proc c) } = m.view
  rw [h1, h2]

theorem view_setCpu_mode {c : Cpu} {u : CpuState → CpuState} (hproc : (u (m.cpu c)).proc = (m.cpu c).proc) :
    (m.setCpu c u).view =
      { m.view with mode := update m.view.mode c (u (m.cpu c)).mode } := by
  rw [view_setCpu, hproc]
  exact congrArg (fun s => { m.view with
    mode := update m.view.mode c (u (m.cpu c)).mode, proc := s })
    (update_eq_self c m.view.proc)

end Views

/-! ## Locks -/

section Locks

variable {m : Machine} {c : Cpu} {p : Idx} {t d : Thread} {lk : Lk}

theorem Owner.only (h : Owner m.view) (hc : (m.cpu c).mode = .run p) (c' : Cpu)
    (hc' : (m.cpu c').mode = .run p) : c' = c := by
  refine h.unique c' c p ?_ ?_
  · change (m.cpu c').mode.slot = some p
    rw [hc', Mode.slot]
  · change (m.cpu c).mode.slot = some p
    rw [hc, Mode.slot]

theorem Thread.interruptible_iff :
    t.interruptible = true ↔ t.phase = .active ∧ t.held = ∅ ∧ t.sys.copying = none := by
  simp [-Thread.phase, -Thread.held, Thread.interruptible, and_assoc]

theorem Thread.switch_of_active (h : t.phase = .active) : t.switch = .none := by
  obtain ⟨s, k, f⟩ := t
  cases f <;> simp_all

theorem Sys.making_ne {s : Sys} (h : s.copying = none) (np : Idx) : s.making ≠ .copying np := by
  cases s <;> simp_all [Sys.copying, Sys.making]

theorem Locks.setThread (h : Locks m) (honly : ∀ c', (m.cpu c').mode = .run p → c' = c)
    (hr : m.Runs c p t) (hheld : d.held ⊆ t.held) : Locks (m.setThread p d) := by
  obtain ⟨hmode, hirq, -, ht⟩ := hr
  constructor <;> simp only [Machine.setThread, update_apply] <;> grind

theorem Locks.acquire (h : Locks m) (honly : ∀ c', (m.cpu c').mode = .run p → c' = c)
    (hr : m.Runs c p t) (hfree : m.lock lk = none) (hheld : d.held ⊆ insert lk t.held) :
    Locks ((m.setLock lk (some c)).setThread p d) := by
  obtain ⟨hmode, hirq, -, ht⟩ := hr
  constructor <;> simp only [Machine.setThread, Machine.setLock, update_apply] <;> grind

theorem Locks.release (h : Locks m) (honly : ∀ c', (m.cpu c').mode = .run p → c' = c)
    (hr : m.Runs c p t) (hlk : lk ∈ t.held) (hheld : d.held ⊆ t.held.erase lk) :
    Locks ((m.setLock lk none).setThread p d) := by
  obtain ⟨hmode, hirq, -, ht⟩ := hr
  constructor <;> simp only [Machine.setThread, Machine.setLock, update_apply] <;> grind

theorem Locks.setSlot (h : Locks m) (j : Idx) (u : Slot → Slot) : Locks (m.setSlot j u) :=
  ⟨h.thread, h.irq, h.calm⟩

theorem Locks.setPlock (h : Locks m) (j : Idx) (o : Option Cpu) : Locks (m.setPlock j o) :=
  ⟨h.thread, h.irq, h.calm⟩

theorem Locks.setCpu (h : Locks m) {u : CpuState → CpuState}
    (hmode : ∀ q, (u (m.cpu c)).mode = .run q →
      (m.cpu c).mode = .run q ∨ (m.cpu c).irq = none ∧ (m.thread q).held = ∅)
    (hirq : (u (m.cpu c)).irq = (m.cpu c).irq) : Locks (m.setCpu c u) := by
  constructor <;> simp only [Machine.setCpu, update_apply] <;> grind

theorem Locks.irqReturn (h : Locks m) (c : Cpu) :
    Locks (m.setCpu c fun x => { x with irq := none }) := by
  constructor <;> simp only [Machine.setCpu, update_apply] <;> grind

theorem Locks.fresh (h : Locks m) (hnot : ∀ c, (m.cpu c).mode ≠ .run p) :
    Locks (m.setThread p t) := by
  constructor <;> simp only [Machine.setThread, update_apply] <;> grind

end Locks

/-! ## Steps that do not touch the lock of a process -/

section Rules

variable {m m' : Machine} {c : Cpu} {p : Idx} {t d : Thread} {lk : Lk}

theorem wf_setThread (h : ∀ q, (m.thread q).Wf q) (ht : t.Wf p) (q : Idx) :
    ((m.setThread p t).thread q).Wf q := by
  by_cases hq : q = p
  · subst hq
    simpa using ht
  · simpa [hq] using h q

theorem wf_thread (s : Sys) : (Sys.thread s).Wf p := ⟨by simp, by simp⟩

theorem Thread.Wf.sleepNext {s : Sys} {pc pc' : SleepPc} {chan : Chan} {f f' : Switch}
    (h : (⟨s, .sleep pc chan lk, f⟩ : Thread).Wf p) (hf : f' = .none) :
    (⟨s, .sleep pc' chan lk, f'⟩ : Thread).Wf p := by
  subst hf
  refine ⟨by simp, ?_⟩
  rintro _ _ _ ⟨⟩
  exact h.sleep pc chan lk rfl

theorem Inv.only (h : Inv m) (hr : m.Runs c p t) (c' : Cpu) (hc' : (m.cpu c').mode = .run p) :
    c' = c := h.owner.only hr.1 c' hc'

theorem Machine.Runs.phase (hr : m.Runs c p t) : m.view.phase p = t.phase := by
  rw [← hr.2.2.2]
  rfl

theorem Machine.Runs.making (hr : m.Runs c p t) : m.view.making p = t.sys.making := by
  rw [← hr.2.2.2]
  rfl

theorem Inv.wfRuns (h : Inv m) (hr : m.Runs c p t) : t.Wf p := hr.2.2.2 ▸ h.wf p

theorem Inv.congr (h : Inv m) (hslot : m'.slot = m.slot) (hthread : m'.thread = m.thread)
    (hplock : m'.plock = m.plock) (hlock : m'.lock = m.lock) (hcpu : m'.cpu = m.cpu) : Inv m' := by
  have hview : m'.view = m.view := by simp only [Machine.view, hslot, hthread, hplock, hcpu]
  obtain ⟨howner, hwf, hlocks⟩ := h
  refine ⟨hview ▸ howner, hthread ▸ hwf, ⟨?_, ?_, ?_⟩⟩
  · rw [hthread, hlock, hcpu]
    exact hlocks.thread
  · rw [hlock, hcpu]
    exact hlocks.irq
  · rw [hthread, hcpu]
    exact hlocks.calm

theorem Inv.setSlot (h : Inv m) {j : Idx} {u : Slot → Slot}
    (hstate : (u (m.slot j)).state = (m.slot j).state) : Inv (m.setSlot j u) :=
  ⟨view_setSlot_same hstate ▸ h.owner, h.wf, h.locks.setSlot j u⟩

theorem Inv.goOn (h : Inv m) (hr : m.Runs c p t) (hphase : d.phase = t.phase)
    (hmaking : d.sys.making = t.sys.making) (hheld : d.held ⊆ t.held) (hwf : d.Wf p) :
    Inv (m.setThread p d) := by
  have ht : m.thread p = t := hr.2.2.2
  subst ht
  refine ⟨?_, wf_setThread h.wf hwf, h.locks.setThread (h.only hr) hr hheld⟩
  rw [view_setThread_same hphase hmaking]
  exact h.owner

theorem Inv.acquire (h : Inv m) (hr : m.Runs c p t) (hfree : m.lock lk = none)
    (hphase : d.phase = t.phase) (hmaking : d.sys.making = t.sys.making)
    (hheld : d.held ⊆ insert lk t.held) (hwf : d.Wf p) :
    Inv ((m.setLock lk (some c)).setThread p d) := by
  have ht : m.thread p = t := hr.2.2.2
  subst ht
  refine ⟨?_, wf_setThread h.wf hwf, h.locks.acquire (h.only hr) hr hfree hheld⟩
  rw [view_setThread_same (m := m.setLock lk (some c)) hphase hmaking]
  exact h.owner

theorem Inv.release (h : Inv m) (hr : m.Runs c p t) (hlk : lk ∈ t.held)
    (hphase : d.phase = t.phase) (hmaking : d.sys.making = t.sys.making)
    (hheld : d.held ⊆ t.held.erase lk) (hwf : d.Wf p) :
    Inv ((m.setLock lk none).setThread p d) := by
  have ht : m.thread p = t := hr.2.2.2
  subst ht
  refine ⟨?_, wf_setThread h.wf hwf, h.locks.release (h.only hr) hr hlk hheld⟩
  rw [view_setThread_same (m := m.setLock lk none) hphase hmaking]
  exact h.owner

theorem Inv.setCpu (h : Inv m) {u : CpuState → CpuState} (hmode : (u (m.cpu c)).mode = (m.cpu c).mode)
    (hproc : (u (m.cpu c)).proc = (m.cpu c).proc) (hirq : (u (m.cpu c)).irq = (m.cpu c).irq) :
    Inv (m.setCpu c u) := by
  refine ⟨?_, h.wf, h.locks.setCpu (fun q hq => .inl (hmode ▸ hq)) hirq⟩
  rw [view_setCpu_same hmode hproc]
  exact h.owner

theorem Inv.ofStep (h : Inv m) {v : View} (hstep : m.view.Step v) (hview : m'.view = v)
    (hwf : ∀ q, (m'.thread q).Wf q) (hlocks : Locks m') : Inv m' :=
  ⟨hview ▸ h.owner.step hstep, hwf, hlocks⟩

end Rules

/-! ## Steps -/

section Steps

variable {m : Machine} {c : Cpu} {p : Idx}

theorem Thread.Wf.held {t : Thread} (h : t.Wf p) (hphase : t.phase = .resume ∨ t.phase = .asleep) :
    t.held = ∅ := by
  obtain ⟨s, k, f⟩ := t
  cases f with
  | none =>
    cases k with
    | none => cases s <;> simp at hphase
    | sleep pc chan lk => cases pc <;> simp at hphase ⊢
  | yield => simp at hphase
  | forkret | yielded =>
    have hcalm := h.calm (by simp)
    simp only [Thread.interruptible, Bool.and_eq_true, decide_eq_true_eq] at hcalm
    exact hcalm.1.2

theorem Owner.runnable {v : View} (h : Owner v) (hlock : v.plock p = none)
    (hstate : v.state p = .runnable) : v.phase p = .resume ∨ v.phase p = .asleep := by
  have hnot := h.not_on hlock (by rw [hstate]; decide)
  have hallows := h.allows p
  have hon := h.on p
  cases hphase : v.phase p <;> grind

theorem Inv.scheduler (h : Inv m) (s : SchedulerStep) (hs : s.enabled m c) : Inv (s.next m c) := by
  cases s with
  | pick p =>
    rw [SchedulerStep.next]
    obtain ⟨⟨hmode, hirq, -⟩, hlock, hstate⟩ := hs
    refine h.ofStep (.pick (p := p) hmode hlock hstate) ?_ h.wf ?_
    · rw [view_setCpu, view_setSlot, view_setPlock]
    · refine Locks.setCpu ((h.locks.setPlock p _).setSlot p _) (fun q hq => ?_) ?_
      · cases hq
        exact .inr ⟨hirq, (h.wf p).held (h.owner.runnable hlock hstate)⟩
      · rfl
  | skip p =>
    rw [SchedulerStep.next]
    obtain ⟨⟨hmode, -, -⟩, -⟩ := hs
    refine h.ofStep (.scan (j := p + 1) hmode) ?_ h.wf (Locks.setCpu h.locks ?_ ?_)
    · rw [view_setCpu_mode rfl]
    · rintro q ⟨⟩
    · rfl
  | restart =>
    rw [SchedulerStep.next]
    obtain ⟨hmode, -, -⟩ := hs
    refine h.ofStep (.scan (j := 0) hmode) ?_ h.wf (Locks.setCpu h.locks ?_ ?_)
    · rw [view_setCpu_mode rfl]
    · rintro q ⟨⟩
    · rfl
  | back p =>
    rw [SchedulerStep.next]
    refine h.ofStep (.back (j := p + 1) hs.1) ?_ h.wf (Locks.setCpu (h.locks.setPlock p none) ?_ ?_)
    · rw [view_setCpu, view_setPlock]
    · rintro q ⟨⟩
    · rfl

theorem Inv.ofIrq {m' : Machine} (h : Inv m) (hview : m'.view = m.view) (hthread : m'.thread = m.thread)
    (hlocks : Locks m') : Inv m' :=
  ⟨hview ▸ h.owner, hthread ▸ h.wf, hlocks⟩

theorem Inv.irq (h : Inv m) (s : IrqStep) (hs : s.enabled m c) : Inv (s.next m c) := by
  have hlocks := h.locks
  cases s with
  | enter =>
    obtain ⟨hon, hirq, -⟩ := hs
    refine h.ofIrq (view_setCpu_same rfl rfl) rfl ?_
    rw [Machine.interruptible] at hon
    constructor <;> simp only [IrqStep.next, Machine.setCpu, update_apply] <;> grind
  | acquire n =>
    obtain ⟨hirq, -, hfree⟩ := hs
    obtain ⟨L, hL⟩ := Option.ne_none_iff_exists'.mp hirq
    refine h.ofIrq (view_setCpu_same rfl rfl) rfl ?_
    constructor <;> simp only [IrqStep.next, Machine.setCpu, Machine.setLock, update_apply,
      hL, Option.map_some] <;> grind
  | release n =>
    obtain ⟨⟨L, hL, hn⟩, -⟩ := hs
    rw [Option.mem_def] at hL
    refine h.ofIrq (view_setCpu_same rfl rfl) rfl ?_
    constructor <;> simp only [IrqStep.next, Machine.setCpu, Machine.setLock, update_apply,
      hL, Option.map_some] <;> grind [Thread.interruptible]
  | wakeup k =>
    rw [IrqStep.next]
    refine Inv.setCpu h ?_ ?_ ?_ <;> rfl
  | «return» => exact h.ofIrq (view_setCpu_same rfl rfl) rfl (h.locks.irqReturn c)
  | yield p =>
    rw [IrqStep.next]
    obtain ⟨hirq, hwake, hmode, hlock⟩ := hs
    obtain ⟨hphase, hheld, hcopy⟩ :=
      Thread.interruptible_iff.mp (h.locks.calm c p (by rw [hirq]; simp) hmode)
    have hsame : (⟨(m.thread p).sys, (m.thread p).call, .none⟩ : Thread) = m.thread p := by
      rw [← Thread.switch_of_active hphase]
    refine h.ofStep (.lock (p := p) hmode hlock hphase (Sys.making_ne hcopy) (.inr ⟨rfl, rfl⟩)) ?_
      (wf_setThread h.wf ⟨fun _ => ?_, (h.wf p).sleep⟩) ?_
    · rw [view_setThread_phase (by rfl), view_setCpu_same rfl rfl, view_setSlot, view_setPlock]
      rfl
    · rw [hsame]
      exact h.locks.calm c p (by rw [hirq]; simp) hmode
    · have hheld' : ({ m.thread p with switch := .yield } : Thread).held = ∅ := hheld
      have honly := h.owner.only hmode
      constructor <;> simp only [Machine.setThread, Machine.setCpu, Machine.setSlot, Machine.setPlock,
        update_apply] <;> grind

/-! ## Threads -/

theorem Inv.switch (h : Inv m) {s : Sys} {k : Call} (a : SwitchStep) (hs : a.enabled m c p s k) :
    Inv (a.next m c p s k) := by
  -- The two returns from a switch are alike.
  have hreturn : ∀ f : Switch, f = .yielded ∨ f = .forkret → m.Runs c p ⟨s, k, f⟩ →
      Inv ((m.setPlock p none).setThread p ⟨s, k, .none⟩) := by
    intro f hf hr
    have hcalm := (h.wfRuns hr).calm (by rcases hf with rfl | rfl <;> simp)
    obtain ⟨hphase, -, -⟩ := Thread.interruptible_iff.mp hcalm
    have hres : m.view.phase p = .resume := by
      rw [hr.phase]
      rcases hf with rfl | rfl <;> rfl
    refine h.ofStep (.unlock (p := p) hr.1 (.inl hres)) ?_
      (wf_setThread h.wf ⟨by simp, (h.wfRuns hr).sleep⟩)
      ((h.locks.setPlock p none).setThread (h.only hr) hr subset_rfl)
    rw [view_setThread_phase (by exact hr.making.symm), view_setPlock, hphase]
  cases a with
  | sched =>
    have hr : m.Runs c p ⟨s, k, .yield⟩ := hs
    have hl := (h.locks.setThread (d := ⟨s, k, .yielded⟩) (h.only hr) hr subset_rfl)
    refine h.ofStep (.sched (p := p) hr.1 (.inl ⟨hr.phase, rfl⟩)) ?_
      (wf_setThread h.wf ⟨fun _ => (h.wfRuns hr).calm (by simp), (h.wfRuns hr).sleep⟩) ?_
    · rw [SwitchStep.next, view_setThread_phase (by exact hr.making.symm), view_setCpu_mode rfl]
      rfl
    · change Locks ((m.setThread p ⟨s, k, .yielded⟩).setCpu c fun x => { x with mode := .back p })
      refine Locks.setCpu hl ?_ ?_
      · rintro q ⟨⟩
      · rfl
  | yielded => exact hreturn .yielded (.inl rfl) hs
  | forkret => exact hreturn .forkret (.inr rfl) hs

theorem Inv.code (h : Inv m) {L : Finset ℕ} (a : CodeStep) (hs : a.enabled m c p L) :
    Inv (a.next m c p L) := by
  cases a with
  | acquire n =>
    obtain ⟨hr, hfree⟩ := hs
    refine h.acquire hr hfree rfl rfl ?_ (wf_thread _)
    simp [Finset.image_insert]
  | release n =>
    obtain ⟨hr, hn⟩ := hs
    refine h.release hr ?_ rfl rfl ?_ (wf_thread _)
    · simpa using hn
    · intro lk hlk
      simp only [Thread.held, Sys.locks, Call.released, Finset.mem_image, Finset.mem_erase,
        Bool.false_eq_true, if_false] at hlk ⊢
      grind
  | sleep n k =>
    obtain ⟨hr, rfl⟩ := hs
    refine h.goOn hr rfl rfl subset_rfl ⟨by simp, ?_⟩
    rintro _ _ _ ⟨⟩
    exact .inl ⟨n, k, rfl, rfl, rfl⟩
  | wakeup k =>
    rw [CodeStep.next]
    refine Inv.setCpu h ?_ ?_ ?_ <;> rfl
  | setkilled | grow sz pagetable =>
    rw [CodeStep.next]
    exact Inv.setSlot h (by rfl)
  | exit status =>
    have := h.goOn (d := Sys.thread (.exit status)) hs.1 rfl rfl (by simp)
      (wf_thread _)
    exact this.congr rfl rfl rfl rfl rfl
  | _ => exact h.goOn hs.1 rfl rfl (by simp) (wf_thread _)

theorem Thread.Wf.sys {s : Sys} {pc : SleepPc} {chan : Chan} {lk : Lk} {f : Switch}
    (h : (⟨s, .sleep pc chan lk, f⟩ : Thread).Wf p) :
    s.locks = {lk} ∧ s.phase = .active ∧ s.making = .none := by
  rcases h.sleep pc chan lk rfl with ⟨n, k, rfl, rfl, -⟩ | ⟨addr, rfl, rfl, -⟩
  · simp [Sys.making]
  · simp [Sys.making]

theorem Inv.sleep (h : Inv m) {s : Sys} {pc : SleepPc} {chan : Chan} {lk : Lk}
    (hs : sleepEnabled m c p s pc chan lk) : Inv (sleepNext m c p s pc chan lk) := by
  obtain ⟨hr, hpc⟩ := hs
  have hwf := h.wfRuns hr
  obtain ⟨hlocks, hsys, hmaking⟩ := hwf.sys
  have hnext : ∀ pc', (⟨s, .sleep pc' chan lk, .none⟩ : Thread).Wf p := fun pc' => hwf.sleepNext rfl
  cases pc with
  | lock =>
    rw [sleepNext]
    have hnot : ∀ np, m.view.making p ≠ .copying np := by
      rw [hr.making, hmaking]
      simp
    refine h.ofStep (.lock (p := p) hr.1 hpc hr.phase hnot (.inl ⟨rfl, rfl⟩)) ?_
      (wf_setThread h.wf (hnext _)) ((h.locks.setPlock p (some c)).setThread (h.only hr) hr subset_rfl)
    rw [view_setThread_phase (by exact hr.making.symm), view_setPlock, update_eq_self]
    rfl
  | unlock =>
    refine h.release hr ?_ rfl rfl ?_ (hnext _)
    · simp [-Sys.locks, hlocks]
    · simp
  | set =>
    rw [sleepNext]
    refine h.ofStep (.set (p := p) hr.1 hr.phase (.inl ⟨rfl, rfl⟩)) ?_ (wf_setThread h.wf (hnext _))
      ((h.locks.setSlot p _).setThread (h.only hr) hr (by simp))
    rw [view_setThread_phase (by exact hr.making.symm), view_setSlot]
    rfl
  | sched =>
    have hl := h.locks.setThread (d := ⟨s, .sleep .tidy chan lk, .none⟩) (h.only hr) hr
      (by simp)
    refine h.ofStep (.sched (p := p) hr.1 (.inr (.inl ⟨hr.phase, rfl⟩))) ?_
      (wf_setThread h.wf (hnext _)) ?_
    · rw [sleepNext, view_setThread_phase (by exact hr.making.symm), view_setCpu_mode rfl]
      rfl
    · change Locks ((m.setThread p ⟨s, .sleep .tidy chan lk, .none⟩).setCpu c fun x =>
        { x with mode := .back p })
      refine Locks.setCpu hl ?_ ?_
      · rintro q ⟨⟩
      · rfl
  | tidy =>
    rw [sleepNext]
    refine h.ofStep (.unlock (p := p) hr.1 (.inr hr.phase)) ?_ (wf_setThread h.wf (hnext _))
      (((h.locks.setSlot p _).setPlock p none).setThread (h.only hr) hr (by simp))
    rw [view_setThread_phase (by exact hr.making.symm), view_setPlock, view_setSlot_same (by rfl)]
    rfl
  | relock =>
    refine h.acquire hr hpc hsys rfl ?_ (wf_thread _)
    simp [-Sys.locks, hlocks]

theorem Inv.wake (h : Inv m) {i : Idx} {u : Slot → Slot} (hlock : m.plock i = none)
    (hu : (u (m.slot i)).state = (m.slot i).state ∨
      (m.slot i).state = .sleeping ∧ (u (m.slot i)).state = .runnable) : Inv (m.setSlot i u) := by
  rcases hu with hsame | ⟨hsleep, hrun⟩
  · exact h.setSlot hsame
  · refine h.ofStep (.wake (p := i) hlock hsleep) ?_ h.wf (h.locks.setSlot i u)
    rw [view_setSlot, hrun]

theorem Inv.wakeup (h : Inv m) {chan : Chan} (a : WakeupStep) (hs : a.enabled m c chan) :
    Inv (a.next m c chan) := by
  cases a with
  | visit i =>
    rw [WakeupStep.next]
    refine Inv.setCpu (h.wake hs.2.2 ?_) ?_ ?_ ?_
    · rw [Slot.wakeup]
      split_ifs with hsleep
      · exact .inr ⟨hsleep.1, rfl⟩
      · exact .inl rfl
    all_goals rfl
  | skip i | «return» =>
    rw [WakeupStep.next]
    refine Inv.setCpu h ?_ ?_ ?_ <;> rfl

theorem Inv.kill (h : Inv m) {pid : BitVec 32} (a : KillStep) (hs : a.enabled m c p pid) :
    Inv (a.next m p pid) := by
  cases a with
  | hit i =>
    obtain ⟨hr, hlock, -⟩ := hs
    have hinv : Inv (m.setSlot i Slot.kill) := by
      refine h.wake hlock ?_
      by_cases hsleep : (m.slot i).state = .sleeping
      · exact .inr ⟨hsleep, by simp [Slot.kill, hsleep]⟩
      · exact .inl (by simp [Slot.kill, hsleep])
    have := hinv.goOn (d := idle) hr rfl rfl (by simp) (wf_thread _)
    exact this.congr rfl rfl rfl rfl rfl
  | miss i => exact h.goOn hs.1 rfl rfl subset_rfl (wf_thread _)
  | fail => exact h.goOn hs rfl rfl (by simp) (wf_thread _)

theorem Thread.eq_of_dead {t : Thread} (h : t.phase = .dead) : t = Sys.thread .dead := by
  obtain ⟨s, k, f⟩ := t
  cases f with
  | none =>
    cases k with
    | none => cases s <;> simp_all
    | sleep pc chan lk => cases pc <;> simp at h
  | _ => simp at h

theorem view_setThread_making {t : Thread} (hphase : t.phase = (m.thread p).phase) :
    (m.setThread p t).view =
      { m.view with making := update m.view.making p t.sys.making } := by
  rw [view_setThread, hphase]
  exact congrArg (fun s => { m.view with
    phase := s, making := update m.view.making p t.sys.making })
    (update_eq_self p m.view.phase)

theorem Inv.new_not_on (h : Inv m) {np : Idx} (hmaking : m.view.making p = .copying np) (c : Cpu) :
    (m.cpu c).mode ≠ .run np := by
  intro hc
  obtain ⟨-, hstate, hphase⟩ := h.owner.copying p np hmaking
  have hon := h.owner.run c np hc
  rw [hstate, hphase] at hon
  simp [Phase.OnCpu] at hon

theorem Inv.fork (h : Inv m) (a : ForkStep) (hs : a.enabled m c p) : Inv (a.next m c p) := by
  cases a with
  | found i =>
    obtain ⟨hr, hlock, hstate⟩ := hs
    have hl := ((h.locks.setPlock i (some c)).setSlot i fun s =>
      { s with pid := m.nextpid, state := .used }).setThread (d := Sys.thread (.forkCopy i))
      (h.only hr) hr subset_rfl
    refine Inv.congr (m := ((m.setPlock i (some c)).setSlot i fun s =>
      { s with pid := m.nextpid, state := .used }).setThread p (Sys.thread (.forkCopy i)))
      ?_ rfl rfl rfl rfl rfl
    refine h.ofStep (.alloc (p := p) hr.1 hr.making hr.phase hlock hstate) ?_
      (wf_setThread h.wf (wf_thread _)) hl
    rw [view_setThread_making (by exact hr.phase.symm), view_setSlot, view_setPlock]
    rfl
  | taken i => exact h.goOn hs.1 rfl rfl subset_rfl (wf_thread _)
  | full => exact h.goOn hs rfl rfl (by simp) (wf_thread _)
  | fail np =>
    have hr : m.Runs c p (Sys.thread (.forkCopy np)) := hs
    rw [ForkStep.next]
    refine h.ofStep (.fail (p := p) hr.1 hr.making) ?_ (wf_setThread h.wf (wf_thread _))
      (((h.locks.setSlot np _).setPlock np none).setThread (h.only hr) hr (by simp))
    rw [view_setThread_making (by exact hr.phase.symm), view_setPlock, view_setSlot]
    rfl
  | copy np trapframe pagetable =>
    obtain ⟨hr, -, -⟩ := hs
    obtain ⟨hactive, -, hdead⟩ := h.owner.copying p np hr.making
    have hne : p ≠ np := by
      rintro rfl
      rw [hactive] at hdead
      cases hdead
    have hnp : m.thread np = Sys.thread .dead := Thread.eq_of_dead hdead
    rw [ForkStep.next]
    refine h.ofStep (.copied (p := p) hr.1 hr.making) ?_
      (wf_setThread (wf_setThread h.wf ⟨fun _ => by decide, by simp⟩) (wf_thread _)) ?_
    · rw [view_setThread_making, view_setThread_phase, view_setPlock, view_setSlot_same (by rfl)]
      · rfl
      · rw [Machine.setPlock, Machine.setSlot]
        dsimp only
        rw [hnp]
        rfl
      · have hp : m.thread p = Sys.thread (.forkCopy np) := hr.2.2.2
        simp [hne, hp]
    · have hl := (((h.locks.setSlot np fun s => { s with
        trapframe := trapframe, pagetable := pagetable, sz := (m.slot p).sz }).setPlock np none).fresh
        (t := ⟨.code ∅, .none, .forkret⟩) (p := np) (h.new_not_on hr.making))
      refine hl.setThread (h.only hr) (t := Sys.thread (.forkCopy np)) ⟨hr.1, hr.2.1, hr.2.2.1, ?_⟩ ?_
      · have hp : m.thread p = Sys.thread (.forkCopy np) := hr.2.2.2
        simp [hne, hp]
      · exact subset_rfl
  | parent np =>
    obtain ⟨hr, -⟩ := hs
    rw [ForkStep.next]
    have hinv : Inv (m.setSlot np fun s => { s with parent := some p }) := h.setSlot (by rfl)
    exact hinv.goOn hr rfl rfl subset_rfl (wf_thread _)
  | run np =>
    obtain ⟨hr, hlock⟩ := hs
    rw [ForkStep.next]
    refine h.ofStep (.start (p := p) hr.1 hr.making hlock) ?_ (wf_setThread h.wf (wf_thread _))
      ((h.locks.setSlot np _).setThread (h.only hr) hr (by simp))
    rw [view_setThread_making (by exact hr.phase.symm), view_setSlot]
    rfl

theorem Inv.exit (h : Inv m) {status : ℤ} (a : ExitStep) (hs : a.enabled m c p status) :
    Inv (a.next m c p status) := by
  cases a with
  | acquire => exact h.acquire hs.1 hs.2 rfl rfl (by simp) (wf_thread _)
  | reparent i =>
    have hinv : Inv (m.setSlot i fun s => { s with parent := some m.initproc }) := h.setSlot (by rfl)
    have hgo := hinv.goOn (d := Sys.thread (.reparent status (i + 1))) hs.1 rfl rfl subset_rfl
      (wf_thread _)
    have := hgo.setCpu (c := c) (u := fun x => { x with wake := some (.proc m.initproc, 0) })
      rfl rfl rfl
    exact this
  | other i => exact h.goOn hs.1 rfl rfl subset_rfl (wf_thread _)
  | wakeup =>
    have hr : m.Runs c p (Sys.thread (.reparent status NPROC)) := hs
    have hgo := h.goOn (d := Sys.thread (.exitLock status)) hr rfl rfl subset_rfl (wf_thread _)
    have := hgo.setCpu (c := c) (u := fun x => { x with wake := some (.ofProc (m.slot p).parent, 0) })
      rfl rfl rfl
    exact this
  | lock =>
    obtain ⟨hr, hlock⟩ := hs
    rw [ExitStep.next]
    have hnot : ∀ np, m.view.making p ≠ .copying np := by
      rw [hr.making]
      simp [Sys.making]
    refine h.ofStep (.lock (p := p) hr.1 hlock hr.phase hnot (.inl ⟨rfl, rfl⟩)) ?_
      (wf_setThread h.wf (wf_thread _))
      ((h.locks.setPlock p (some c)).setThread (h.only hr) hr subset_rfl)
    rw [view_setThread_phase (by exact hr.making.symm), view_setPlock, update_eq_self]
    rfl
  | state =>
    have hr : m.Runs c p (Sys.thread (.exitState status)) := hs
    rw [ExitStep.next]
    refine h.ofStep (.set (p := p) hr.1 hr.phase (.inr ⟨rfl, rfl⟩)) ?_
      (wf_setThread h.wf (wf_thread _))
      ((h.locks.setSlot p _).setThread (h.only hr) hr subset_rfl)
    rw [view_setThread_phase (by exact hr.making.symm), view_setSlot]
    rfl
  | release =>
    refine h.release hs ?_ rfl rfl ?_ (wf_thread _)
    · simp
    · simp
  | sched =>
    have hr : m.Runs c p (Sys.thread .exitSched) := hs
    have hl := h.locks.setThread (d := Sys.thread .dead) (h.only hr) hr subset_rfl
    refine h.ofStep (.sched (p := p) hr.1 (.inr (.inr ⟨hr.phase, rfl⟩))) ?_
      (wf_setThread h.wf (wf_thread _)) ?_
    · rw [ExitStep.next, view_setThread_phase (by exact hr.making.symm), view_setCpu_mode rfl]
      rfl
    · change Locks ((m.setThread p (Sys.thread .dead)).setCpu c fun x => { x with mode := .back p })
      refine Locks.setCpu hl ?_ ?_
      · rintro q ⟨⟩
      · rfl

theorem Inv.waitReturn (h : Inv m) {addr : ℕ} {havekids : Bool} {i : ℕ}
    (hr : m.Runs c p (Sys.thread (.waitScan addr havekids i))) :
    Inv ((m.setLock .wait none).setThread p idle) := by
  refine h.release hr ?_ rfl rfl ?_ (wf_thread _)
  · simp
  · simp

theorem Inv.wait (h : Inv m) {addr : ℕ} (a : WaitStep) (hs : a.enabled m c p addr) :
    Inv (a.next m c p addr) := by
  cases a with
  | acquire => exact h.acquire hs.1 hs.2 rfl rfl (by simp) (wf_thread _)
  | reap havekids i =>
    obtain ⟨hr, -, hlock, hstate⟩ := hs
    have hfree : Inv (m.setSlot i fun _ => .free) := by
      refine h.ofStep (.free (p := i) hlock hstate) ?_ h.wf (h.locks.setSlot i _)
      rw [view_setSlot]
      rfl
    exact (hfree.waitReturn hr).congr rfl rfl rfl rfl rfl
  | copyout havekids i | give havekids => exact h.waitReturn hs.1
  | sleep =>
    refine h.goOn hs.1 rfl rfl subset_rfl ⟨by simp, ?_⟩
    rintro _ _ _ ⟨⟩
    exact .inr ⟨addr, rfl, rfl, rfl⟩
  | _ => exact h.goOn hs.1 rfl rfl subset_rfl (wf_thread _)

theorem Inv.step (h : Inv m) {m' : Machine} {l : Cpu × Label} (hs : Step m l m') : Inv m' := by
  obtain ⟨c, l⟩ := l
  obtain ⟨henabled, rfl⟩ := hs
  cases l with
  | scheduler s => exact h.scheduler s henabled
  | irq s => exact h.irq s henabled
  | switch p sys k s => exact h.switch s henabled
  | code p L s => exact h.code s henabled
  | sleep p sys pc chan lk => exact h.sleep henabled
  | wakeup chan s => exact h.wakeup s henabled
  | kill p pid s => exact h.kill s henabled
  | fork p s => exact h.fork s henabled
  | exit p status s => exact h.exit s henabled
  | wait p addr s => exact h.wait s henabled

theorem boot_inv (trapframe pagetable : ℕ) : Inv (Machine.boot trapframe pagetable) := by
  have hslot : ∀ p, ((Machine.boot trapframe pagetable).slot p).state =
      if p = ⟨0, by decide⟩ then .runnable else .unused := fun p => by
    by_cases hp : p = ⟨0, by decide⟩ <;> simp [Machine.boot, hp, Slot.free]
  have hthread : ∀ p, (Machine.boot trapframe pagetable).thread p =
      if p = ⟨0, by decide⟩ then ⟨.code ∅, .none, .forkret⟩ else Sys.thread .dead := fun p => by
    simp [Machine.boot, update_apply]
  refine ⟨⟨fun c => rfl, ?_, fun p => ?_, ?_, fun p => ?_, ?_, ?_, ?_, ?_, ?_, ?_⟩, fun p => ?_,
    ⟨?_, ?_, ?_⟩⟩
  · rintro c c' p ⟨⟩
  · change Phase.Allows ((Machine.boot trapframe pagetable).thread p).phase _
    simp only [Machine.view, hslot, hthread]
    split_ifs <;> simp [Phase.Allows]
  · rintro c p ⟨⟩
  · simp only [Machine.view, hslot, hthread]
    split_ifs <;> simp [Phase.OnCpu]
  · rintro c p ⟨⟩
  · rintro c p ⟨⟩
  · rintro c p np ⟨⟩
  · intro p np hmaking
    simp only [Machine.view, hthread] at hmaking
    split_ifs at hmaking <;> simp [Sys.making] at hmaking
  · intro p np hmaking
    simp only [Machine.view, hthread] at hmaking
    split_ifs at hmaking <;> simp [Sys.making] at hmaking
  · intro p q np hmaking
    simp only [Machine.view, hthread] at hmaking
    split_ifs at hmaking <;> simp [Sys.making] at hmaking
  · rw [hthread]
    split_ifs
    · exact ⟨fun _ => by decide, by simp⟩
    · exact wf_thread _
  · rintro c p lk ⟨⟩
  · rintro c L n ⟨⟩
  · rintro c p - ⟨⟩

theorem Runs.inv {trapframe pagetable : ℕ} {ok : Machine → Cpu × Label → Prop}
    (h : Runs trapframe pagetable ok m) : Inv m :=
  h.invariant (boot_inv trapframe pagetable) fun _ _ _ hinv _ hs => hinv.step hs

/-- A process is on one CPU at most; a `RUNNING` one is on one; one that is `RUNNABLE`, `SLEEPING` or
`ZOMBIE` is on none when its lock is free; and a place is on no CPU when `wait` frees it, nor when
`allocproc` takes it. -/
theorem process_on_one_cpu {trapframe pagetable : ℕ} (h : Run trapframe pagetable m) :
    (∀ c c' p, c ≠ c' → (m.cpu c).proc = some p → (m.cpu c').proc ≠ some p) ∧
    (∀ p, (m.slot p).state = .running → ∃! c, (m.cpu c).proc = some p) ∧
    (∀ p, (m.slot p).state = .runnable ∨ (m.slot p).state = .sleeping ∨ (m.slot p).state = .zombie →
      m.plock p = none → ∀ c, (m.cpu c).proc ≠ some p) ∧
    (∀ c p addr havekids i, (WaitStep.reap havekids i).enabled m c p addr →
      ∀ c', (m.cpu c').proc ≠ some i) ∧
    ∀ c p i, (ForkStep.found i).enabled m c p → ∀ c', (m.cpu c').proc ≠ some i := by
  have howner := (Runs.inv h).owner
  have hproc : ∀ c, (m.cpu c).proc = (m.cpu c).mode.slot := howner.proc
  have hfree : ∀ p, m.plock p = none → (m.slot p).state ≠ .running → ∀ c,
      (m.cpu c).proc ≠ some p := fun p hlock hstate c => by
    rw [hproc]
    exact howner.not_on hlock hstate c
  refine ⟨fun c c' p hne hc hc' => ?_, fun p hp => ?_, fun p hp hlock => ?_, ?_, ?_⟩
  · rw [hproc] at hc hc'
    exact hne (howner.unique c c' p hc hc')
  · obtain ⟨c, hc⟩ := howner.on p (.inl hp)
    have hc : (m.cpu c).mode = .run p := hc
    refine ⟨c, ?_, fun c' hc' => ?_⟩
    · change (m.cpu c).proc = some p
      rw [hproc, hc, Mode.slot]
    · have hc' : (m.cpu c').proc = some p := hc'
      rw [hproc] at hc'
      refine howner.unique c' c p hc' ?_
      change (m.cpu c).mode.slot = _
      rw [hc, Mode.slot]
  · refine hfree p hlock ?_
    rcases hp with hp | hp | hp <;> rw [hp] <;> decide
  · rintro c p addr havekids i ⟨-, -, hlock, hstate⟩
    exact hfree i hlock (by rw [hstate]; decide)
  · rintro c p i ⟨-, hlock, hstate⟩
    exact hfree i hlock (by rw [hstate]; decide)

/-- The first process. -/
def proc0 : Idx := ⟨0, zero_lt_nproc⟩

/-- The second process. -/
def proc1 : Idx := ⟨1, one_lt_nproc⟩

/-- CPU 0 runs the first process, which makes the second one. -/
def forkRun : List (Cpu × Label) :=
  [(0, .scheduler (.pick proc0)), (0, .switch proc0 (.code ∅) .none .forkret),
    (0, .code proc0 ∅ .fork), (0, .fork proc0 (.taken proc0)), (0, .fork proc0 (.found proc1)),
    (0, .fork proc0 (.copy proc1 2 2)), (0, .fork proc0 (.parent proc1)), (0, .fork proc0 (.run proc1))]

theorem running_run : ∃ m, Run 1 1 m ∧ (m.slot proc0).state = .running := by
  have hrun : (Lib.execute next (fun _ _ => true) (Machine.boot 1 1)
      [(3, .scheduler (.pick proc0))]).map (fun m => (m.slot proc0).state) = some .running := by
    decide +kernel
  obtain ⟨m, hm, heq⟩ := Option.map_eq_some_iff.mp hrun
  exact ⟨m, Run.execute hm, heq⟩

/-- The first process runs on exactly one CPU. -/
theorem process_on_one_cpu_running : ∃ m, Run 1 1 m ∧ ∃! c, (m.cpu c).proc = some proc0 := by
  obtain ⟨m, hrun, hstate⟩ := running_run
  exact ⟨m, hrun, (process_on_one_cpu hrun).2.1 proc0 hstate⟩

end Steps

end Xv6.Sched
