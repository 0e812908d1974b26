import Xv6.Sched.Cpus

/-!
# Unused places of the process table

`allocproc` relies on places that are not in use being clean. `kill` looks at the `pid` of every place,
in use or not, so that `kill(0)` marks the first place that is not in use. All other steps keep the
places clean: `Clean` holds in every run in which no `kill(0)` meets a place that is not in use.
-/

namespace Xv6.Sched

open Function (update_apply)

/-- What the fields of a place that is not in use are. -/
structure Slot.Clean (s : Slot) : Prop where
  pid : s.pid = 0
  killed : s.killed = false
  chan : s.chan = .null
  sz : s.sz = 0
  parent : s.parent = none
  trapframe : s.trapframe = 0
  pagetable : s.pagetable = 0

/-- Places that are not in use are clean, and a process that has not started was killed only by its
pid. -/
structure Slots (m : Machine) : Prop where
  clean : ∀ p, (m.slot p).state = .unused → (m.slot p).Clean
  named : ∀ p, (m.thread p).switch = .forkret ∨ (m.slot p).state = .used →
    (m.slot p).killed = true → m.named p = true

/-- No `kill(0)` meets a place that is not in use. -/
def NoKillZero (m : Machine) (l : Cpu × Label) : Prop :=
  ∀ p i, l.2 = .kill p 0 (.hit i) → (m.slot i).state ≠ .unused

section

variable {m : Machine} {c : Cpu} {p : Idx}

theorem Slot.clean_free : Slot.free.Clean := ⟨rfl, rfl, rfl, rfl, rfl, rfl, rfl⟩

theorem Inv.in_use (h : Inv m) {t : Thread} (hr : m.Runs c p t) : (m.slot p).state ≠ .unused := by
  intro hunused
  have hon := h.owner.run c p hr.1
  have hdead := h.owner.unused (p := p) hunused
  rw [hdead] at hon
  have hunused : m.view.state p = .unused := hunused
  rw [hunused] at hon
  simp [Phase.OnCpu] at hon

theorem Inv.running (h : Inv m) {t : Thread} (hr : m.Runs c p t) (ht : t.phase = .active) :
    (m.slot p).state = .running := by
  have hphase : m.view.phase p = .active := hr.phase.trans ht
  exact (h.owner.allows p).1 (.inl hphase)

theorem Inv.used (h : Inv m) {t : Thread} {np : Idx} (hr : m.Runs c p t)
    (ht : t.sys.making = .copying np ∨ t.sys.making = .pending np) :
    (m.slot np).state = .used := by
  rcases ht with ht | ht
  · exact (h.owner.copying p np (hr.making.trans ht)).2.1
  · exact (h.owner.pending p np (hr.making.trans ht)).1

variable {m' : Machine} {q : Idx}

/-! ## Steps

What `Slots` says is about each place alone, so every group of steps is followed at one place. -/

/-- What `Slots` says of place `q`. -/
def SlotAt (m : Machine) (q : Idx) : Prop :=
  ((m.slot q).state = .unused → (m.slot q).Clean) ∧
    ((m.thread q).switch = .forkret ∨ (m.slot q).state = .used →
      (m.slot q).killed = true → m.named q = true)

attribute [local grind =] Sys.thread idle Slot.free Slot.kill Slot.wakeup
attribute [local grind →] Slot.Clean.killed Slot.Clean.pid Slot.Clean.parent

theorem SlotAt.scheduler (h : SlotAt m q) (s : SchedulerStep) : SlotAt (s.next m c) q := by
  cases s <;> simp only [SlotAt, SchedulerStep.next, Machine.setSlot, Machine.setPlock, Machine.setCpu,
    update_apply] at h ⊢ <;> grind

theorem SlotAt.irq (h : SlotAt m q) (s : IrqStep) : SlotAt (s.next m c) q := by
  cases s <;> simp only [SlotAt, IrqStep.next, Machine.setSlot, Machine.setPlock, Machine.setCpu,
    Machine.setThread, Machine.setLock, update_apply] at h ⊢ <;> grind

theorem SlotAt.switch (h : SlotAt m q) (sys : Sys) (k : Call) (s : SwitchStep) :
    SlotAt (s.next m c p sys k) q := by
  cases s <;> simp only [SlotAt, SwitchStep.next, Machine.setPlock, Machine.setCpu, Machine.setThread,
    update_apply] at h ⊢ <;> grind

/-- A process that runs code is running, so its place is in use and its thread has started. -/
theorem SlotAt.code (h : SlotAt m q) (hi : Inv m) {L : Finset ℕ} {s : CodeStep}
    (he : s.enabled m c p L) : SlotAt (s.next m c p L) q := by
  have hr : m.Runs c p (Sys.thread (.code L)) := by cases s <;> exact he.1
  have hrun := hi.running hr rfl
  have hthread : (m.thread p).switch = .none := by rw [hr.2.2.2]
  cases s <;> simp only [SlotAt, CodeStep.next, Machine.setSlot, Machine.setCpu, Machine.setThread,
    Machine.setLock, update_apply] at h ⊢ <;> grind

theorem SlotAt.sleep (h : SlotAt m q) (hi : Inv m) {sys : Sys} {pc : SleepPc} {chan : Chan} {lk : Lk}
    (he : sleepEnabled m c p sys pc chan lk) : SlotAt (sleepNext m c p sys pc chan lk) q := by
  have huse := hi.in_use he.1
  cases pc <;> simp only [SlotAt, sleepNext, Machine.setSlot, Machine.setPlock, Machine.setCpu,
    Machine.setThread, Machine.setLock, update_apply] at h ⊢ <;> grind

theorem SlotAt.wakeup (h : SlotAt m q) (chan : Chan) (s : WakeupStep) : SlotAt (s.next m c chan) q := by
  cases s <;> simp only [SlotAt, WakeupStep.next, Machine.setSlot, Machine.setCpu, update_apply] at h ⊢ <;>
    grind

/-- A `kill` that finds a place in use keeps the others clean. -/
theorem SlotAt.kill (h : SlotAt m q) {pid : BitVec 32} {s : KillStep}
    (hok : ∀ i, s = .hit i → (m.slot i).state ≠ .unused) : SlotAt (s.next m p pid) q := by
  cases s <;> simp only [SlotAt, KillStep.next, Machine.setSlot, Machine.setThread, update_apply] at h ⊢ <;>
    grind

/-- `allocproc` finds a clean place, so that the process is not born killed. -/
theorem SlotAt.fork (h : SlotAt m q) (hi : Inv m) {s : ForkStep} (he : s.enabled m c p) :
    SlotAt (s.next m c p) q := by
  have hfree := Slot.clean_free
  cases s with
  | copy np =>
    have hused := hi.used he.1 (.inl rfl)
    simp only [SlotAt, ForkStep.next, Machine.setSlot, Machine.setThread, Machine.setPlock,
      update_apply] at h ⊢
    grind
  | parent np =>
    have hused := hi.used he.1 (.inr rfl)
    simp only [SlotAt, ForkStep.next, Machine.setSlot, Machine.setThread, update_apply] at h ⊢
    grind
  | _ =>
    simp only [SlotAt, ForkStep.enabled, ForkStep.next, Machine.setSlot, Machine.setThread,
      Machine.setPlock, update_apply] at h he ⊢
    grind

/-- `reparent` finds a place that has a parent, so it is in use. -/
theorem SlotAt.exit (h : SlotAt m q) {status : ℤ} {s : ExitStep} (he : s.enabled m c p status) :
    SlotAt (s.next m c p status) q := by
  cases s <;> simp only [SlotAt, ExitStep.enabled, ExitStep.next, Machine.setSlot, Machine.setPlock,
    Machine.setCpu, Machine.setThread, Machine.setLock, update_apply] at h he ⊢ <;> grind

theorem SlotAt.wait (h : SlotAt m q) (addr : ℕ) (s : WaitStep) : SlotAt (s.next m c p addr) q := by
  have hfree := Slot.clean_free
  cases s <;> simp only [SlotAt, WaitStep.next, Machine.setSlot, Machine.setThread, Machine.setLock,
    update_apply] at h ⊢ <;> grind

/-- Every step but a `kill(0)` that meets a place that is not in use keeps the places clean. -/
theorem Slots.step (h : Slots m) (hi : Inv m) {l : Cpu × Label} (hok : NoKillZero m l)
    (hs : Step m l m') : Slots m' := by
  obtain ⟨c, l⟩ := l
  obtain ⟨he, rfl⟩ := hs
  suffices hat : ∀ q, SlotAt (l.next m c) q from ⟨fun q => (hat q).1, fun q => (hat q).2⟩
  intro q
  have hq : SlotAt m q := ⟨h.clean q, h.named q⟩
  cases l with
  | scheduler s => exact hq.scheduler s
  | irq s => exact hq.irq s
  | switch p sys k s => exact hq.switch sys k s
  | code p L s => exact hq.code hi he
  | sleep p sys pc chan lk => exact hq.sleep hi he
  | wakeup chan s => exact hq.wakeup chan s
  | fork p s => exact hq.fork hi he
  | exit p status s => exact hq.exit he
  | wait p addr s => exact hq.wait addr s
  | kill p pid s =>
    refine hq.kill fun i hi hun => ?_
    subst hi
    -- A place that is not in use has pid 0.
    have hzero : pid = 0 := he.2.2.symm.trans (h.clean i hun).pid
    subst hzero
    exact hok p i rfl hun

theorem boot_slots (trapframe pagetable : ℕ) : Slots (Machine.boot trapframe pagetable) := by
  refine ⟨fun p hp => ?_, fun p _ hk => ?_⟩
  · by_cases hp0 : p = ⟨0, by decide⟩
    · simp [Machine.boot, hp0] at hp
    · simpa [Machine.boot, hp0] using Slot.clean_free
  · by_cases hp0 : p = ⟨0, by decide⟩ <;> simp [Machine.boot, hp0, Slot.free] at hk

theorem Runs.slots {trapframe pagetable : ℕ} (h : Runs trapframe pagetable NoKillZero m) :
    Slots m := by
  have hboth : Inv m ∧ Slots m := by
    refine h.invariant (P := fun m => Inv m ∧ Slots m)
      ⟨boot_inv trapframe pagetable, boot_slots trapframe pagetable⟩ ?_
    rintro m l m' ⟨hinv, hslots⟩ hok hs
    exact ⟨hinv.step hs, hslots.step hinv hok hs⟩
  exact hboth.2

/-- In a run in which no `kill(0)` meets a place that is not in use: such places are clean; `kill`
returns `0` only for a place in use that has the pid, and changes no other; a place that a step of `kill`
changes is one that it has found; and a process that has not started is marked as killed only if a `kill`
has found it by its pid. -/
theorem unused_slots_clean {trapframe pagetable : ℕ} (h : Runs trapframe pagetable NoKillZero m) :
    (∀ p, (m.slot p).state = .unused → (m.slot p).Clean) ∧
    (∀ c p pid i, NoKillZero m (c, .kill p pid (.hit i)) → (KillStep.hit i).enabled m c p pid →
      (m.slot i).state ≠ .unused ∧ (m.slot i).pid = pid ∧
        ∀ j, j ≠ i → ((KillStep.hit i).next m p pid).slot j = m.slot j) ∧
    (∀ p pid (a : KillStep) j, (a.next m p pid).slot j ≠ m.slot j → a = .hit j) ∧
    ∀ p, (m.thread p).switch = .forkret → (m.slot p).killed = true → m.named p = true := by
  have hslots := Runs.slots h
  refine ⟨hslots.clean, fun c p pid i hok he => ⟨fun hun => ?_, he.2.2, fun j hj => ?_⟩,
    fun p pid a j hne => ?_, fun p hp => hslots.named p (.inl hp)⟩
  · have hzero : pid = 0 := he.2.2.symm.trans (hslots.clean i hun).pid
    subst hzero
    exact hok p i rfl hun
  · simp [hj]
  · cases a with
    | hit i =>
      by_contra hij
      have hji : j ≠ i := fun e => hij (e ▸ rfl)
      simp [hji] at hne
    | miss | fail => exact absurd rfl hne

/-- The first process starts and calls `kill(pid)`. -/
def callKill (pid : BitVec 32) : List (Cpu × Label) :=
  [(0, .scheduler (.pick proc0)), (0, .switch proc0 (.code ∅) .none .forkret),
    (0, .code proc0 ∅ (.kill pid))]

/-- A step that is not the end of a `kill(0)`. -/
def notKillZero (_ : Machine) (l : Cpu × Label) : Bool :=
  match l.2 with
  | .kill _ pid (.hit _) => pid != 0
  | _ => true

/-- The first process kills itself; the second place stays clean. -/
theorem unused_slots_clean_kill : ∃ m, Runs 1 1 NoKillZero m ∧
    (m.slot proc0).killed = true ∧ (m.slot proc1).Clean := by
  have hrun : (Lib.execute next notKillZero (Machine.boot 1 1)
      (callKill 1 ++ [(0, .kill proc0 1 (.hit proc0))])).map
      (fun m => ((m.slot proc0).killed, (m.slot proc1).state)) = some (true, .unused) := by
    decide +kernel
  obtain ⟨m, hm, heq⟩ := Option.map_eq_some_iff.mp hrun
  rw [Prod.mk.injEq] at heq
  have hreach : Runs 1 1 NoKillZero m := by
    refine Lib.Reach.execute (fun _ _ _ => next_eq) (fun m l hl => ?_) .init hm
    rintro p i hkill
    simp [notKillZero, hkill] at hl
  exact ⟨m, hreach, heq.1, (unused_slots_clean hreach).1 proc1 heq.2⟩

/-- `kill(0)` returns `0` with no process of that pid, a place that is not in use is marked as killed,
and the process that `fork` then makes there is born killed. -/
theorem kill_zero_marks_unused :
    (∃ m, Run 1 1 m ∧ (m.slot proc1).state = .unused ∧ (m.slot proc1).killed = true) ∧
    ∃ m, Run 1 1 m ∧ (m.slot proc1).state = .runnable ∧ (m.thread proc1).switch = .forkret ∧
      (m.slot proc1).killed = true ∧ m.named proc1 = false := by
  let kill0 := callKill 0 ++ [(0, .kill proc0 0 (.miss proc0)), (0, .kill proc0 0 (.hit proc1))]
  constructor
  · have hrun : (Lib.execute next (fun _ _ => true) (Machine.boot 1 1) kill0).map
        (fun m => ((m.slot proc1).state, (m.slot proc1).killed)) = some (.unused, true) := by
      decide +kernel
    obtain ⟨m, hm, heq⟩ := Option.map_eq_some_iff.mp hrun
    rw [Prod.mk.injEq] at heq
    exact ⟨m, Run.execute hm, heq⟩
  · have hrun : (Lib.execute next (fun _ _ => true) (Machine.boot 1 1) (kill0 ++
        [(0, .code proc0 ∅ .fork), (0, .fork proc0 (.taken proc0)), (0, .fork proc0 (.found proc1)),
          (0, .fork proc0 (.copy proc1 2 2)), (0, .fork proc0 (.parent proc1)),
          (0, .fork proc0 (.run proc1))])).map
        (fun m => ((m.slot proc1).state, (m.thread proc1).switch, (m.slot proc1).killed,
          m.named proc1)) = some (.runnable, .forkret, true, false) := by
      decide +kernel
    obtain ⟨m, hm, heq⟩ := Option.map_eq_some_iff.mp hrun
    simp only [Prod.mk.injEq] at heq
    exact ⟨m, Run.execute hm, heq⟩

end

end Xv6.Sched
