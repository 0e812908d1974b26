import Xv6.Sched.Slots
import Xv6.Sched.Parents

/-!
# Process ids

`allocpid` hands out the values of `nextpid` one after the other and never looks at the process table.
The pids of the processes are different and positive as long as `nextpid` has not overflowed. It does in a
long run: a `fork` that runs out of memory has used up a pid.
-/

namespace Xv6.Sched

open Function (update update_self update_of_ne)

/-- The processes have different pids, all of them below `nextpid`. -/
structure Pids (m : Machine) : Prop where
  next : m.nextpid.toNat ≤ 2 ^ 31
  lt : ∀ i, (m.slot i).state ≠ .unused → 0 < (m.slot i).pid.toNat ∧ (m.slot i).pid.toNat < m.nextpid.toNat
  inj : ∀ i j, (m.slot i).state ≠ .unused → (m.slot j).state ≠ .unused →
    (m.slot i).pid = (m.slot j).pid → i = j

/-- `allocpid` is called only while `nextpid` has not overflowed. -/
def NoOverflow (m : Machine) (l : Cpu × Label) : Prop :=
  ∀ p i, l.2 = .fork p (.found i) → 0 < m.nextpid.toInt

section

variable {m m' : Machine} {c : Cpu} {p : Idx}

theorem Pids.keep (h : Pids m) (hnext : m'.nextpid = m.nextpid)
    (hslot : ∀ q, (m'.slot q).state ≠ .unused →
      (m.slot q).state ≠ .unused ∧ (m'.slot q).pid = (m.slot q).pid) : Pids m' := by
  refine ⟨by rw [hnext]; exact h.next, fun i hi => ?_, fun i j hi hj heq => ?_⟩
  · obtain ⟨hstate, hpid⟩ := hslot i hi
    rw [hpid, hnext]
    exact h.lt i hstate
  · obtain ⟨hi, hpi⟩ := hslot i hi
    obtain ⟨hj, hpj⟩ := hslot j hj
    exact h.inj i j hi hj (by rw [← hpi, ← hpj, heq])

theorem Pids.congr (h : Pids m) (hslot : m'.slot = m.slot) (hnext : m'.nextpid = m.nextpid) :
    Pids m' :=
  h.keep hnext fun q hq => by
    rw [hslot] at hq ⊢
    exact ⟨hq, rfl⟩

theorem Pids.setSlot (h : Pids m) {j : Idx} {s : Slot} (hnext : m'.nextpid = m.nextpid)
    (hslot : m'.slot = update m.slot j s)
    (hs : s.state ≠ .unused → (m.slot j).state ≠ .unused ∧ s.pid = (m.slot j).pid) : Pids m' := by
  refine h.keep hnext fun q hq => ?_
  rw [hslot] at hq ⊢
  by_cases hqj : q = j
  · subst hqj
    rw [update_self] at hq ⊢
    exact hs hq
  · rw [update_of_ne hqj] at hq ⊢
    exact ⟨hq, rfl⟩

theorem Pids.found (h : Pids m) (hpos : 0 < m.nextpid.toInt) {i : Idx}
    (hnext : m'.nextpid = m.nextpid + 1) (hself : (m'.slot i).pid = m.nextpid)
    (hother : ∀ q, q ≠ i → m'.slot q = m.slot q) : Pids m' := by
  have hlt : 0 < m.nextpid.toNat ∧ m.nextpid.toNat < 2 ^ 31 := by
    rw [BitVec.toInt_eq_toNat_cond] at hpos
    split_ifs at hpos <;> omega
  have hsucc : m'.nextpid.toNat = m.nextpid.toNat + 1 := by
    rw [hnext, BitVec.toNat_add]
    change (m.nextpid.toNat + 1) % 2 ^ 32 = _
    omega
  -- The other pids are smaller.
  have hne : ∀ q, q ≠ i → (m'.slot q).state ≠ .unused → (m'.slot q).pid ≠ (m'.slot i).pid := by
    intro q hq hstate heq
    rw [hother q hq] at hstate heq
    have := (h.lt q hstate).2
    rw [heq, hself] at this
    exact lt_irrefl _ this
  refine ⟨by omega, fun q hq => ?_, fun q r hq hr heq => ?_⟩
  · by_cases hqi : q = i
    · subst hqi
      rw [hself, hsucc]
      omega
    · rw [hother q hqi] at hq ⊢
      have := h.lt q hq
      omega
  · by_cases hqi : q = i <;> by_cases hri : r = i
    · rw [hqi, hri]
    · subst hqi
      exact absurd heq.symm (hne r hri hr)
    · subst hri
      exact absurd heq (hne q hqi hq)
    · rw [hother q hqi] at hq heq
      rw [hother r hri] at hr heq
      exact h.inj q r hq hr heq

theorem Pids.step (h : Pids m) (hi : Inv m) {l : Cpu × Label} (hok : NoOverflow m l)
    (hs : Step m l m') : Pids m' := by
  obtain ⟨c, l⟩ := l
  obtain ⟨he, rfl⟩ := hs
  cases l with
  | scheduler s =>
    cases s with
    | pick p =>
      have hrun : (m.slot p).state = .runnable := he.2.2
      refine h.setSlot (j := p) rfl rfl fun _ => ?_
      exact ⟨by rw [hrun]; decide, rfl⟩
    | _ => exact h.congr rfl rfl
  | irq s =>
    cases s with
    | yield p =>
      refine h.setSlot (j := p) rfl rfl fun _ => ?_
      exact ⟨(hi.on_cpu_state he.2.2.1).1, rfl⟩
    | _ => exact h.congr rfl rfl
  | switch p sys k s => cases s <;> exact h.congr rfl rfl
  | code p L s =>
    cases s with
    | setkilled | grow sz pagetable =>
      refine h.setSlot (j := p) rfl rfl fun hu => ?_
      exact ⟨hu, rfl⟩
    | _ => exact h.congr rfl rfl
  | sleep p sys pc chan lk =>
    cases pc with
    | set =>
      refine h.setSlot (j := p) rfl rfl fun _ => ?_
      exact ⟨hi.in_use he.1, rfl⟩
    | tidy =>
      refine h.setSlot (j := p) rfl rfl fun hu => ?_
      exact ⟨hu, rfl⟩
    | _ => exact h.congr rfl rfl
  | wakeup chan s =>
    cases s with
    | visit i =>
      refine h.setSlot (j := i) rfl rfl fun hu => ?_
      rw [Slot.wakeup] at hu ⊢
      split_ifs at hu ⊢ with hsleep
      · exact ⟨by rw [hsleep.1]; decide, rfl⟩
      · exact ⟨hu, rfl⟩
    | _ => exact h.congr rfl rfl
  | kill p pid s =>
    cases s with
    | hit i =>
      refine h.setSlot (j := i) rfl rfl fun hu => ?_
      refine ⟨fun hun => hu ?_, rfl⟩
      simp [Slot.kill, hun]
    | _ => exact h.congr rfl rfl
  | fork p s =>
    cases s with
    | found i =>
      refine h.found (hok p i rfl) (i := i) rfl ?_ fun q hq => ?_
      · simp
      · simp [hq]
    | fail np => exact h.setSlot (j := np) (s := .free) rfl rfl fun hu => absurd rfl hu
    | copy np trapframe pagetable | parent np =>
      refine h.setSlot (j := np) rfl rfl fun hu => ?_
      exact ⟨hu, rfl⟩
    | run np =>
      have hused := hi.used he.1 (.inr rfl)
      refine h.setSlot (j := np) rfl rfl fun _ => ?_
      exact ⟨by rw [hused]; decide, rfl⟩
    | _ => exact h.congr rfl rfl
  | exit p status s =>
    cases s with
    | reparent i =>
      refine h.setSlot (j := i) rfl rfl fun hu => ?_
      exact ⟨hu, rfl⟩
    | state =>
      have hr : m.Runs c p (Sys.thread (.exitState status)) := he
      refine h.setSlot (j := p) rfl rfl fun _ => ?_
      exact ⟨hi.in_use hr, rfl⟩
    | _ => exact h.congr rfl rfl
  | wait p addr s =>
    cases s with
    | reap havekids i => exact h.setSlot (j := i) (s := .free) rfl rfl fun hu => absurd rfl hu
    | _ => exact h.congr rfl rfl

theorem boot_pids (trapframe pagetable : ℕ) : Pids (Machine.boot trapframe pagetable) := by
  have hslot : ∀ i, ((Machine.boot trapframe pagetable).slot i).state ≠ .unused →
      i = ⟨0, by decide⟩ := fun i hi => by
    by_contra hne
    simp [Machine.boot, hne, Slot.free] at hi
  refine ⟨by simp [Machine.boot], fun i hi => ?_, fun i j hi hj _ => ?_⟩
  · rw [hslot i hi]
    simp [Machine.boot]
  · rw [hslot i hi, hslot j hj]

theorem Runs.pids {trapframe pagetable : ℕ} (h : Runs trapframe pagetable NoOverflow m) : Pids m := by
  have hboth : Inv m ∧ Pids m := by
    refine h.invariant (P := fun m => Inv m ∧ Pids m)
      ⟨boot_inv trapframe pagetable, boot_pids trapframe pagetable⟩ ?_
    rintro m l m' ⟨hinv, hpids⟩ hok hs
    exact ⟨hinv.step hs, hpids.step hinv hok hs⟩
  exact hboth.2

/-- In a run in which `nextpid` does not overflow, the processes have different pids, and all pids are
positive. -/
theorem pids_unique {trapframe pagetable : ℕ} (h : Runs trapframe pagetable NoOverflow m) :
    (∀ i j, i ≠ j → (m.slot i).state ≠ .unused → (m.slot j).state ≠ .unused →
      (m.slot i).pid ≠ (m.slot j).pid) ∧
    ∀ i, (m.slot i).state ≠ .unused → 0 < (m.slot i).pid.toInt := by
  have hpids := Runs.pids h
  refine ⟨fun i j hij hi hj heq => hij (hpids.inj i j hi hj heq), fun i hi => ?_⟩
  obtain ⟨hpos, hlt⟩ := hpids.lt i hi
  have hnext := hpids.next
  rw [BitVec.toInt_eq_toNat_cond]
  split_ifs <;> omega

/-! ## Overflow -/

/-- The first process runs on CPU 0 outside `proc.c`, and the second place is free. -/
structure Ready (m : Machine) : Prop where
  runs : m.Runs 0 proc0 idle
  plock : ∀ i, m.plock i = none
  first : (m.slot proc0).state = .running
  pid : (m.slot proc0).pid = 1
  second : (m.slot proc1).state = .unused

theorem Machine.Runs.setThread {t t' : Thread} (h : m.Runs c p t) : (m.setThread p t').Runs c p t' :=
  ⟨h.1, h.2.1, h.2.2.1, update_self ..⟩

theorem Ready.found {trapframe pagetable : ℕ} (h : Ready m) (hrun : Run trapframe pagetable m) :
    ∃ m', Run trapframe pagetable m' ∧ m'.Runs 0 proc0 (Sys.thread (.forkCopy proc1)) ∧
      m'.slot proc0 = m.slot proc0 ∧ (m'.slot proc1).state = .used ∧
      (m'.slot proc1).pid = m.nextpid ∧ m'.nextpid = m.nextpid + 1 ∧
      ∀ i, i ≠ proc1 → m'.plock i = none := by
  have hne : proc0 ≠ proc1 := by decide
  have h1 : Run trapframe pagetable (m.setThread proc0 (Sys.thread (.allocproc 0))) :=
    .step (0, .code proc0 ∅ .fork) hrun trivial ⟨⟨h.runs, rfl⟩, rfl⟩
  have h2 : Run trapframe pagetable ((m.setThread proc0 (Sys.thread (.allocproc 0))).setThread proc0
      (Sys.thread (.allocproc 1))) :=
    .step (0, .fork proc0 (.taken proc0)) h1 trivial
      ⟨⟨h.runs.setThread, h.plock proc0, (by rw [h.first]; decide : (m.slot proc0).state ≠ .unused)⟩, rfl⟩
  refine ⟨_, .step (0, .fork proc0 (.found proc1)) h2 trivial
    ⟨⟨h.runs.setThread.setThread, h.plock proc1, h.second⟩, rfl⟩, ⟨h.runs.1, h.runs.2.1, h.runs.2.2.1, ?_⟩,
      ?_, ?_, ?_, rfl, fun i hi => ?_⟩
  · simp
  · simp [hne]
  · simp
  · simp
  · simpa [hi] using
      h.plock i

theorem Ready.failed {trapframe pagetable : ℕ} (h : Ready m) (hrun : Run trapframe pagetable m) :
    ∃ m', Run trapframe pagetable m' ∧ Ready m' ∧ m'.nextpid = m.nextpid + 1 := by
  have hne : proc0 ≠ proc1 := by decide
  obtain ⟨m', hrun', hr, hfirst, -, -, hnext, hplock⟩ := h.found hrun
  refine ⟨_, .step (0, .fork proc0 (.fail proc1)) hrun' trivial ⟨hr, rfl⟩,
    ⟨⟨hr.1, hr.2.1, hr.2.2.1, ?_⟩, fun i => ?_, ?_, ?_, ?_⟩, hnext⟩
  · simp
  · by_cases hi : i = proc1
    · simp [hi]
    · simpa [hi] using
        hplock i hi
  · simpa [hne, hfirst] using h.first
  · simpa [hne, hfirst] using h.pid
  · simp [Slot.free]

theorem Ready.skip {trapframe pagetable : ℕ} (h : Ready m) (hrun : Run trapframe pagetable m) (k : ℕ) :
    ∃ m', Run trapframe pagetable m' ∧ Ready m' ∧ m'.nextpid = m.nextpid + BitVec.ofNat 32 k := by
  induction k with
  | zero => exact ⟨m, hrun, h, by simp⟩
  | succ k ih =>
    obtain ⟨m1, hrun1, hready1, hnext1⟩ := ih
    obtain ⟨m2, hrun2, hready2, hnext2⟩ := hready1.failed hrun1
    refine ⟨m2, hrun2, hready2, ?_⟩
    rw [hnext2, hnext1, BitVec.ofNat_add, BitVec.add_assoc]
    rfl

theorem ready_run : ∃ m, Run 1 1 m ∧ Ready m ∧ m.nextpid = 2 := by
  have hrun : (Lib.execute next (fun _ _ => true) (Machine.boot 1 1)
      [(0, .scheduler (.pick proc0)), (0, .switch proc0 (.code ∅) .none .forkret)]).map (fun m =>
        (decide (m.Runs 0 proc0 idle), decide (∀ i, m.plock i = none), (m.slot proc0).state,
          (m.slot proc0).pid, (m.slot proc1).state, m.nextpid)) =
      some (true, true, .running, 1, .unused, 2) := by
    decide +kernel
  obtain ⟨m, hm, heq⟩ := Option.map_eq_some_iff.mp hrun
  simp only [Prod.mk.injEq, decide_eq_true_eq] at heq
  obtain ⟨h1, h2, h3, h4, h5, h6⟩ := heq
  exact ⟨m, Run.execute hm, ⟨h1, h2, h3, h4, h5⟩, h6⟩

/-- After enough calls of `fork`, `nextpid` has any value. -/
theorem nextpid_run (pid : BitVec 32) : ∃ m, Run 1 1 m ∧ (m.slot proc0).state = .running ∧
    (m.slot proc0).pid = 1 ∧ (m.slot proc1).state = .used ∧ (m.slot proc1).pid = pid := by
  obtain ⟨m, hrun, hready, hnext⟩ := ready_run
  obtain ⟨m1, hrun1, hready1, hnext1⟩ := hready.skip hrun (pid - 2).toNat
  obtain ⟨m2, hrun2, -, hfirst, hused, hpid, -⟩ := hready1.found hrun1
  refine ⟨m2, hrun2, by rw [hfirst, hready1.first], by rw [hfirst, hready1.pid], hused, ?_⟩
  rw [hpid, hnext1, hnext, BitVec.ofNat_toNat, BitVec.setWidth_eq, BitVec.add_comm,
    BitVec.sub_add_cancel]

/-- The pid of the first process is given to another one, and pids get negative. -/
theorem nextpid_overflows :
    (∃ m, Run 1 1 m ∧ (m.slot proc0).state ≠ .unused ∧ (m.slot proc1).state ≠ .unused ∧
      (m.slot proc0).pid = (m.slot proc1).pid) ∧
    ∃ m, Run 1 1 m ∧ (m.slot proc1).state ≠ .unused ∧ (m.slot proc1).pid.toInt < 0 := by
  constructor
  · obtain ⟨m, hrun, hfirst, hpid0, hused, hpid1⟩ := nextpid_run 1
    exact ⟨m, hrun, by rw [hfirst]; decide, by rw [hused]; decide, by rw [hpid0, hpid1]⟩
  · obtain ⟨m, hrun, -, -, hused, hpid⟩ := nextpid_run (BitVec.intMin 32)
    exact ⟨m, hrun, by rw [hused]; decide, by rw [hpid]; decide⟩

/-- A step that is not a call of `allocpid` after an overflow. -/
def noOverflow (m : Machine) (l : Cpu × Label) : Bool :=
  match l.2 with
  | .fork _ (.found _) => decide (0 < m.nextpid.toInt)
  | _ => true

/-- Two processes have different pids. -/
theorem pids_unique_forkRun : ∃ m, Runs 1 1 NoOverflow m ∧
    (m.slot proc1).state = .runnable ∧ (m.slot proc0).pid ≠ (m.slot proc1).pid := by
  have hrun : (Lib.execute next noOverflow (Machine.boot 1 1) forkRun).map
      (fun m => ((m.slot proc0).state, (m.slot proc1).state)) = some (.running, .runnable) := by
    decide +kernel
  obtain ⟨m, hm, heq⟩ := Option.map_eq_some_iff.mp hrun
  rw [Prod.mk.injEq] at heq
  have hreach : Runs 1 1 NoOverflow m := by
    refine Lib.Reach.execute (fun _ _ _ => next_eq) (fun m l hl => ?_) .init hm
    rintro p i hfork
    simpa [noOverflow, hfork] using hl
  exact ⟨m, hreach, heq.2, (pids_unique hreach).1 proc0 proc1 (by decide) (by rw [heq.1]; decide)
    (by rw [heq.2]; decide)⟩

end

end Xv6.Sched
