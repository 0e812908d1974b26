import Xv6.Sched.Machine

/-!
# Who owns a process

An abstract model of the hand-over of processes between CPUs. Of a process it has the state, what its
thread does with its lock (`Phase`), and the process that its thread is making in `fork`; of a CPU, its
mode and `c->proc`. `Owner` is what the locks guarantee: a process is on one CPU at most, and a process
that is on a CPU and not `RUNNING` has its lock held there.
-/

namespace Xv6.Sched

open Function (update update_apply update_self update_of_ne update_eq_self update_idem)

/-- The place that a CPU has switched to, or is coming back from. -/
@[grind =]
def Mode.slot : Mode → Option Idx
  | .scan _ => none
  | .run p | .back p => some p

/-- The process that a thread makes in `fork`: with its lock held, or later. -/
inductive Making
  | none
  | copying (np : Idx)
  | pending (np : Idx)

/-- The process that a thread in `fork` makes. -/
def Sys.making : Sys → Making
  | .forkCopy np => .copying np
  | .forkParent np | .forkRun np => .pending np
  | _ => .none

/-- The abstract state. -/
structure View where
  state : Idx → St
  phase : Idx → Phase
  making : Idx → Making
  plock : Idx → Option Cpu
  mode : Cpu → Mode
  proc : Cpu → Option Idx

/-- The states that go with a phase. -/
@[grind =]
def Phase.Allows (ph : Phase) (s : St) : Prop :=
  (ph = .active ∨ ph = .locked → s = .running) ∧
  (ph = .yielding → s = .runnable) ∧
  (ph = .drowsy → s = .sleeping) ∧
  (ph = .dying → s = .zombie) ∧
  (ph = .resume → s = .used ∨ s = .runnable ∨ s = .running) ∧
  (ph = .asleep → s = .sleeping ∨ s = .runnable ∨ s = .running) ∧
  (ph = .dead → s = .zombie ∨ s = .unused ∨ s = .used)

/-- The thread is executed by a CPU. -/
@[grind =]
def Phase.OnCpu (ph : Phase) (s : St) : Prop :=
  s = .running ∨ ph = .yielding ∨ ph = .drowsy ∨ ph = .dying

/-- The steps of the abstract model. -/
inductive View.Step (v : View) : View → Prop
  | pick {c : Cpu} {i : ℕ} {p : Idx} (hmode : v.mode c = .scan i) (hlock : v.plock p = none)
      (hstate : v.state p = .runnable) :
      Step v { v with
        state := update v.state p .running
        plock := update v.plock p (some c)
        mode := update v.mode c (.run p)
        proc := update v.proc c (some p) }
  | scan {c : Cpu} {i j : ℕ} (hmode : v.mode c = .scan i) :
      Step v { v with mode := update v.mode c (.scan j) }
  | back {c : Cpu} {p : Idx} {j : ℕ} (hmode : v.mode c = .back p) :
      Step v { v with
        plock := update v.plock p none
        mode := update v.mode c (.scan j)
        proc := update v.proc c none }
  /-- the process takes its lock, and sets its state in `yield` -/
  | lock {c : Cpu} {p : Idx} {ph : Phase} {s : St} (hmode : v.mode c = .run p)
      (hlock : v.plock p = none) (hphase : v.phase p = .active) (hmaking : ∀ np, v.making p ≠ .copying np)
      (hph : ph = .locked ∧ s = v.state p ∨ ph = .yielding ∧ s = .runnable) :
      Step v { v with
        state := update v.state p s
        phase := update v.phase p ph
        plock := update v.plock p (some c) }
  /-- the process sets its state, in `sleep` and `exit` -/
  | set {c : Cpu} {p : Idx} {ph : Phase} {s : St} (hmode : v.mode c = .run p)
      (hphase : v.phase p = .locked) (hph : ph = .drowsy ∧ s = .sleeping ∨ ph = .dying ∧ s = .zombie) :
      Step v { v with
        state := update v.state p s
        phase := update v.phase p ph }
  /-- `sched` -/
  | sched {c : Cpu} {p : Idx} {ph : Phase} (hmode : v.mode c = .run p)
      (hph : v.phase p = .yielding ∧ ph = .resume ∨ v.phase p = .drowsy ∧ ph = .asleep ∨
        v.phase p = .dying ∧ ph = .dead) :
      Step v { v with
        phase := update v.phase p ph
        mode := update v.mode c (.back p) }
  /-- the process releases its lock after it was scheduled -/
  | unlock {c : Cpu} {p : Idx} (hmode : v.mode c = .run p)
      (hphase : v.phase p = .resume ∨ v.phase p = .asleep) :
      Step v { v with
        phase := update v.phase p .active
        plock := update v.plock p none }
  /-- another process wakes it up -/
  | wake {p : Idx} (hlock : v.plock p = none) (hstate : v.state p = .sleeping) :
      Step v { v with state := update v.state p .runnable }
  /-- `freeproc` in `wait` -/
  | free {p : Idx} (hlock : v.plock p = none) (hstate : v.state p = .zombie) :
      Step v { v with state := update v.state p .unused }
  /-- `allocproc` -/
  | alloc {c : Cpu} {p np : Idx} (hmode : v.mode c = .run p) (hmaking : v.making p = .none)
      (hphase : v.phase p = .active) (hlock : v.plock np = none) (hstate : v.state np = .unused) :
      Step v { v with
        state := update v.state np .used
        making := update v.making p (.copying np)
        plock := update v.plock np (some c) }
  /-- `freeproc` in `fork` -/
  | fail {c : Cpu} {p np : Idx} (hmode : v.mode c = .run p) (hmaking : v.making p = .copying np) :
      Step v { v with
        state := update v.state np .unused
        making := update v.making p .none
        plock := update v.plock np none }
  /-- `fork` releases `np->lock` -/
  | copied {c : Cpu} {p np : Idx} (hmode : v.mode c = .run p) (hmaking : v.making p = .copying np) :
      Step v { v with
        phase := update v.phase np .resume
        making := update v.making p (.pending np)
        plock := update v.plock np none }
  /-- `np->state = RUNNABLE` -/
  | start {c : Cpu} {p np : Idx} (hmode : v.mode c = .run p) (hmaking : v.making p = .pending np)
      (hlock : v.plock np = none) :
      Step v { v with
        state := update v.state np .runnable
        making := update v.making p .none }

/-- What the locks guarantee. -/
@[grind cases]
structure Owner (v : View) : Prop where
  proc : ∀ c, v.proc c = (v.mode c).slot
  unique : ∀ c c' p, (v.mode c).slot = some p → (v.mode c').slot = some p → c = c'
  allows : ∀ p, (v.phase p).Allows (v.state p)
  run : ∀ c p, v.mode c = .run p → (v.phase p).OnCpu (v.state p)
  on : ∀ p, (v.phase p).OnCpu (v.state p) → ∃ c, v.mode c = .run p
  back : ∀ c p, v.mode c = .back p → v.plock p = some c
  own : ∀ c p, v.mode c = .run p → v.phase p ≠ .active → v.plock p = some c
  copy : ∀ c p np, v.mode c = .run p → v.making p = .copying np → v.plock np = some c
  copying : ∀ p np, v.making p = .copying np →
    v.phase p = .active ∧ v.state np = .used ∧ v.phase np = .dead
  pending : ∀ p np, v.making p = .pending np → v.state np = .used ∧ v.phase np = .resume
  maker : ∀ p q np, (v.making p = .copying np ∨ v.making p = .pending np) →
    (v.making q = .copying np ∨ v.making q = .pending np) → p = q

section

variable {v v' : View}

/-- A process whose lock is free is on a CPU only if it is `RUNNING`. -/
theorem Owner.not_on (h : Owner v) {p : Idx} (hlock : v.plock p = none)
    (hstate : v.state p ≠ .running) (c : Cpu) : (v.mode c).slot ≠ some p := by
  intro hc
  cases hmode : v.mode c with
  | scan i => simp [hmode, Mode.slot] at hc
  | run q =>
    obtain rfl : q = p := by simpa [hmode, Mode.slot] using hc
    have hactive : v.phase q = .active := by
      by_contra hne
      rw [h.own c q hmode hne] at hlock
      cases hlock
    exact hstate ((h.allows q).1 (.inl hactive))
  | back q =>
    obtain rfl : q = p := by simpa [hmode, Mode.slot] using hc
    rw [h.back c q hmode] at hlock
    cases hlock

theorem Owner.unused (h : Owner v) {p : Idx} (hstate : v.state p = .unused) : v.phase p = .dead := by
  have := h.allows p
  cases hph : v.phase p <;> grind

/-! The steps keep each of these. A place whose lock is free and that is not `RUNNING` is on no CPU, and
one that is `UNUSED` has no thread. -/

theorem Owner.step_proc (h : Owner v) (hs : v.Step v') : ∀ c, v'.proc c = (v'.mode c).slot := by
  cases hs <;> simp only [update_apply] <;> grind [Owner.not_on, Owner.unused]

theorem Owner.step_unique (h : Owner v) (hs : v.Step v') :
    ∀ c c' p, (v'.mode c).slot = some p → (v'.mode c').slot = some p → c = c' := by
  cases hs <;> simp only [update_apply] <;> grind [Owner.not_on, Owner.unused]

theorem Owner.step_allows (h : Owner v) (hs : v.Step v') :
    ∀ p, (v'.phase p).Allows (v'.state p) := by
  cases hs <;> simp only [update_apply] <;> grind [Owner.not_on, Owner.unused]

theorem Owner.step_run (h : Owner v) (hs : v.Step v') :
    ∀ c p, v'.mode c = .run p → (v'.phase p).OnCpu (v'.state p) := by
  cases hs <;> simp only [update_apply] <;> grind [Owner.not_on, Owner.unused]

theorem Owner.step_on (h : Owner v) (hs : v.Step v') :
    ∀ p, (v'.phase p).OnCpu (v'.state p) → ∃ c, v'.mode c = .run p := by
  cases hs <;> simp only [update_apply] <;> grind [Owner.not_on, Owner.unused]

theorem Owner.step_back (h : Owner v) (hs : v.Step v') :
    ∀ c p, v'.mode c = .back p → v'.plock p = some c := by
  cases hs <;> simp only [update_apply] <;> grind [Owner.not_on, Owner.unused]

theorem Owner.step_own (h : Owner v) (hs : v.Step v') :
    ∀ c p, v'.mode c = .run p → v'.phase p ≠ .active → v'.plock p = some c := by
  cases hs <;> simp only [update_apply] <;> grind [Owner.not_on, Owner.unused]

theorem Owner.step_copy (h : Owner v) (hs : v.Step v') :
    ∀ c p np, v'.mode c = .run p → v'.making p = .copying np → v'.plock np = some c := by
  cases hs <;> simp only [update_apply] <;> grind [Owner.not_on, Owner.unused]

theorem Owner.step_copying (h : Owner v) (hs : v.Step v') :
    ∀ p np, v'.making p = .copying np →
      v'.phase p = .active ∧ v'.state np = .used ∧ v'.phase np = .dead := by
  cases hs <;> simp only [update_apply] <;> grind [Owner.not_on, Owner.unused]

theorem Owner.step_pending (h : Owner v) (hs : v.Step v') :
    ∀ p np, v'.making p = .pending np → v'.state np = .used ∧ v'.phase np = .resume := by
  cases hs <;> simp only [update_apply] <;> grind [Owner.not_on, Owner.unused]

theorem Owner.step_maker (h : Owner v) (hs : v.Step v') :
    ∀ p q np, (v'.making p = .copying np ∨ v'.making p = .pending np) →
      (v'.making q = .copying np ∨ v'.making q = .pending np) → p = q := by
  cases hs <;> simp only [update_apply] <;> grind [Owner.not_on, Owner.unused]

theorem Owner.step (h : Owner v) (hs : v.Step v') : Owner v' :=
  ⟨h.step_proc hs, h.step_unique hs, h.step_allows hs, h.step_run hs, h.step_on hs, h.step_back hs,
    h.step_own hs, h.step_copy hs, h.step_copying hs, h.step_pending hs, h.step_maker hs⟩

end

end Xv6.Sched
