import Xv6.Param
import Xv6.Lib.Run

/-!
# Concurrent operations on the log

The part of `kernel/log.c` that lets file-system operations share one transaction: `begin_op`,
`end_op`, `log_write`, and the steps of `commit`, run by any number of processes. A step is a
critical section under `log.lock`, or one step of `commit`, which runs without the lock.

Besides the program's own data the state carries history: which blocks each operation has logged,
which updates are in the in-memory header, and which updates each completed commit contained.
-/

namespace Xv6.Ops

open Function

/-- The fields of `struct log` that `log.lock` protects. `lh` is the header's list of block numbers,
so that `log.lh.n` is its length. -/
structure Log where
  outstanding : ℤ
  committing : Bool
  lh : List ℕ

/-- The panics of `kernel/log.c`. -/
inductive LogPanic
  /-- `panic("too big a transaction")` -/
  | tooBig
  /-- `panic("log_write outside of trans")` -/
  | outsideTrans
  /-- `panic("log.committing")` -/
  | committing
  deriving DecidableEq

/-- One round of `begin_op`'s loop: the log with the operation admitted, or `none` when the process
has to sleep. -/
def beginOp (l : Log) : Option Log :=
  if l.committing then none
  else if l.lh.length + (l.outstanding + 1) * MAXOPBLOCKS > LOGSIZE then none
  else some { l with outstanding := l.outstanding + 1 }

/-- The first critical section of `end_op`: the new log and `do_commit`. -/
def endOp (l : Log) : Except LogPanic (Log × Bool) :=
  let l := { l with outstanding := l.outstanding - 1 }
  if l.committing then .error .committing
  else if l.outstanding = 0 then .ok ({ l with committing := true }, true)
  else .ok (l, false)

/-- `log_write` of a buffer holding block `b`: the new log, and whether the buffer is pinned. -/
def logWrite (size : ℕ) (l : Log) (b : ℕ) : Except LogPanic (Log × Bool) :=
  if (l.lh.length : ℤ) ≥ LOGSIZE ∨ (l.lh.length : ℤ) ≥ (size : ℤ) - 1 then .error .tooBig
  else if l.outstanding < 1 then .error .outsideTrans
  else if b ∈ l.lh then .ok (l, false)
  else .ok ({ l with lh := l.lh ++ [b] }, true)

/-- Where a process is in `commit`. -/
inductive CommitPc
  /-- at the test `log.lh.n > 0` -/
  | test
  /-- in `write_log`, about to copy block `tail` -/
  | writeLog (tail : ℕ)
  /-- at the first `write_head` -/
  | writeHead
  /-- in `install_trans`, about to copy block `tail` -/
  | install (tail : ℕ)
  /-- at `log.lh.n = 0` -/
  | clear
  /-- at the second `write_head` -/
  | eraseHead
  /-- back in `end_op`, about to reset `log.committing` -/
  | done

/-- Where a process is. -/
inductive Phase
  /-- outside any operation -/
  | idle
  /-- in `begin_op`, about to take `log.lock` and test -/
  | waiting
  /-- in `begin_op`, sleeping on `&log` -/
  | asleep
  /-- between `begin_op` and `end_op`, as operation `op` -/
  | inOp (op : ℕ)
  /-- in `end_op`, running `commit` -/
  | commit (pc : CommitPc)

/-- The log, the processes, and the history: the next operation's number, the operations in progress,
the blocks that each operation has logged, the updates (operation and block) in the in-memory header,
and those of each completed commit, oldest first. -/
structure State where
  log : Log
  phase : ℕ → Phase
  nextOp : ℕ
  active : Finset ℕ
  updates : ℕ → List ℕ
  pending : List (ℕ × ℕ)
  commits : List (List (ℕ × ℕ))

/-- The log after `initlog`, with no operation started. -/
def init : State where
  log := ⟨0, false, []⟩
  phase := fun _ => .idle
  nextOp := 0
  active := ∅
  updates := fun _ => []
  pending := []
  commits := []

/-- The state with process `p` moved to phase `ph`. -/
def State.setPhase (s : State) (p : ℕ) (ph : Phase) : State :=
  { s with phase := update s.phase p ph }

/-- `wakeup(&log)`: every process sleeping in `begin_op` will test again. -/
def wakeup (phase : ℕ → Phase) : ℕ → Phase := fun p =>
  match phase p with
  | .asleep => .waiting
  | ph => ph

/-- The steps of process `p`. -/
inductive Act
  /-- it calls `begin_op` -/
  | enter (p : ℕ)
  /-- it holds `log.lock` in `begin_op` and tests -/
  | begin (p : ℕ)
  /-- `kill` wakes it from its sleep -/
  | kill (p : ℕ)
  /-- it calls `log_write` on a buffer holding block `b` -/
  | logWrite (p b : ℕ)
  /-- it calls `end_op` -/
  | endOp (p : ℕ)
  /-- it takes the next step of `commit` -/
  | commit (p : ℕ)

/-- One step of `commit` by process `p`. -/
def commitStep (s : State) (p : ℕ) : CommitPc → State
  | .test => s.setPhase p (.commit (if 0 < s.log.lh.length then .writeLog 0 else .done))
  | .writeLog tail =>
    s.setPhase p (.commit (if tail < s.log.lh.length then .writeLog (tail + 1) else .writeHead))
  | .writeHead => s.setPhase p (.commit (.install 0))
  | .install tail =>
    s.setPhase p (.commit (if tail < s.log.lh.length then .install (tail + 1) else .clear))
  | .clear => { s.setPhase p (.commit .eraseHead) with
      log := { s.log with lh := [] }
      pending := []
      commits := s.commits ++ [s.pending] }
  | .eraseHead => s.setPhase p (.commit .done)
  | .done => { s with
      log := { s.log with committing := false }
      phase := wakeup (update s.phase p .idle) }

/-- One step of the system: `none` where the process cannot take it. -/
def step (size : ℕ) (s : State) : Act → Option (Except LogPanic State)
  | .enter p =>
    match s.phase p with
    | .idle => some (.ok (s.setPhase p .waiting))
    | _ => none
  | .begin p =>
    match s.phase p with
    | .waiting =>
      match beginOp s.log with
      | none => some (.ok (s.setPhase p .asleep))
      | some l => some (.ok { s.setPhase p (.inOp s.nextOp) with
          log := l
          nextOp := s.nextOp + 1
          active := insert s.nextOp s.active })
    | _ => none
  | .kill p =>
    match s.phase p with
    | .asleep => some (.ok (s.setPhase p .waiting))
    | _ => none
  | .logWrite p b =>
    match s.phase p with
    | .inOp o =>
      match logWrite size s.log b with
      | .error e => some (.error e)
      | .ok (l, _) => some (.ok { s with
          log := l
          updates := update s.updates o ((s.updates o).insert b)
          pending := s.pending.insert (o, b) })
    | _ => none
  | .endOp p =>
    match s.phase p with
    | .inOp o =>
      match endOp s.log with
      | .error e => some (.error e)
      | .ok (l, true) => some (.ok { s.setPhase p (.commit .test) with
          log := l
          active := s.active.erase o })
      | .ok (l, false) => some (.ok { s with
          log := l
          phase := wakeup (update s.phase p .idle)
          active := s.active.erase o })
    | _ => none
  | .commit p =>
    match s.phase p with
    | .commit pc => some (.ok (commitStep s p pc))
    | _ => none

/-- The step relation of the runs that do not panic. -/
def Step (size : ℕ) (s : State) (a : Act) (s' : State) : Prop := step size s a = some (.ok s')

/-- The state after a step that does not panic. -/
def next (size : ℕ) (s : State) (a : Act) : Option State :=
  match step size s a with
  | some (.ok s') => some s'
  | _ => none

theorem Step.of_next {size : ℕ} {s s' : State} {a : Act} (h : next size s a = some s') :
    Step size s a s' := by
  unfold next at h
  split at h
  · next hs =>
    cases h
    exact hs
  · cases h

/-- What a step that does not panic does, with the tests it passed. -/
inductive Trans (size : ℕ) (s : State) : Act → State → Prop
  | enter (p : ℕ) (h : s.phase p = .idle) : Trans size s (.enter p) (s.setPhase p .waiting)
  | sleep (p : ℕ) (h : s.phase p = .waiting) : Trans size s (.begin p) (s.setPhase p .asleep)
  | proceed (p : ℕ) (h : s.phase p = .waiting) (hc : s.log.committing = false)
      (hr : s.log.lh.length + (s.log.outstanding + 1) * MAXOPBLOCKS ≤ LOGSIZE) :
      Trans size s (.begin p) { s.setPhase p (.inOp s.nextOp) with
        log := { s.log with outstanding := s.log.outstanding + 1 }
        nextOp := s.nextOp + 1
        active := insert s.nextOp s.active }
  | kill (p : ℕ) (h : s.phase p = .asleep) : Trans size s (.kill p) (s.setPhase p .waiting)
  | logWrite (p b o : ℕ) (lh : List ℕ) (h : s.phase p = .inOp o)
      (hn : (s.log.lh.length : ℤ) < (size : ℤ) - 1)
      (hlh : lh = if b ∈ s.log.lh then s.log.lh else s.log.lh ++ [b]) :
      Trans size s (.logWrite p b) { s with
        log := { s.log with lh := lh }
        updates := update s.updates o ((s.updates o).insert b)
        pending := s.pending.insert (o, b) }
  | last (p o : ℕ) (h : s.phase p = .inOp o) (hc : s.log.committing = false)
      (ho : s.log.outstanding = 1) :
      Trans size s (.endOp p) { s.setPhase p (.commit .test) with
        log := { s.log with outstanding := s.log.outstanding - 1, committing := true }
        active := s.active.erase o }
  | leave (p o : ℕ) (h : s.phase p = .inOp o) (hc : s.log.committing = false)
      (ho : s.log.outstanding ≠ 1) :
      Trans size s (.endOp p) { s with
        log := { s.log with outstanding := s.log.outstanding - 1 }
        phase := wakeup (update s.phase p .idle)
        active := s.active.erase o }
  | commit (p : ℕ) (pc : CommitPc) (h : s.phase p = .commit pc) :
      Trans size s (.commit p) (commitStep s p pc)

theorem Step.trans {size : ℕ} {s s' : State} {a : Act} (h : Step size s a s') :
    Trans size s a s' := by
  unfold Step at h
  cases a with
  | enter p =>
    cases hp : s.phase p <;> simp only [step, hp, Option.some.injEq, Except.ok.injEq,
      reduceCtorEq] at h
    subst h
    exact .enter p hp
  | begin p =>
    cases hp : s.phase p <;> simp only [step, hp, reduceCtorEq] at h
    unfold beginOp at h
    split_ifs at h with hc hr
    · cases h
      exact .sleep p hp
    · cases h
      exact .sleep p hp
    · cases h
      exact .proceed p hp (by simpa using hc) (by omega)
  | kill p =>
    cases hp : s.phase p <;> simp only [step, hp, Option.some.injEq, Except.ok.injEq,
      reduceCtorEq] at h
    subst h
    exact .kill p hp
  | logWrite p b =>
    cases hp : s.phase p <;> simp only [step, hp, reduceCtorEq] at h
    unfold logWrite at h
    split_ifs at h with h1 h2 h3
    · cases h
    · cases h
    · cases h
      exact .logWrite p b _ _ hp (by omega) (by simp [h3])
    · cases h
      exact .logWrite p b _ _ hp (by omega) (by simp [h3])
  | endOp p =>
    cases hp : s.phase p <;> simp only [step, hp, reduceCtorEq] at h
    simp only [endOp] at h
    split_ifs at h with hc ho
    · cases h
    · cases h
      exact .last p _ hp (by simpa using hc) (by omega)
    · cases h
      exact .leave p _ hp (by simpa using hc) (by omega)
  | commit p =>
    cases hp : s.phase p <;> simp only [step, hp, Option.some.injEq, Except.ok.injEq,
      reduceCtorEq] at h
    subst h
    exact .commit p _ hp

theorem step_eq_error {size : ℕ} {s : State} {a : Act} {e : LogPanic}
    (h : step size s a = some (.error e)) :
    (∃ p b o, a = .logWrite p b ∧ s.phase p = .inOp o ∧ logWrite size s.log b = .error e) ∨
      ∃ p o, a = .endOp p ∧ s.phase p = .inOp o ∧ endOp s.log = .error e := by
  cases a with
  | enter p | kill p | commit p => cases hp : s.phase p <;> simp [step, hp] at h
  | begin p =>
    cases hp : s.phase p <;> simp only [step, hp, reduceCtorEq] at h
    cases hb : beginOp s.log <;> simp [hb] at h
  | logWrite p b =>
    cases hp : s.phase p <;> simp only [step, hp, reduceCtorEq] at h
    cases hl : logWrite size s.log b with
    | error e' =>
      simp only [hl, Option.some.injEq, Except.error.injEq] at h
      exact .inl ⟨p, b, _, rfl, hp, h ▸ hl⟩
    | ok r => simp [hl] at h
  | endOp p =>
    cases hp : s.phase p <;> simp only [step, hp, reduceCtorEq] at h
    rcases he : endOp s.log with e' | ⟨l, _ | _⟩
    · simp only [he, Option.some.injEq, Except.error.injEq] at h
      exact .inr ⟨p, _, rfl, hp, congrArg _ h⟩
    · simp [he] at h
    · simp [he] at h

/-! ## Which process does what -/

/-- Waking sleepers changes no phase inside an operation. -/
@[simp]
theorem wakeup_eq_inOp {phase : ℕ → Phase} {p o : ℕ} :
    wakeup phase p = .inOp o ↔ phase p = .inOp o := by
  unfold wakeup
  cases phase p <;> simp

/-- Waking sleepers changes no phase inside `commit`. -/
@[simp]
theorem wakeup_eq_commit {phase : ℕ → Phase} {p : ℕ} {pc : CommitPc} :
    wakeup phase p = .commit pc ↔ phase p = .commit pc := by
  unfold wakeup
  cases phase p <;> simp

/-- The control part of the invariant. The operations in progress are those of the processes in an
operation, one each, and `outstanding` counts them. `committing` is set exactly while some process
runs `commit`, at most one does, and then no operation is in progress. -/
structure Control (s : State) : Prop where
  active_iff : ∀ o, o ∈ s.active ↔ ∃ p, s.phase p = .inOp o
  active_unique : ∀ p q o, s.phase p = .inOp o → s.phase q = .inOp o → p = q
  active_lt : ∀ o ∈ s.active, o < s.nextOp
  outstanding : s.log.outstanding = s.active.card
  committing_iff : s.log.committing = true ↔ ∃ p pc, s.phase p = .commit pc
  commit_unique : ∀ p q pc pc', s.phase p = .commit pc → s.phase q = .commit pc' → p = q
  quiet : s.log.committing = true → s.active = ∅

theorem Control.init : Control Ops.init := by
  constructor <;> simp [Ops.init]

/-- A step that keeps the counters and leaves every process inside or outside an operation, and
inside or outside `commit`, as it was keeps the control invariant. -/
theorem Control.congr {s s' : State} (h : Control s) (ho : s'.log.outstanding = s.log.outstanding)
    (hc : s'.log.committing = s.log.committing) (ha : s'.active = s.active)
    (hn : s'.nextOp = s.nextOp) (e1 : ∀ q o, s'.phase q = .inOp o ↔ s.phase q = .inOp o)
    (e2 : ∀ q, (∃ pc, s'.phase q = .commit pc) ↔ ∃ pc, s.phase q = .commit pc) :
    Control s' := by
  refine ⟨?_, ?_, ?_, ?_, ?_, ?_, ?_⟩
  · simpa only [e1, ha] using h.active_iff
  · simpa only [e1] using h.active_unique
  · simpa only [ha, hn] using h.active_lt
  · rw [ho, ha]
    exact h.outstanding
  · simpa only [e2, hc] using h.committing_iff
  · intro p q pc pc' hp hq
    obtain ⟨pc1, h1⟩ := (e2 p).mp ⟨pc, hp⟩
    obtain ⟨pc2, h2⟩ := (e2 q).mp ⟨pc', hq⟩
    exact h.commit_unique p q pc1 pc2 h1 h2
  · rw [hc, ha]
    exact h.quiet

theorem Control.setPhase {s : State} (h : Control s) {p : ℕ} {ph : Phase}
    (hp : ∀ o, s.phase p ≠ .inOp o) (hp' : ∀ pc, s.phase p ≠ .commit pc)
    (hph : ∀ o, ph ≠ .inOp o) (hph' : ∀ pc, ph ≠ .commit pc) : Control (s.setPhase p ph) := by
  refine h.congr rfl rfl rfl rfl (fun q o => ?_) fun q => ?_
  · simp only [State.setPhase, update_apply]
    grind
  · simp only [State.setPhase, update_apply]
    grind

theorem Control.moveCommit {s : State} (h : Control s) {p : ℕ} {pc : CommitPc}
    (hp : s.phase p = .commit pc) (pc' : CommitPc) : Control (s.setPhase p (.commit pc')) := by
  refine h.congr rfl rfl rfl rfl (fun q o => ?_) fun q => ?_
  · simp only [State.setPhase, update_apply]
    grind
  · simp only [State.setPhase, update_apply]
    grind

theorem Control.not_committing {s : State} (h : Control s) {p o : ℕ}
    (hp : s.phase p = .inOp o) : s.log.committing = false := by
  have ho : o ∈ s.active := (h.active_iff o).mpr ⟨p, hp⟩
  by_contra hc
  rw [h.quiet (by simpa using hc)] at ho
  simp at ho

theorem Control.not_commit {s : State} (h : Control s) (hc : s.log.committing = false) (p : ℕ)
    (pc : CommitPc) : s.phase p ≠ .commit pc := by
  intro hp
  have := h.committing_iff.mpr ⟨p, pc, hp⟩
  simp [hc] at this

theorem Control.proceed {s : State} (h : Control s) {p : ℕ} (hp : s.phase p = .waiting)
    (hc : s.log.committing = false) :
    Control { s.setPhase p (.inOp s.nextOp) with
      log := { s.log with outstanding := s.log.outstanding + 1 }
      nextOp := s.nextOp + 1
      active := insert s.nextOp s.active } := by
  have hfresh : s.nextOp ∉ s.active := fun hmem => lt_irrefl _ (h.active_lt _ hmem)
  have hnone : ∀ q, s.phase q ≠ .inOp s.nextOp := fun q hq =>
    hfresh ((h.active_iff _).mpr ⟨q, hq⟩)
  have e1 : ∀ q o, (s.setPhase p (.inOp s.nextOp)).phase q = .inOp o ↔
      (q = p ∧ o = s.nextOp) ∨ s.phase q = .inOp o := by
    intro q o
    simp only [State.setPhase, update_apply]
    grind
  have e2 : ∀ q pc, (s.setPhase p (.inOp s.nextOp)).phase q = .commit pc ↔
      s.phase q = .commit pc := by
    intro q pc
    simp only [State.setPhase, update_apply]
    grind
  refine ⟨fun o => ?_, fun q r o hq hr => ?_, fun o ho => ?_, ?_, ?_, ?_, ?_⟩
  · simp only [e1, Finset.mem_insert, h.active_iff]
    grind
  · have := h.active_unique q r o
    have := hnone q
    have := hnone r
    grind
  · have := h.active_lt o
    grind
  · simp only [Finset.card_insert_of_notMem hfresh, h.outstanding]
    push_cast
    rfl
  · simpa only [e2] using h.committing_iff
  · simpa only [e2] using h.commit_unique
  · simp [hc]

theorem Control.endOp {s : State} (h : Control s) {p o : ℕ} (hp : s.phase p = .inOp o)
    (phase : ℕ → Phase) (committing : Bool)
    (e1 : ∀ q o, phase q = .inOp o ↔ q ≠ p ∧ s.phase q = .inOp o)
    (e2 : ∀ q pc, phase q = .commit pc → q = p ∧ committing = true)
    (e3 : committing = true → s.log.outstanding = 1 ∧ ∃ pc, phase p = .commit pc) :
    Control { s with
      log := { s.log with outstanding := s.log.outstanding - 1, committing := committing }
      phase := phase
      active := s.active.erase o } := by
  have ho : o ∈ s.active := (h.active_iff o).mpr ⟨p, hp⟩
  have hcard := Finset.card_erase_of_mem ho
  have hpos : 0 < s.active.card := Finset.card_pos.mpr ⟨o, ho⟩
  refine ⟨fun o' => ?_, fun q r o' hq hr => ?_, fun o' ho' => ?_, ?_, ?_, ?_, ?_⟩
  · simp only [e1, Finset.mem_erase, h.active_iff]
    constructor
    · rintro ⟨hne, q, hq⟩
      refine ⟨q, ?_, hq⟩
      rintro rfl
      rw [hp] at hq
      exact hne (Phase.inOp.inj hq).symm
    · rintro ⟨q, hqp, hq⟩
      refine ⟨?_, q, hq⟩
      rintro rfl
      exact hqp (h.active_unique q p _ hq hp)
  · exact h.active_unique q r o' ((e1 q o').mp hq).2 ((e1 r o').mp hr).2
  · exact h.active_lt o' (Finset.mem_of_mem_erase ho')
  · simp only [h.outstanding, hcard]
    omega
  · constructor
    · intro hc
      exact ⟨p, (e3 hc).2⟩
    · rintro ⟨q, pc, hq⟩
      exact (e2 q pc hq).2
  · intro q r pc pc' hq hr
    rw [(e2 q pc hq).1, (e2 r pc' hr).1]
  · intro hc
    have h1 := (e3 hc).1
    rw [h.outstanding] at h1
    exact Finset.card_eq_zero.mp (by rw [hcard]; omega)

theorem Control.done {s : State} (h : Control s) {p : ℕ} (hp : s.phase p = .commit .done) :
    Control (commitStep s p .done) := by
  have hc : s.log.committing = true := h.committing_iff.mpr ⟨p, _, hp⟩
  have e1 : ∀ q o, (commitStep s p .done).phase q = .inOp o ↔ s.phase q = .inOp o := by
    intro q o
    simp only [commitStep, wakeup_eq_inOp, update_apply]
    grind
  have e2 : ∀ q pc, (commitStep s p .done).phase q ≠ .commit pc := by
    intro q pc
    have := h.commit_unique q p pc .done
    simp only [commitStep, ne_eq, wakeup_eq_commit, update_apply]
    grind
  refine ⟨?_, ?_, h.active_lt, h.outstanding, ?_, ?_, ?_⟩
  · simp only [e1]
    exact h.active_iff
  · simpa only [e1] using h.active_unique
  · simp only [e2, exists_false, iff_false]
    simp [commitStep]
  · intro q r pc pc' hq
    exact absurd hq (e2 q pc)
  · simp [commitStep]

theorem Control.step {size : ℕ} {s s' : State} {a : Act} (h : Control s)
    (hs : Step size s a s') : Control s' := by
  cases hs.trans with
  | enter p hp => exact h.setPhase (by simp [hp]) (by simp [hp]) (by simp) (by simp)
  | sleep p hp => exact h.setPhase (by simp [hp]) (by simp [hp]) (by simp) (by simp)
  | proceed p hp hc _ => exact h.proceed hp hc
  | kill p hp => exact h.setPhase (by simp [hp]) (by simp [hp]) (by simp) (by simp)
  | logWrite p b o lh hp _ _ => exact h.congr rfl rfl rfl rfl (fun _ _ => .rfl) fun _ => .rfl
  | last p o hp hc ho =>
    refine h.endOp hp _ true (fun q o' => ?_) (fun q pc hq => ?_) fun _ => ⟨ho, .test, ?_⟩
    · simp only [State.setPhase, update_apply]
      grind
    · have := h.not_commit hc q pc
      simp only [State.setPhase, update_apply] at hq
      grind
    · simp [State.setPhase]
  | leave p o hp hc ho =>
    refine h.endOp hp (wakeup (update s.phase p .idle)) s.log.committing
      (fun q o' => ?_) (fun q pc hq => ?_) fun hc' => by simp [hc] at hc'
    · simp only [wakeup_eq_inOp, update_apply]
      grind
    · have := h.not_commit hc q pc
      simp only [wakeup_eq_commit, update_apply] at hq
      grind
  | commit p pc hp =>
    cases pc with
    | clear => exact (h.moveCommit hp .eraseHead).congr rfl rfl rfl rfl (fun _ _ => .rfl) fun _ => .rfl
    | done => exact h.done hp
    | _ => exact h.moveCommit hp _

end Xv6.Ops
