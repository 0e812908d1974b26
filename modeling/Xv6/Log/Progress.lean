import Xv6.Log.GroupCommit

/-!
# Nobody waits in vain for the log

A process sleeps in `begin_op` only while the test of `begin_op` would fail again (`Sleeps`), because
everything that can make room wakes up the sleepers, and the test fails only while an operation or a
commit is in progress (`Control.busy`).
-/

namespace Xv6.Ops

open Function

theorem beginOp_eq_none {l : Log} : beginOp l = none ↔
    l.committing = true ∨ LOGSIZE < l.lh.length + (l.outstanding + 1) * MAXOPBLOCKS := by
  unfold beginOp
  split_ifs <;> simp_all

/-- No wakeup is lost. -/
def Sleeps (s : State) : Prop := ∀ p, s.phase p = .asleep → beginOp s.log = none

/-- `wakeup(&log)` leaves nobody asleep. -/
theorem wakeup_ne_asleep (phase : ℕ → Phase) (p : ℕ) : wakeup phase p ≠ .asleep := by
  unfold wakeup
  cases phase p <;> simp

theorem Sleeps.step {size : ℕ} {s s' : State} {a : Act} (hc : Control s) (h : Sleeps s)
    (hs : Step size s a s') : Sleeps s' := by
  -- Who sleeps after a step that sets one phase slept before, or is the process of the step.
  have hset : ∀ {p ph}, ph ≠ .asleep → ∀ q, (s.setPhase p ph).phase q = .asleep →
      s.phase q = .asleep := by
    intro p ph hph q hq
    by_cases hqp : q = p
    · subst hqp
      exact absurd (by simpa [State.setPhase] using hq) hph
    · simpa [State.setPhase, hqp] using hq
  intro q hq
  cases hs.trans with
  | enter p hp | kill p hp => exact h q (hset (by simp) q hq)
  | sleep p hp =>
    simp only [Step, Ops.step, hp] at hs
    cases hb : beginOp s.log with
    | none => exact hb
    | some l =>
      rw [hb] at hs
      have hphase := congrFun (congrArg State.phase (Except.ok.inj (Option.some.inj hs))) p
      simp [State.setPhase] at hphase
  | proceed p hp hcom hr =>
    have hnone := beginOp_eq_none.mp (h q (hset (by simp) q hq))
    refine beginOp_eq_none.mpr (hnone.imp id fun hlt => hlt.trans_le ?_)
    dsimp only
    rw [add_mul (s.log.outstanding + 1)]
    omega
  | logWrite p b o lh hp hn hlh =>
    refine beginOp_eq_none.mpr ((beginOp_eq_none.mp (h q hq)).imp id fun hlt => hlt.trans_le ?_)
    have hlen : s.log.lh.length ≤ lh.length := by
      rw [hlh]
      split_ifs <;> simp
    dsimp only
    omega
  | last p o hp hcom ho => exact beginOp_eq_none.mpr (.inl rfl)
  | leave p o hp hcom ho => exact absurd hq (wakeup_ne_asleep _ q)
  | commit p pc hp =>
    have hcom : s.log.committing = true := hc.committing_iff.mpr ⟨p, pc, hp⟩
    cases pc with
    | done => exact absurd hq (wakeup_ne_asleep _ q)
    | _ => exact beginOp_eq_none.mpr (.inl hcom)

/-- While `begin_op` has to wait, somebody is in an operation or in `commit`. -/
theorem Control.busy {s : State} (hc : Control s) (hh : History s) (hnone : beginOp s.log = none) :
    (∃ p o, s.phase p = .inOp o) ∨ ∃ p pc, s.phase p = .commit pc := by
  by_contra hrest
  push Not at hrest
  have hactive : s.active = ∅ := Finset.eq_empty_of_forall_notMem fun o ho => by
    obtain ⟨p, hp⟩ := (hc.active_iff o).mp ho
    exact hrest.1 p o hp
  have hcom : s.log.committing = false := by
    by_contra hcom
    obtain ⟨p, pc, hp⟩ := hc.committing_iff.mp (by simpa using hcom)
    exact hrest.2 p pc hp
  -- The log is empty and there is room for one operation.
  simp [beginOp, hcom, hh.empty hactive hcom, hc.outstanding, hactive] at hnone
  exact absurd hnone (by decide)

/-- Nobody waits in vain for the log. In every state of every run a process that sleeps in `begin_op`
could not go on, so no wakeup is lost, and then an operation or a commit is in progress. -/
theorem begin_op_progress (size : ℕ) (s : State) (hs : Reachable size s) :
    (∀ p, s.phase p = .asleep → beginOp s.log = none) ∧
    (beginOp s.log = none → (∃ p o, s.phase p = .inOp o) ∨ ∃ p pc, s.phase p = .commit pc) := by
  obtain ⟨hc, hh⟩ := hs.inv
  have hsleeps : Control s ∧ Sleeps s := Lib.Reach.invariant (P := fun s => Control s ∧ Sleeps s)
    ⟨Control.init, by simp [Sleeps, Ops.init]⟩ (fun _ _ _ h _ hst => ⟨h.1.step hst, h.2.step h.1 hst⟩) hs
  exact ⟨hsleeps.2, hc.busy hh⟩

/-- Three operations have reserved the whole log, and a fourth process sleeps. -/
theorem begin_op_progress_full : ∃ s, Reachable LOGSIZE s ∧ s.phase 3 = .asleep ∧
    ((∃ p o, s.phase p = .inOp o) ∨ ∃ p pc, s.phase p = .commit pc) := by
  have hrun : ((Lib.execute (next LOGSIZE) (fun _ _ => true) init
      [.enter 0, .begin 0, .enter 1, .begin 1, .enter 2, .begin 2, .enter 3, .begin 3]).map fun s =>
      (step LOGSIZE s (.kill 3)).isSome) = some true := by decide +kernel
  obtain ⟨s, hs, heq⟩ := Option.map_eq_some_iff.mp hrun
  have hreach : Reachable LOGSIZE s :=
    Lib.Reach.init.execute (fun _ _ _ => Step.of_next) (fun _ _ _ => trivial) hs
  have hasleep : s.phase 3 = .asleep := by
    cases hp : s.phase 3 <;> simp [step, hp] at heq ⊢
  obtain ⟨hsleep, hbusy⟩ := begin_op_progress LOGSIZE s hreach
  exact ⟨s, hreach, hasleep, hbusy (hsleep 3 hasleep)⟩

end Xv6.Ops
