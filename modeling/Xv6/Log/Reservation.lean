import Xv6.Log.GroupCommit

/-!
# Log space reservation

`begin_op` admits an operation when `MAXOPBLOCKS` more blocks for it and for every operation in
progress fit in `LOGSIZE`. The log that `mkfs` lays out has `LOGSIZE` blocks with its header among
them, so it holds `LOGSIZE - 1` data blocks, and `log_write` panics when the header already lists that
many, even if the block is one of them. Three operations that use their whole budgets therefore panic.

The quantity that decides is `reserved`: the blocks in the header and those that the operations in
progress may still add. No step but an admission raises it, so no run panics in which every admission
leaves it at most `LOGSIZE - 2`.
-/

namespace Xv6.Ops

open Function Lib

/-- The operation of a process that calls `log_write` stays within `MAXOPBLOCKS` distinct blocks. -/
def Budgeted (s : State) : Act → Prop
  | .logWrite p b =>
    match s.phase p with
    | .inOp o => ((s.updates o).insert b).length ≤ MAXOPBLOCKS
    | _ => True
  | _ => True

/-- Whether `Budgeted` holds can be computed. -/
instance (s : State) (a : Act) : Decidable (Budgeted s a) :=
  match a with
  | .logWrite p b =>
    match h : s.phase p with
    | .inOp o =>
      decidable_of_iff (((s.updates o).insert b).length ≤ MAXOPBLOCKS) (by simp [Budgeted, h])
    | .idle | .waiting | .asleep | .commit _ => .isTrue (by simp [Budgeted, h])
  | .enter _ | .begin _ | .kill _ | .endOp _ | .commit _ => .isTrue trivial

/-- Process `p` logs the `n` blocks from `first` on. -/
def logRange (p first n : ℕ) : List Act := (List.range n).map fun i => Act.logWrite p (first + i)

/-- Three processes enter operations; processes 0 and 1 log ten blocks each and process 2 logs
nine. -/
def threeOps : List Act :=
  [.enter 0, .begin 0, .enter 1, .begin 1, .enter 2, .begin 2] ++
    logRange 0 50 10 ++ logRange 1 60 10 ++ logRange 2 70 9

/-- The step panics with "too big a transaction". -/
def isTooBig : Option (Except LogPanic State) → Bool
  | some (.error .tooBig) => true
  | _ => false

/-- After `threeOps` the tenth block of process 2, which its budget allows, panics. -/
theorem threeOps_too_big : ∃ s, Reach init (Step LOGSIZE) Budgeted s ∧
    Budgeted s (.logWrite 2 79) ∧ step LOGSIZE s (.logWrite 2 79) = some (.error .tooBig) := by
  have hrun : ((execute (next LOGSIZE) (fun s a => decide (Budgeted s a)) init threeOps).map
      fun s => (decide (Budgeted s (.logWrite 2 79)), isTooBig (step LOGSIZE s (.logWrite 2 79)))) =
      some (true, true) := by decide +kernel
  obtain ⟨s, hs, heq⟩ := Option.map_eq_some_iff.mp hrun
  simp only [Prod.mk.injEq, decide_eq_true_eq] at heq
  obtain ⟨hb, hpanic⟩ := heq
  refine ⟨s, ?_, hb, ?_⟩
  · exact Reach.init.execute (fun _ _ _ => Step.of_next) (fun _ _ => of_decide_eq_true) hs
  · unfold isTooBig at hpanic
    split at hpanic
    · assumption
    · simp at hpanic

/-- The blocks in the header and those that the operations in progress may still add. -/
def reserved (s : State) : ℕ :=
  s.log.lh.length + ∑ o ∈ s.active, (MAXOPBLOCKS - (s.updates o).length)

/-- An operation is admitted only when its whole budget fits next to what is reserved, one block short
of the `LOGSIZE - 1` data blocks of the log. -/
def Fits (s : State) : Act → Prop
  | .begin _ => (beginOp s.log).isSome → reserved s + MAXOPBLOCKS ≤ LOGSIZE - 2
  | _ => True

/-- Whether `Fits` holds can be computed. -/
instance (s : State) (a : Act) : Decidable (Fits s a) :=
  match a with
  | .begin _ =>
    inferInstanceAs (Decidable ((beginOp s.log).isSome → reserved s + MAXOPBLOCKS ≤ LOGSIZE - 2))
  | .enter _ | .kill _ | .logWrite _ _ | .endOp _ | .commit _ => .isTrue trivial

theorem reserved_logWrite_le {s : State} (hh : History s) {b o : ℕ} (ho : o ∈ s.active)
    {lh : List ℕ} (hlh : lh = if b ∈ s.log.lh then s.log.lh else s.log.lh ++ [b])
    (hb : ((s.updates o).insert b).length ≤ MAXOPBLOCKS) :
    reserved { s with
      log := { s.log with lh := lh }
      updates := update s.updates o ((s.updates o).insert b)
      pending := s.pending.insert (o, b) } ≤ reserved s := by
  have hrest : ∑ x ∈ s.active.erase o, (MAXOPBLOCKS -
        (update s.updates o ((s.updates o).insert b) x).length) =
      ∑ x ∈ s.active.erase o, (MAXOPBLOCKS - (s.updates x).length) := by
    refine Finset.sum_congr rfl fun x hx => ?_
    rw [update_of_ne (Finset.ne_of_mem_erase hx)]
  simp only [reserved]
  rw [← Finset.add_sum_erase _ _ ho, ← Finset.add_sum_erase _ _ ho, hrest, update_self]
  by_cases hmem : b ∈ s.updates o
  · -- The operation has logged the block before, so it is in the header.
    have hin : b ∈ s.log.lh := (hh.lh_iff b).mpr ⟨o, (hh.inHeader ho).1 b hmem⟩
    simp [hlh, hin, List.insert_of_mem hmem]
  · rw [List.insert_of_not_mem hmem, List.length_cons] at hb ⊢
    have hlen : lh.length ≤ s.log.lh.length + 1 := by
      rw [hlh]
      split_ifs <;> simp
    omega

/-- The invariant of the runs in which every admission fits. -/
structure Reserved (s : State) : Prop where
  control : Control s
  history : History s
  bound : reserved s ≤ LOGSIZE - 2

theorem Reserved.step {s s' : State} {a : Act} (h : Reserved s) (hb : Budgeted s a)
    (hf : Fits s a) (hs : Step LOGSIZE s a s') : Reserved s' := by
  have hbound := h.bound
  refine ⟨h.control.step hs, h.history.step h.control hs, ?_⟩
  cases hs.trans with
  | enter p hp | sleep p hp | kill p hp => exact hbound
  | proceed p hp hcom hr =>
    have hnew : s.nextOp ∉ s.active := fun hmem => (h.control.active_lt _ hmem).false
    have hadm : (beginOp s.log).isSome := by
      simp only [beginOp, hcom, Bool.false_eq_true, if_false]
      rw [if_neg (by omega)]
      rfl
    have hfit : reserved s + MAXOPBLOCKS ≤ LOGSIZE - 2 := hf hadm
    simp only [reserved, State.setPhase] at hfit ⊢
    rw [Finset.sum_insert hnew, h.history.fresh _ le_rfl, List.length_nil]
    omega
  | logWrite p b o lh hp hn hlh =>
    have ho : o ∈ s.active := (h.control.active_iff o).mpr ⟨p, hp⟩
    have hb' : ((s.updates o).insert b).length ≤ MAXOPBLOCKS := by simpa [Budgeted, hp] using hb
    exact (reserved_logWrite_le h.history ho hlh hb').trans hbound
  | last p o hp hcom ho | leave p o hp hcom ho =>
    refine le_trans ?_ hbound
    exact Nat.add_le_add_left (Finset.sum_le_sum_of_subset (Finset.erase_subset _ _)) _
  | commit p pc hp =>
    cases pc with
    | clear =>
      refine le_trans ?_ hbound
      exact Nat.add_le_add_right (Nat.zero_le _) _
    | _ => exact hbound

/-- In every run in which the operations keep to their budgets and every admission fits, no
`log_write` within its budget finds the transaction too big, and the header lists no more blocks than
the on-disk log has data blocks. -/
theorem log_write_fits (s : State)
    (hs : Reach init (Step LOGSIZE) (fun s a => Budgeted s a ∧ Fits s a) s) :
    (∀ a, step LOGSIZE s a ≠ some (.error .tooBig)) ∧ s.log.lh.length ≤ LOGSIZE - 1 := by
  have hinv : Reserved s := by
    refine Reach.invariant (P := Reserved) ⟨Control.init, History.init, ?_⟩
      (fun _ _ _ h hok hst => h.step hok.1 hok.2 hst) hs
    simp [reserved, init]
  have hlh : s.log.lh.length ≤ LOGSIZE - 2 := (Nat.le_add_right _ _).trans hinv.bound
  refine ⟨fun a ha => ?_, by omega⟩
  rcases step_eq_error ha with ⟨p, b, o, -, hp, he⟩ | ⟨p, o, -, hp, he⟩
  · have hpos : 2 ≤ LOGSIZE := by decide
    rw [logWrite, if_neg (by omega)] at he
    split_ifs at he
    simp at he
  · simp only [endOp] at he
    split_ifs at he
    simp at he

/-- Two operations that use their whole budgets together fit: the run that admits them and logs all
twenty blocks reaches a state that no further step takes to the panic. -/
theorem log_write_fits_twoOps : ∃ s, s.log.lh.length = 20 ∧
    ∀ a, step LOGSIZE s a ≠ some (.error .tooBig) := by
  have hrun : ((execute (next LOGSIZE) (fun s a => decide (Budgeted s a ∧ Fits s a)) init
      ([.enter 0, .begin 0, .enter 1, .begin 1] ++
        logRange 0 50 10 ++ logRange 1 60 10)).map fun s => s.log.lh.length) =
      some 20 := by decide +kernel
  obtain ⟨s, hs, hlen⟩ := Option.map_eq_some_iff.mp hrun
  have hreach : Reach init (Step LOGSIZE) (fun s a => Budgeted s a ∧ Fits s a) s :=
    Reach.init.execute (fun _ _ _ => Step.of_next) (fun _ _ => of_decide_eq_true) hs
  exact ⟨s, hlen, (log_write_fits s hreach).1⟩

end Xv6.Ops
