import Xv6.Log.Ops

/-!
# Group commit

Operations that overlap in time are committed together. The history of `Xv6.Log.Ops` shows where the
updates of an operation are at any moment: in the in-memory header, or in one completed commit.
-/

namespace Xv6.Ops

open Function

/-- The updates of operation `o` are in the in-memory header and in no completed commit. -/
def InHeader (s : State) (o : ℕ) : Prop :=
  (∀ b ∈ s.updates o, (o, b) ∈ s.pending) ∧ ∀ c ∈ s.commits, ∀ b, (o, b) ∉ c

/-- The updates of operation `o` are all in one completed commit, and none of them is in another
commit or in the in-memory header. -/
def InOneCommit (s : State) (o : ℕ) : Prop :=
  ∃ (k : ℕ) (c : List (ℕ × ℕ)), s.commits[k]? = some c ∧ (∀ b ∈ s.updates o, (o, b) ∈ c) ∧
    (∀ (j : ℕ) c', s.commits[j]? = some c' → j ≠ k → ∀ b, (o, b) ∉ c') ∧ ∀ b, (o, b) ∉ s.pending

/-- The history part of the invariant. The header lists the blocks of the pending updates, each once.
The updates of every operation are together, in the header or in one commit, and those of an operation
in progress are in the header. Once `commit` has cleared the header, and whenever nothing is going on,
the header is empty. -/
structure History (s : State) : Prop where
  fresh : ∀ o, s.nextOp ≤ o → s.updates o = []
  lh_iff : ∀ b, b ∈ s.log.lh ↔ ∃ o, (o, b) ∈ s.pending
  nodup : s.log.lh.Nodup
  pending_mem : ∀ o b, (o, b) ∈ s.pending → b ∈ s.updates o
  commits_mem : ∀ c ∈ s.commits, ∀ o b, (o, b) ∈ c → b ∈ s.updates o
  placed : ∀ o, InHeader s o ∨ InOneCommit s o
  active_pending : ∀ o ∈ s.active, ∀ c ∈ s.commits, ∀ b, (o, b) ∉ c
  cleared : ∀ p, s.phase p = .commit .eraseHead ∨ s.phase p = .commit .done → s.log.lh = []
  empty : s.active = ∅ → s.log.committing = false → s.log.lh = []

theorem History.init : History Ops.init := by
  constructor <;> simp [Ops.init, InHeader]

theorem History.inHeader {s : State} (h : History s) {o : ℕ} (ho : o ∈ s.active) :
    InHeader s o := by
  rcases h.placed o with hw | ⟨k, c, hk, hall, -, -⟩
  · exact hw
  · refine ⟨fun b hb => ?_, h.active_pending o ho⟩
    exact absurd (hall b hb) (h.active_pending o ho c (List.mem_of_getElem? hk) b)

theorem History.setPhase {s : State} (h : History s) {p : ℕ} {ph : Phase}
    (hph : ph = .commit .eraseHead ∨ ph = .commit .done → s.log.lh = []) :
    History (s.setPhase p ph) := by
  obtain ⟨h1, h2, h3, h4, h5, h6, h7, h8, h9⟩ := h
  refine ⟨h1, h2, h3, h4, h5, h6, h7, fun q hq => ?_, h9⟩
  by_cases hqp : q = p
  · subst hqp
    exact hph (by simpa [State.setPhase] using hq)
  · exact h8 q (by simpa [State.setPhase, hqp] using hq)

theorem History.logWrite {s : State} (hc : Control s) (h : History s) {p b o : ℕ} {lh : List ℕ}
    (hp : s.phase p = .inOp o) (hlh : lh = if b ∈ s.log.lh then s.log.lh else s.log.lh ++ [b]) :
    History { s with
      log := { s.log with lh := lh }
      updates := update s.updates o ((s.updates o).insert b)
      pending := s.pending.insert (o, b) } := by
  have ho : o ∈ s.active := (hc.active_iff o).mpr ⟨p, hp⟩
  have hnc := hc.not_committing hp
  have hmem : ∀ x, x ∈ lh ↔ x = b ∨ x ∈ s.log.lh := by
    intro x
    rw [hlh]
    split_ifs with hb
    · constructor
      · exact .inr
      · rintro (rfl | hx)
        · exact hb
        · exact hx
    · simp [or_comm]
  have hwait := h.inHeader ho
  have hne : ∀ o', o' ≠ o → ∀ x,
      x ∈ update s.updates o ((s.updates o).insert b) o' ↔ x ∈ s.updates o' :=
    fun o' ho' x => by rw [update_of_ne ho']
  have hself : ∀ x, x ∈ update s.updates o ((s.updates o).insert b) o ↔
      x = b ∨ x ∈ s.updates o := by simp
  refine ⟨fun o' ho' => ?_, fun x => ?_, ?_, fun o' x hx => ?_, fun c hcm o' x hx => ?_,
    fun o' => ?_, h.active_pending, fun q hq => ?_, fun ha _ => ?_⟩
  · have hlt := hc.active_lt o ho
    have hle : s.nextOp ≤ o' := ho'
    exact (update_of_ne (by omega) _ _).trans (h.fresh o' hle)
  · simp only [hmem, List.mem_insert_iff, Prod.mk.injEq, h.lh_iff]
    constructor
    · rintro (rfl | ⟨o', ho'⟩)
      · exact ⟨o, .inl ⟨rfl, rfl⟩⟩
      · exact ⟨o', .inr ho'⟩
    · rintro ⟨o', ⟨-, rfl⟩ | ho'⟩
      · exact .inl rfl
      · exact .inr ⟨o', ho'⟩
  · simp only [hlh]
    split_ifs with hb
    · exact h.nodup
    · exact h.nodup.append (List.nodup_singleton b) (by simpa using hb)
  · by_cases hoo : o' = o
    · subst hoo
      refine (hself x).mpr ?_
      rcases List.mem_insert_iff.mp hx with heq | hx
      · exact .inl (Prod.mk.inj heq).2
      · exact .inr (h.pending_mem o' x hx)
    · rcases List.mem_insert_iff.mp hx with heq | hx
      · exact absurd (Prod.mk.inj heq).1 hoo
      · exact (hne o' hoo x).mpr (h.pending_mem o' x hx)
  · have hoo : o' ≠ o := fun e => h.active_pending o ho c hcm x (e ▸ hx)
    exact (hne o' hoo x).mpr (h.commits_mem c hcm o' x hx)
  · -- The logging operation stays in the header, every other one stays where it was.
    by_cases hoo : o' = o
    · subst hoo
      left
      refine ⟨fun x hx => ?_, hwait.2⟩
      rcases (hself x).mp hx with rfl | hx
      · exact List.mem_insert_self
      · exact List.mem_insert_of_mem (hwait.1 x hx)
    · rcases h.placed o' with hw | ⟨k, c, hk, hall, hother, hpend⟩
      · left
        refine ⟨fun x hx => ?_, hw.2⟩
        exact List.mem_insert_of_mem (hw.1 x ((hne o' hoo x).mp hx))
      · right
        refine ⟨k, c, hk, fun x hx => hall x ((hne o' hoo x).mp hx), hother, fun x hx => ?_⟩
        rcases List.mem_insert_iff.mp hx with heq | hx
        · exact hoo (Prod.mk.inj heq).1
        · exact hpend x hx
  · exfalso
    have hq' : ∃ pc, s.phase q = .commit pc := by rcases hq with hq | hq <;> exact ⟨_, hq⟩
    have := hc.committing_iff.mpr ⟨q, hq'⟩
    simp [hnc] at this
  · have ha' : s.active = ∅ := ha
    simp [ha'] at ho

theorem History.clear {s : State} (hc : Control s) (h : History s) {p : ℕ}
    (hp : s.phase p = .commit .clear) : History (commitStep s p .clear) := by
  have hcom : s.log.committing = true := hc.committing_iff.mpr ⟨p, _, hp⟩
  have hquiet := hc.quiet hcom
  refine ⟨h.fresh, by simp [commitStep], List.nodup_nil, by simp [commitStep],
    fun c hcm o b hob => ?_, fun o => .inr ?_, fun o ho => ?_, fun _ _ => rfl, fun _ _ => rfl⟩
  · rcases List.mem_append.mp hcm with hcm | hcm
    · exact h.commits_mem c hcm o b hob
    · rw [List.mem_singleton.mp hcm] at hob
      exact h.pending_mem o b hob
  · -- The new commit is the last one; every older one keeps its number.
    have hget : ∀ (j : ℕ) c', (s.commits ++ [s.pending])[j]? = some c' →
        s.commits[j]? = some c' ∨ j = s.commits.length ∧ c' = s.pending := by
      intro j c' hj
      rcases lt_or_ge j s.commits.length with hlt | hge
      · exact .inl (by rwa [List.getElem?_append_left hlt] at hj)
      · rw [List.getElem?_append_right hge, List.getElem?_singleton] at hj
        split_ifs at hj with h0
        exact .inr ⟨by omega, (Option.some.inj hj).symm⟩
    rcases h.placed o with ⟨hall, hno⟩ | ⟨k, c, hk, hall, hother, hpend⟩
    · refine ⟨s.commits.length, s.pending, by simp [commitStep], hall, fun j c' hj hne b => ?_,
        fun b => List.not_mem_nil⟩
      rcases hget j c' hj with hj | ⟨hj, -⟩
      · exact hno c' (List.mem_of_getElem? hj) b
      · exact absurd hj hne
    · have hlt : k < s.commits.length := (List.getElem?_eq_some_iff.mp hk).1
      refine ⟨k, c, (List.getElem?_append_left hlt).trans hk, hall, fun j c' hj hne b => ?_,
        fun b => List.not_mem_nil⟩
      rcases hget j c' hj with hj | ⟨-, rfl⟩
      · exact hother j c' hj hne b
      · exact hpend b
  · have ho' : o ∈ s.active := ho
    simp [hquiet] at ho'

theorem History.step {size : ℕ} {s s' : State} {a : Act} (hc : Control s) (h : History s)
    (hs : Step size s a s') : History s' := by
  cases hs.trans with
  | logWrite p b o lh hp hn hlh => exact h.logWrite hc hp hlh
  | proceed p hp hcom hr =>
    have hset : History (s.setPhase p (.inOp s.nextOp)) := h.setPhase (by simp)
    refine ⟨fun o ho => h.fresh o (Nat.le_of_succ_le ho), h.lh_iff, h.nodup, h.pending_mem,
      h.commits_mem, h.placed, fun o ho c hcm b hob => ?_, hset.cleared, fun ha => ?_⟩
    · -- The new operation has logged nothing yet.
      rcases Finset.mem_insert.mp ho with rfl | ho
      · have := h.commits_mem c hcm _ b hob
        simp [h.fresh s.nextOp le_rfl] at this
      · exact h.active_pending o ho c hcm b hob
    · exact absurd ha (Finset.insert_ne_empty _ _)
  | last p o hp hcom ho =>
    have hset : History (s.setPhase p (.commit .test)) := h.setPhase (by simp)
    exact ⟨h.fresh, h.lh_iff, h.nodup, h.pending_mem, h.commits_mem, h.placed,
      fun o' ho' => h.active_pending o' (Finset.mem_of_mem_erase ho'), hset.cleared,
      fun _ hfalse => by simp at hfalse⟩
  | leave p o hp hcom ho =>
    have hset : History (s.setPhase p .idle) := h.setPhase (by simp)
    refine ⟨h.fresh, h.lh_iff, h.nodup, h.pending_mem, h.commits_mem, h.placed,
      fun o' ho' => h.active_pending o' (Finset.mem_of_mem_erase ho'), fun q hq => ?_,
      fun ha _ => ?_⟩
    · exact hset.cleared q (by simpa [State.setPhase] using hq)
    · -- The process that leaves is not the last one, so some operation is still in progress.
      have hmem : o ∈ s.active := (hc.active_iff o).mpr ⟨p, hp⟩
      have hcard := Finset.card_erase_of_mem hmem
      have hempty : s.active.erase o = ∅ := ha
      have hpos := Finset.card_pos.mpr ⟨o, hmem⟩
      have hout := hc.outstanding
      rw [hempty, Finset.card_empty] at hcard
      omega
  | commit p pc hp =>
    cases pc with
    | test =>
      refine h.setPhase fun hph => ?_
      split_ifs at hph with hn
      · simp at hph
      · exact List.length_eq_zero_iff.mp (by omega)
    | writeHead => exact h.setPhase (by simp)
    | clear => exact h.clear hc hp
    | eraseHead => exact h.setPhase fun _ => h.cleared p (.inl hp)
    | done =>
      have hset : History (s.setPhase p .idle) := h.setPhase (by simp)
      refine ⟨h.fresh, h.lh_iff, h.nodup, h.pending_mem, h.commits_mem, h.placed,
        h.active_pending, fun q hq => ?_, fun _ _ => h.cleared p (.inr hp)⟩
      exact hset.cleared q (by simpa [State.setPhase, commitStep] using hq)
    | _ => exact h.setPhase (by split_ifs <;> simp)
  | _ => exact h.setPhase (by simp)

/-- The states of the runs of the log system that do not panic. -/
def Reachable (size : ℕ) (s : State) : Prop := Lib.Reach init (Step size) (fun _ _ => True) s

theorem Reachable.inv {size : ℕ} {s : State} (hs : Reachable size s) : Control s ∧ History s := by
  refine Lib.Reach.invariant (P := fun s => Control s ∧ History s) ⟨Control.init, History.init⟩
    (fun _ _ _ h _ hst => ?_) hs
  exact ⟨h.1.step hst, h.2.step h.1 hst⟩

theorem lh_eq_of_committing {size : ℕ} {s s' : State} {a : Act} (hc : Control s)
    (hcom : s.log.committing = true) (hs : Step size s a s')
    (ha : ∀ p, a = .commit p → s.phase p ≠ .commit .clear) : s'.log.lh = s.log.lh := by
  cases hs.trans with
  | logWrite p b o lh hp hn hlh =>
    have := hc.not_committing hp
    simp [hcom] at this
  | commit p pc hp =>
    cases pc with
    | clear => exact absurd hp (ha p rfl)
    | _ => rfl
  | _ => rfl

theorem step_ne_committing {size : ℕ} {s : State} (hc : Control s) (a : Act) :
    step size s a ≠ some (.error .committing) := by
  intro h
  rcases step_eq_error h with ⟨p, b, o, -, hp, he⟩ | ⟨p, o, -, hp, he⟩
  · unfold logWrite at he
    split_ifs at he <;> simp at he
  · simp only [endOp, hc.not_committing hp, Bool.false_eq_true, if_false] at he
    split_ifs at he

/-- Group commit never splits an operation. In every state of every run: while `committing` is set
no operation is outstanding or in progress, and no step changes the header except the one of `commit`
that clears it; at most one process is in `commit`, and only while `committing` is set; no step ends in
the panic of `end_op`; the header lists exactly the blocks of the pending updates; the updates of every
operation are together, in the header or in exactly one commit; and once no operation is in progress
and no commit is running, those of every operation are in exactly one commit. -/
theorem group_commit (size : ℕ) (s : State) (hs : Reachable size s) :
    (s.log.committing = true →
      s.log.outstanding = 0 ∧ (∀ p o, s.phase p ≠ .inOp o) ∧
      ∀ a s', Step size s a s' → (∀ p, a = .commit p → s.phase p ≠ .commit .clear) →
        s'.log.lh = s.log.lh) ∧
    (∀ p q pc pc', s.phase p = .commit pc → s.phase q = .commit pc' → p = q) ∧
    (∀ p pc, s.phase p = .commit pc → s.log.committing = true) ∧
    (∀ a, step size s a ≠ some (.error .committing)) ∧
    (∀ b, b ∈ s.log.lh ↔ ∃ o, (o, b) ∈ s.pending) ∧
    (∀ o, InHeader s o ∨ InOneCommit s o) ∧
    (s.log.outstanding = 0 → s.log.committing = false →
      ∀ o, s.updates o ≠ [] → InOneCommit s o) := by
  obtain ⟨hc, hh⟩ := hs.inv
  refine ⟨fun hcom => ⟨?_, fun p o hp => ?_, fun a s' hst => lh_eq_of_committing hc hcom hst⟩,
    hc.commit_unique, fun p pc hp => hc.committing_iff.mpr ⟨p, pc, hp⟩, fun a ha => ?_, hh.lh_iff,
    hh.placed, fun hout hcom o ho => ?_⟩
  · simp [hc.outstanding, hc.quiet hcom]
  · have := hc.not_committing hp
    simp [hcom] at this
  · exact step_ne_committing hc a ha
  · have hactive : s.active = ∅ := by
      have := hc.outstanding
      exact Finset.card_eq_zero.mp (by omega)
    have hlh := hh.empty hactive hcom
    rcases hh.placed o with hw | hw
    · -- The header is empty, so an operation whose updates are there has none.
      obtain ⟨b, hb⟩ := List.exists_mem_of_ne_nil _ ho
      have hmem := (hh.lh_iff b).mpr ⟨o, hw.1 b hb⟩
      simp [hlh] at hmem
    · exact hw

/-- Two overlapping operations, each of which logs a block, up to the end of their commit. -/
def overlapping : List Act :=
  [.enter 0, .enter 1, .begin 0, .begin 1, .logWrite 0 50, .logWrite 1 51, .endOp 0, .endOp 1] ++
    List.replicate 11 (.commit 1)

/-- After the run `overlapping` the updates of both operations are in the one commit made. -/
theorem group_commit_overlapping : ∃ s, Reachable LOGSIZE s ∧ s.updates 0 = [50] ∧
    s.updates 1 = [51] ∧ s.commits.length = 1 ∧ InOneCommit s 0 ∧ InOneCommit s 1 := by
  have hrun : ((Lib.execute (next LOGSIZE) (fun _ _ => true) init overlapping).map fun s =>
      (s.log.outstanding, s.log.committing, s.updates 0, s.updates 1, s.commits.length)) =
      some (0, false, [50], [51], 1) := by decide +kernel
  obtain ⟨s, hs, heq⟩ := Option.map_eq_some_iff.mp hrun
  simp only [Prod.mk.injEq] at heq
  obtain ⟨hout, hcom, h0, h1, hlen⟩ := heq
  have hreach : Reachable LOGSIZE s :=
    Lib.Reach.init.execute (fun _ _ _ => Step.of_next) (fun _ _ _ => trivial) hs
  obtain ⟨-, -, -, -, -, -, hone⟩ := group_commit LOGSIZE s hreach
  exact ⟨s, hreach, h0, h1, hlen, hone hout hcom 0 (by simp [h0]), hone hout hcom 1 (by simp [h1])⟩

end Xv6.Ops
