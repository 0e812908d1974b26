import Mathlib
import Xv6.Lib.Run

/-!
# Monitors with sleep and wakeup

Processes share data under one spin lock. A process that cannot go on sleeps on a channel: it takes the
lock of its own state, releases the monitor's lock, goes to sleep and takes the monitor's lock again
when it has been woken. `wakeup` goes through the processes one by one, and makes those that sleep on
its channel runnable; so does `kill` with one process, whatever it sleeps on. Both take the lock of a
process's state for that, so they wait while the process is on its way to sleep.

Each process is at an instruction of a program. `Inv` says who holds the lock, and `Waits` that no
wakeup is lost: who sleeps on a channel has a reason to, or the holder of the lock still owes it a
wakeup (`Waits.step`).
-/

namespace Lib.Monitor

open Function (update update_of_ne update_self)

/-- What a process does next. -/
inductive Instr (κ π : Type)
  | acquire (next : π)
  | release (next : π)
  | sleep (chan : κ) (next : π)
  | wakeup (chan : κ) (next : π)
  | act

/-- Where the process goes on, unless it acts. -/
def Instr.dest {κ π : Type} : Instr κ π → Option π
  | .acquire n | .release n | .sleep _ n | .wakeup _ n => some n
  | .act => none

/-- Where a process is in `sleep`. -/
inductive Stage
  /-- the process holds the lock of its state and the monitor's lock -/
  | unlock
  /-- it has released the monitor's lock, but does not sleep yet -/
  | set
  | asleep
  | runnable
  /-- it runs again, and needs the monitor's lock -/
  | relock
  deriving DecidableEq

/-- Where a process is in its instruction. -/
inductive Mode (ι κ π : Type)
  | run
  | sleep (stage : Stage) (chan : κ) (next : π)
  | wake (chan : κ) (todo : List ι) (next : π)

/-- The process holds the lock of its own state. -/
def Mode.dozes {ι κ π : Type} : Mode ι κ π → Bool
  | .sleep .unlock _ _ | .sleep .set _ _ => true
  | _ => false

/-- A sleeping process becomes runnable. -/
def Mode.rouse {ι κ π : Type} : Mode ι κ π → Mode ι κ π
  | .sleep .asleep c n => .sleep .runnable c n
  | m => m

/-- The same if it sleeps on channel `c`. -/
def Mode.rouseFrom {ι κ π : Type} [DecidableEq κ] (c : κ) : Mode ι κ π → Mode ι κ π
  | .sleep .asleep d n => if d = c then .sleep .runnable d n else .sleep .asleep d n
  | m => m

/-- A program for processes `ι` with channels `κ`, instructions at `π`, shared data `σ`, and choices
`α`. `wakeup` goes through `slots`. -/
structure Program (ι κ π σ α : Type) where
  slots : List ι
  instr : ι → π → Instr κ π
  act : ι → Bool → α → π → σ → Option (π × σ)

/-- A state of the processes and what they share. -/
structure State (ι κ π σ : Type) where
  pc : ι → π
  mode : ι → Mode ι κ π
  killed : ι → Bool
  owner : Option ι
  data : σ

/-- A step. -/
inductive Label (ι α : Type)
  | acquire (p : ι)
  | release (p : ι)
  | sleep (p : ι)
  | wakeup (p : ι)
  | act (p : ι) (a : α)
  | kill (p : ι)

section

variable {ι κ π σ α : Type} [DecidableEq ι] [DecidableEq κ]

/-- The process goes on at `n`. -/
def State.goto (s : State ι κ π σ) (p : ι) (n : π) : State ι κ π σ :=
  { s with pc := update s.pc p n, mode := update s.mode p .run }

/-- The state with a thread in another mode. -/
def State.setMode (s : State ι κ π σ) (p : ι) (m : Mode ι κ π) : State ι κ π σ :=
  { s with mode := update s.mode p m }

/-- The next step of a process in `sleep`. -/
def sleepNext (P : Program ι κ π σ α) (s : State ι κ π σ) (p : ι) : Option (State ι κ π σ) :=
  match s.mode p with
  | .run =>
    match P.instr p (s.pc p) with
    | .sleep c n => some (s.setMode p (.sleep .unlock c n))
    | _ => none
  | .sleep .unlock c n => some { s.setMode p (.sleep .set c n) with owner := none }
  | .sleep .set c n => some (s.setMode p (.sleep .asleep c n))
  | .sleep .runnable c n => some (s.setMode p (.sleep .relock c n))
  | .sleep .relock _ n => if s.owner = none then some { s.goto p n with owner := some p } else none
  | _ => none

/-- The next step of a process in `wakeup`. -/
def wakeupNext (P : Program ι κ π σ α) (s : State ι κ π σ) (p : ι) : Option (State ι κ π σ) :=
  match s.mode p with
  | .run =>
    match P.instr p (s.pc p) with
    | .wakeup c n => some (s.setMode p (.wake c P.slots n))
    | _ => none
  | .wake c (j :: todo) n =>
    if j = p then some (s.setMode p (.wake c todo n))
    else if (s.mode j).dozes then none
    else some ((s.setMode j ((s.mode j).rouseFrom c)).setMode p (.wake c todo n))
  | .wake _ [] n => some (s.goto p n)
  | _ => none

/-- The state after a step, if it is possible. -/
def next (P : Program ι κ π σ α) (s : State ι κ π σ) : Label ι α → Option (State ι κ π σ)
  | .acquire p =>
    match s.mode p, P.instr p (s.pc p) with
    | .run, .acquire n => if s.owner = none then some { s.goto p n with owner := some p } else none
    | _, _ => none
  | .release p =>
    match s.mode p, P.instr p (s.pc p) with
    | .run, .release n => some { s.goto p n with owner := none }
    | _, _ => none
  | .sleep p => sleepNext P s p
  | .wakeup p => wakeupNext P s p
  | .act p a =>
    match s.mode p, P.instr p (s.pc p) with
    | .run, .act => (P.act p (s.killed p) a (s.pc p) s.data).map fun r =>
      { s.goto p r.1 with data := r.2 }
    | _, _ => none
  | .kill p =>
    if (s.mode p).dozes then none
    else some { s.setMode p (s.mode p).rouse with killed := update s.killed p true }

/-- Everything that a step can do. -/
inductive Step (P : Program ι κ π σ α) (s : State ι κ π σ) : Label ι α → State ι κ π σ → Prop
  | acquire {p : ι} {n : π} (hm : s.mode p = .run) (hi : P.instr p (s.pc p) = .acquire n)
      (hfree : s.owner = none) : Step P s (.acquire p) { s.goto p n with owner := some p }
  | release {p : ι} {n : π} (hm : s.mode p = .run) (hi : P.instr p (s.pc p) = .release n) :
      Step P s (.release p) { s.goto p n with owner := none }
  | nap {p : ι} {c : κ} {n : π} (hm : s.mode p = .run) (hi : P.instr p (s.pc p) = .sleep c n) :
      Step P s (.sleep p) (s.setMode p (.sleep .unlock c n))
  | unlock {p : ι} {c : κ} {n : π} (hm : s.mode p = .sleep .unlock c n) :
      Step P s (.sleep p) { s.setMode p (.sleep .set c n) with owner := none }
  | asleep {p : ι} {c : κ} {n : π} (hm : s.mode p = .sleep .set c n) :
      Step P s (.sleep p) (s.setMode p (.sleep .asleep c n))
  | resume {p : ι} {c : κ} {n : π} (hm : s.mode p = .sleep .runnable c n) :
      Step P s (.sleep p) (s.setMode p (.sleep .relock c n))
  | relock {p : ι} {c : κ} {n : π} (hm : s.mode p = .sleep .relock c n) (hfree : s.owner = none) :
      Step P s (.sleep p) { s.goto p n with owner := some p }
  | wakeup {p : ι} {c : κ} {n : π} (hm : s.mode p = .run) (hi : P.instr p (s.pc p) = .wakeup c n) :
      Step P s (.wakeup p) (s.setMode p (.wake c P.slots n))
  | skip {p : ι} {c : κ} {todo : List ι} {n : π} (hm : s.mode p = .wake c (p :: todo) n) :
      Step P s (.wakeup p) (s.setMode p (.wake c todo n))
  | rouse {p j : ι} {c : κ} {todo : List ι} {n : π} (hm : s.mode p = .wake c (j :: todo) n)
      (hj : j ≠ p) (hd : (s.mode j).dozes = false) :
      Step P s (.wakeup p) ((s.setMode j ((s.mode j).rouseFrom c)).setMode p (.wake c todo n))
  | woken {p : ι} {c : κ} {n : π} (hm : s.mode p = .wake c [] n) :
      Step P s (.wakeup p) (s.goto p n)
  | act {p : ι} {a : α} {n : π} {d : σ} (hm : s.mode p = .run) (hi : P.instr p (s.pc p) = .act)
      (ha : P.act p (s.killed p) a (s.pc p) s.data = some (n, d)) :
      Step P s (.act p a) { s.goto p n with data := d }
  | kill {p : ι} (hd : (s.mode p).dozes = false) :
      Step P s (.kill p) { s.setMode p (s.mode p).rouse with killed := update s.killed p true }

variable {P : Program ι κ π σ α} {s s' : State ι κ π σ} {l : Label ι α}

theorem step_of_next (h : next P s l = some s') : Step P s l s' := by
  cases l with
  | acquire p =>
    simp only [next] at h
    split at h
    · split_ifs at h with hfree
      cases h
      exact .acquire ‹_› ‹_› hfree
    · cases h
  | release p =>
    simp only [next] at h
    split at h
    · cases h
      exact .release ‹_› ‹_›
    · cases h
  | sleep p =>
    simp only [next, sleepNext] at h
    split at h
    · split at h
      · cases h
        exact .nap ‹_› ‹_›
      · cases h
    · cases h
      exact .unlock ‹_›
    · cases h
      exact .asleep ‹_›
    · cases h
      exact .resume ‹_›
    · split_ifs at h with hfree
      cases h
      exact .relock ‹_› hfree
    · cases h
  | wakeup p =>
    simp only [next, wakeupNext] at h
    split at h
    · split at h
      · cases h
        exact .wakeup ‹_› ‹_›
      · cases h
    · split_ifs at h with hj hd
      · cases h
        subst hj
        exact .skip ‹_›
      · cases h
        exact .rouse ‹_› hj (by simpa using hd)
    · cases h
      exact .woken ‹_›
    · cases h
  | act p a =>
    simp only [next] at h
    split at h
    · obtain ⟨⟨n, d⟩, ha, rfl⟩ := Option.map_eq_some_iff.mp h
      exact .act ‹_› ‹_› ha
    · cases h
  | kill p =>
    simp only [next] at h
    split_ifs at h with hd
    cases h
    exact .kill (by simpa using hd)

end

/-! ## The lock and the wakeups -/

section

variable {ι κ π σ α : Type} {P : Program ι κ π σ α} {s s' : State ι κ π σ} {locked : π → Prop} {p q : ι}
  {m : Mode ι κ π} {reason : κ → σ → Prop} {debt : π → κ → Prop} {c : κ}

/-- The mode of a process belongs to its instruction. -/
def Mode.Fits (i : Instr κ π) : Mode ι κ π → Prop
  | .run => True
  | .sleep _ c n => i = .sleep c n
  | .wake c _ n => i = .wakeup c n

/-- A process at `pc` holds the monitor's lock, if it does so there when it runs. -/
def Mode.holds (locked : Prop) : Mode ι κ π → Prop
  | .run | .wake .. => locked
  | .sleep .unlock _ _ => True
  | .sleep .. => False

/-- The program takes and releases the lock in turn, sleeps and wakes up others with the lock held, and
changes data only with the lock held. -/
structure Brackets (P : Program ι κ π σ α) (locked : π → Prop) : Prop where
  acquire : ∀ {p pc n}, P.instr p pc = .acquire n → ¬ locked pc ∧ locked n
  release : ∀ {p pc n}, P.instr p pc = .release n → locked pc ∧ ¬ locked n
  sleep : ∀ {p pc c n}, P.instr p pc = .sleep c n → locked pc ∧ locked n
  wakeup : ∀ {p pc c n}, P.instr p pc = .wakeup c n → locked pc ∧ locked n
  act : ∀ {p k a pc d n e}, P.act p k a pc d = some (n, e) → (locked n ↔ locked pc)
  data : ∀ {p k a pc d n e}, P.act p k a pc d = some (n, e) → ¬ locked pc → e = d

/-- Each process is in its instruction, and the lock has the owner that the processes say. -/
structure Inv (P : Program ι κ π σ α) (locked : π → Prop) (s : State ι κ π σ) : Prop where
  fits : ∀ p, (s.mode p).Fits (P.instr p (s.pc p))
  owner : ∀ p, s.owner = some p ↔ (s.mode p).holds (locked (s.pc p))

theorem Inv.update (h : Inv P locked s) (hpc : ∀ q, q ≠ p → s'.pc q = s.pc q)
    (hmode : ∀ q, q ≠ p → s'.mode q = s.mode q)
    (hfits : (s'.mode p).Fits (P.instr p (s'.pc p)))
    (hself : s'.owner = some p ↔ (s'.mode p).holds (locked (s'.pc p)))
    (hother : ∀ q, q ≠ p → (s'.owner = some q ↔ s.owner = some q)) : Inv P locked s' := by
  refine ⟨fun q => ?_, fun q => ?_⟩
  · by_cases hq : q = p
    · subst hq
      exact hfits
    · rw [hmode q hq, hpc q hq]
      exact h.fits q
  · by_cases hq : q = p
    · subst hq
      exact hself
    · rw [hother q hq, hmode q hq, hpc q hq]
      exact h.owner q

theorem Mode.rouse_fits {i : Instr κ π} : m.rouse.Fits i ↔ m.Fits i := by
  cases m with
  | sleep st c n => cases st <;> exact Iff.rfl
  | _ => exact Iff.rfl

theorem Mode.rouse_holds {b : Prop} : m.rouse.holds b ↔ m.holds b := by
  cases m with
  | sleep st c n => cases st <;> exact Iff.rfl
  | _ => exact Iff.rfl

theorem Inv.owner_of_wake {c : κ} {todo : List ι} {n : π} (h : Inv P locked s) (hP : Brackets P locked)
    (hm : s.mode p = .wake c todo n) : s.owner = some p := by
  have hfits := h.fits p
  rw [hm] at hfits
  exact (h.owner p).mpr (by rw [hm]; exact (hP.wakeup hfits).1)

theorem Inv.owner_of_locked (h : Inv P locked s) (hi : P.instr p (s.pc p) = .act)
    (hp : locked (s.pc p)) : s.owner = some p := by
  have hfits := h.fits p
  refine (h.owner p).mpr ?_
  cases hm : s.mode p with
  | run => exact hp
  | sleep st c n =>
    rw [hm, Mode.Fits, hi] at hfits
    cases hfits
  | wake c todo n => exact hp

/-- The process sleeps on channel `c`. -/
def State.Sleeping (s : State ι κ π σ) (p : ι) (c : κ) : Prop := ∃ n, s.mode p = .sleep .asleep c n

/-- The process sleeps on channel `c`, or is on its way to it. -/
def Mode.Naps (c : κ) : Mode ι κ π → Prop
  | .sleep .unlock d _ | .sleep .set d _ | .sleep .asleep d _ => d = c
  | _ => False

/-- A process at `pc` still has to wake up `p` from channel `c`. -/
def Mode.Owes (debt : π → κ → Prop) (pc : π) (p : ι) (c : κ) : Mode ι κ π → Prop
  | .run => debt pc c
  | .sleep .. => False
  | .wake d todo n => d = c ∧ p ∈ todo ∨ debt n c

/-- Who sleeps has a reason to, or the owner of the lock is going to wake it up. -/
def Waits (reason : κ → σ → Prop) (debt : π → κ → Prop) (s : State ι κ π σ) : Prop :=
  ∀ p c, (s.mode p).Naps c → reason c s.data ∨
    ∃ h, s.owner = some h ∧ (s.mode h).Owes debt (s.pc h) p c

/-- What the owner of the lock knows of the data while it does not sleep. -/
def Knows (known : ι → π → σ → Prop) (s : State ι κ π σ) : Prop :=
  ∀ p, s.owner = some p → (∀ st c n, s.mode p ≠ .sleep st c n) → known p (s.pc p) s.data

/-- The program pays its debts before it gives the lock away. -/
structure Pays (P : Program ι κ π σ α) (debt : π → κ → Prop) : Prop where
  slots : ∀ p, p ∈ P.slots
  release : ∀ {p pc n}, P.instr p pc = .release n → ∀ c, ¬ debt pc c
  sleep : ∀ {p pc c n}, P.instr p pc = .sleep c n → ∀ d, ¬ debt pc d
  wakeup : ∀ {p pc c n}, P.instr p pc = .wakeup c n → ∀ d, debt pc d → d = c ∨ debt n d

theorem Mode.naps_rouse (h : m.rouse.Naps c) : m.Naps c := by
  cases m with
  | sleep st d n =>
    cases st <;> first | exact h | exact h.elim
  | _ => exact h

theorem Waits.keep (h : Waits reason debt s) (hdata : s'.data = s.data) (howner : s'.owner = s.owner)
    (hnaps : ∀ q c, (s'.mode q).Naps c → (s.mode q).Naps c)
    (howes : ∀ o q c, s.owner = some o → (s.mode q).Naps c → (s.mode o).Owes debt (s.pc o) q c →
      (s'.mode o).Owes debt (s'.pc o) q c ∨ ¬ (s'.mode q).Naps c) : Waits reason debt s' := by
  intro q c hq
  have hold := hnaps q c hq
  rw [hdata, howner]
  obtain hr | ⟨o, ho, hd⟩ := h q c hold
  · exact .inl hr
  · obtain hd' | hnot := howes o q c ho hold hd
    · exact .inr ⟨o, ho, hd'⟩
    · exact absurd hq hnot

theorem Waits.clear (h : Waits reason debt s) (hdata : s'.data = s.data)
    (hnaps : ∀ q c, (s'.mode q).Naps c → (s.mode q).Naps c)
    (hnone : ∀ o q c, s.owner = some o → ¬ (s.mode o).Owes debt (s.pc o) q c) :
    Waits reason debt s' := by
  intro q c hq
  rw [hdata]
  obtain hr | ⟨o, ho, hd⟩ := h q c (hnaps q c hq)
  · exact .inl hr
  · exact absurd hd (hnone o q c ho)

theorem Waits.reason_of_sleeping (h : Waits reason debt s) (hfree : s.owner = none)
    (hp : s.Sleeping p c) : reason c s.data := by
  obtain ⟨n, hn⟩ := hp
  obtain hr | ⟨o, ho, -⟩ := h p c (by rw [hn]; rfl)
  · exact hr
  · rw [hfree] at ho
    cases ho

variable {known : ι → π → σ → Prop}

theorem Knows.keep (h : Knows known s) (howner : s'.owner = s.owner) (hpc : s'.pc = s.pc)
    (hdata : s'.data = s.data)
    (hmode : ∀ p, s.owner = some p → (∃ st c n, s.mode p = .sleep st c n) →
      ∃ st c n, s'.mode p = .sleep st c n) : Knows known s' := by
  intro p hp hrun
  rw [hpc, hdata]
  rw [howner] at hp
  refine h p hp fun st c n hm => ?_
  obtain ⟨st', c', n', hm'⟩ := hmode p hp ⟨st, c, n, hm⟩
  exact hrun st' c' n' hm'

theorem Knows.own (p : ι) (howner : s'.owner = some p) (h : known p (s'.pc p) s'.data) :
    Knows known s' := by
  intro q hq _
  rw [howner, Option.some.injEq] at hq
  exact hq ▸ h

variable [DecidableEq κ]

theorem Mode.rouseFrom_eq (c : κ) (m : Mode ι κ π) : m.rouseFrom c = m.rouse ∨ m.rouseFrom c = m := by
  unfold Mode.rouseFrom
  split
  · split_ifs
    · exact .inl rfl
    · exact .inr rfl
  · exact .inr rfl

theorem Mode.not_naps_rouseFrom (hd : m.dozes = false) : ¬ (m.rouseFrom c).Naps c := by
  cases m with
  | sleep st d n =>
    cases st with
    | asleep =>
      change ¬ Mode.Naps c (if d = c then .sleep .runnable d n else .sleep .asleep d n)
      split_ifs with hdc
      · exact id
      · exact hdc
    | unlock | set => cases hd
    | runnable | relock => exact id
  | _ => exact id

theorem Mode.naps_rouseFrom {d : κ} (h : (m.rouseFrom d).Naps c) : m.Naps c := by
  obtain heq | heq := m.rouseFrom_eq d
  · exact Mode.naps_rouse (heq ▸ h)
  · exact heq ▸ h

end

/-! ## Steps -/

section

variable {ι κ π σ α : Type} [DecidableEq ι] {P : Program ι κ π σ α} {s s' : State ι κ π σ}
  {locked : π → Prop} {p q : ι} {m : Mode ι κ π} {reason : κ → σ → Prop} {debt : π → κ → Prop} {c : κ}
  {l : Label ι α}

theorem Inv.rouse (h : Inv P locked s) (hm : m = (s.mode p).rouse ∨ m = s.mode p) :
    Inv P locked (s.setMode p m) := by
  refine h.update (p := p) (fun _ _ => rfl) (fun q hq => update_of_ne hq _ _) ?_ ?_
    fun _ _ => Iff.rfl
  · simp only [State.setMode, update_self]
    obtain rfl | rfl := hm
    · exact Mode.rouse_fits.mpr (h.fits p)
    · exact h.fits p
  · simp only [State.setMode, update_self]
    obtain rfl | rfl := hm
    · exact (h.owner p).trans Mode.rouse_holds.symm
    · exact h.owner p

theorem Inv.take (h : Inv P locked s) {n : π} (hfree : s.owner = none) (hn : locked n) :
    Inv P locked { s.goto p n with owner := some p } := by
  refine h.update (p := p) (fun q hq => update_of_ne hq _ _)
    (fun q hq => update_of_ne hq _ _) ?_ ?_ fun q hq => ?_
  · simp [State.goto, Mode.Fits]
  · simpa [State.goto, Mode.holds] using hn
  · simp [hfree, Ne.symm hq]

theorem Inv.goto (h : Inv P locked s) {n : π} {d : σ}
    (hn : (s.mode p).holds (locked (s.pc p)) ↔ locked n) :
    Inv P locked { s.goto p n with data := d } := by
  refine h.update (p := p) (fun q hq => update_of_ne hq _ _)
    (fun q hq => update_of_ne hq _ _) ?_ ?_ fun q _ => Iff.rfl
  · simp [State.goto, Mode.Fits]
  · simpa [State.goto, Mode.holds] using (h.owner p).trans hn

theorem Inv.setMode (h : Inv P locked s) (hfits : m.Fits (P.instr p (s.pc p)))
    (hm : (s.mode p).holds (locked (s.pc p)) ↔ m.holds (locked (s.pc p))) :
    Inv P locked (s.setMode p m) := by
  refine h.update (p := p) (fun _ _ => rfl) (fun q hq => update_of_ne hq _ _) ?_ ?_
    fun q _ => Iff.rfl
  · simpa [State.setMode] using hfits
  · simpa [State.setMode] using (h.owner p).trans hm

theorem naps_update {mode : ι → Mode ι κ π} (hm : ∀ c, m.Naps c → (mode p).Naps c) :
    ∀ q c, (update mode p m q).Naps c → (mode q).Naps c := by
  intro q c hq
  by_cases hqp : q = p
  · subst hqp
    rw [update_self] at hq
    exact hm c hq
  · rwa [update_of_ne hqp] at hq

variable [DecidableEq κ]

theorem Inv.step (h : Inv P locked s) (hP : Brackets P locked) (hs : Step P s l s') :
    Inv P locked s' := by
  cases hs with
  | acquire hm hi hfree => exact h.take hfree (hP.acquire hi).2
  | @release p n hm hi =>
    have hown : s.owner = some p := (h.owner p).mpr (by rw [hm]; exact (hP.release hi).1)
    refine h.update (p := p) (fun q hq => update_of_ne hq _ _)
      (fun q hq => update_of_ne hq _ _) ?_ ?_ fun q hq => ?_
    · simp [State.goto, Mode.Fits]
    · simpa [State.goto, Mode.holds] using (hP.release hi).2
    · simp [hown, Ne.symm hq]
  | nap hm hi =>
    refine h.setMode hi ?_
    rw [hm]
    exact ⟨fun _ => trivial, fun _ => (hP.sleep hi).1⟩
  | @unlock p c n hm =>
    have hown : s.owner = some p := (h.owner p).mpr (by rw [hm]; trivial)
    have hfits := h.fits p
    rw [hm] at hfits
    refine h.update (p := p) (fun _ _ => rfl) (fun q hq => update_of_ne hq _ _) ?_ ?_
      fun q hq => ?_
    · simpa [State.setMode, Mode.Fits] using hfits
    · simp [State.setMode, Mode.holds]
    · simp [hown, Ne.symm hq]
  | @asleep p c n hm | @resume p c n hm | @skip p c todo n hm =>
    have hfits := h.fits p
    rw [hm] at hfits
    exact h.setMode hfits (by rw [hm]; exact Iff.rfl)
  | @relock p c n hm hfree =>
    have hfits := h.fits p
    rw [hm] at hfits
    exact h.take hfree (hP.sleep hfits).2
  | wakeup hm hi => exact h.setMode hi (by rw [hm]; exact Iff.rfl)
  | @rouse p j c todo n hm hj hd =>
    have hfits := h.fits p
    rw [hm] at hfits
    have hmode : (s.setMode j ((s.mode j).rouseFrom c)).mode p = s.mode p :=
      update_of_ne (Ne.symm hj) _ _
    exact (h.rouse (Mode.rouseFrom_eq c _)).setMode hfits (by rw [hmode, hm]; exact Iff.rfl)
  | @woken p c n hm =>
    have hfits := h.fits p
    rw [hm] at hfits
    refine h.goto (d := s.data) ?_
    rw [hm]
    exact iff_of_true (hP.wakeup hfits).1 (hP.wakeup hfits).2
  | act hm hi ha =>
    refine h.goto ?_
    rw [hm]
    exact (hP.act ha).symm
  | @kill p hd =>
    have := h.rouse (p := p) (.inl rfl)
    exact ⟨this.fits, this.owner⟩

/-- Either a process acts, or the data stays and at most one process goes on behind its instruction. -/
theorem Step.pc_cases (hs : Step P s l s') (hinv : Inv P locked s) :
    (∃ p a n d, l = .act p a ∧ P.instr p (s.pc p) = .act ∧
      P.act p (s.killed p) a (s.pc p) s.data = some (n, d) ∧
      s' = { s.goto p n with data := d }) ∨
    s'.data = s.data ∧ (s'.pc = s.pc ∨
      ∃ p n, s'.pc = update s.pc p n ∧ (P.instr p (s.pc p)).dest = some n) := by
  cases hs with
  | acquire hm hi | release hm hi => exact .inr ⟨rfl, .inr ⟨_, _, rfl, by rw [hi]; rfl⟩⟩
  | @relock p c n hm hfree | @woken p c n hm =>
    have hfits := hinv.fits p
    rw [hm] at hfits
    exact .inr ⟨rfl, .inr ⟨_, _, rfl, by rw [show P.instr p (s.pc p) = _ from hfits]; rfl⟩⟩
  | act hm hi ha => exact .inl ⟨_, _, _, _, rfl, hi, ha, rfl⟩
  | nap | unlock | asleep | resume | wakeup | skip | rouse | kill => exact .inr ⟨rfl, .inl rfl⟩

variable {known : ι → π → σ → Prop}

omit [DecidableEq κ] in
theorem Knows.sleeping {p : ι} {st : Stage} {c : κ} {n : π} (h : Knows known s) :
    Knows known (s.setMode p (.sleep st c n)) := by
  refine h.keep rfl rfl rfl fun q _ hq => ?_
  by_cases hqp : q = p
  · exact ⟨st, c, n, by simp [State.setMode, hqp]⟩
  · simpa [State.setMode, update_of_ne hqp] using hq

theorem Knows.step (h : Knows known s) (hinv : Inv P locked s) (hP : Brackets P locked)
    (htake : ∀ p n, (P.instr p (s.pc p) = .acquire n ∨ ∃ c, P.instr p (s.pc p) = .sleep c n) →
      known p n s.data)
    (hwakeup : ∀ p c n, P.instr p (s.pc p) = .wakeup c n → known p (s.pc p) s.data → known p n s.data)
    (hact : ∀ p a n d, P.act p (s.killed p) a (s.pc p) s.data = some (n, d) →
      locked (s.pc p) → known p (s.pc p) s.data → known p n d)
    (hs : Step P s l s') : Knows known s' := by
  cases hs with
  | @acquire p n hm hi hfree =>
    refine .own p rfl ?_
    simpa [State.goto] using htake p n (.inl hi)
  | release | unlock => exact fun p hp => nomatch hp
  | nap | asleep | resume => exact h.sleeping
  | @relock p c n hm hfree =>
    have hfits := hinv.fits p
    rw [hm] at hfits
    refine .own p rfl ?_
    simpa [State.goto] using htake p n (.inr ⟨c, hfits⟩)
  | @wakeup p c n hm hi | @skip p c todo n hm =>
    refine h.keep rfl rfl rfl fun q _ hq => ?_
    have hqp : q ≠ p := by
      rintro rfl
      simp [hm] at hq
    simpa [State.setMode, update_of_ne hqp] using hq
  | @rouse p j c todo n hm hj hd =>
    have hp := hinv.owner_of_wake hP hm
    refine .own p hp ?_
    exact h p hp (by simp [hm])
  | @woken p c n hm =>
    have hfits := hinv.fits p
    rw [hm] at hfits
    have hp := hinv.owner_of_wake hP hm
    refine .own p hp ?_
    simpa [State.goto] using hwakeup p c n hfits (h p hp (by simp [hm]))
  | @act p a n d hm hi ha =>
    by_cases hlock : locked (s.pc p)
    · have hp := hinv.owner_of_locked hi hlock
      refine .own p hp ?_
      simpa [State.goto] using hact p a n d ha hlock (h p hp (by simp [hm]))
    · obtain rfl := hP.data ha hlock
      intro q hq hrun
      have hqp : q ≠ p := by
        rintro rfl
        have := (hinv.owner q).mp hq
        rw [hm] at this
        exact hlock this
      simp only [State.goto, update_of_ne hqp] at hrun ⊢
      exact h q hq hrun
  | @kill p hd =>
    refine h.keep rfl rfl rfl fun q _ hq => ?_
    by_cases hqp : q = p
    · subst hqp
      obtain ⟨st, c, n, hm⟩ := hq
      simp only [State.setMode, update_self, hm]
      cases st <;> exact ⟨_, _, _, rfl⟩
    · simpa [State.setMode, update_of_ne hqp] using hq

omit [DecidableEq κ] in
/-- A process that goes to sleep has a reason to, and owes nobody a wakeup. -/
theorem Waits.nap (h : Waits reason debt s) (hpay : Pays P debt) {p : ι} {c : κ} {n : π}
    (hm : s.mode p = .run) (hi : P.instr p (s.pc p) = .sleep c n) (hp : s.owner = some p)
    (hreason : reason c s.data) : Waits reason debt (s.setMode p (.sleep .unlock c n)) := by
  intro q d hq
  left
  by_cases hqp : q = p
  · subst hqp
    simp only [State.setMode, update_self, Mode.Naps] at hq
    rw [← hq]
    exact hreason
  · simp only [State.setMode, update_of_ne hqp] at hq
    obtain hr | ⟨o, ho, hd⟩ := h q d hq
    · exact hr
    · rw [hp, Option.some.injEq] at ho
      subst ho
      rw [hm] at hd
      exact absurd hd (hpay.sleep hi d)

/-- `wakeup` makes one process runnable, and owes the wakeup to the others that it has not visited yet. -/
theorem Waits.rouse (h : Waits reason debt s) {p j : ι} {c : κ} {todo : List ι} {n : π}
    (hm : s.mode p = .wake c (j :: todo) n) (hd : (s.mode j).dozes = false) (hown : s.owner = some p) :
    Waits reason debt ((s.setMode j ((s.mode j).rouseFrom c)).setMode p (.wake c todo n)) := by
  refine h.keep rfl rfl (fun q d hq => ?_) ?_
  · refine naps_update (p := j) (m := (s.mode j).rouseFrom c) (fun e he => Mode.naps_rouseFrom he) q d ?_
    exact naps_update (m := .wake c todo n) (fun e he => False.elim he) q d hq
  · intro o q d ho hq howe
    rw [hown, Option.some.injEq] at ho
    subst ho
    have hqp : q ≠ p := by
      rintro rfl
      rw [hm] at hq
      exact hq
    rw [hm] at howe
    simp only [State.setMode, update_self, update_of_ne hqp]
    obtain ⟨rfl, hmem⟩ | hn := howe
    · obtain rfl | htodo := List.mem_cons.mp hmem
      · right
        rw [update_self]
        exact Mode.not_naps_rouseFrom hd
      · exact .inl (.inl ⟨rfl, htodo⟩)
    · exact .inl (.inr hn)

omit [DecidableEq κ] in
/-- An action with the lock held keeps the reasons to sleep or makes the process owe a wakeup; one without
the lock changes nothing that others see. -/
theorem Waits.act (h : Waits reason debt s) (hinv : Inv P locked s) (hP : Brackets P locked) {p : ι}
    {a : α} {n : π} {d : σ} (hm : s.mode p = .run) (hi : P.instr p (s.pc p) = .act)
    (ha : P.act p (s.killed p) a (s.pc p) s.data = some (n, d))
    (hact : locked (s.pc p) → ∀ c, reason c s.data ∨ debt (s.pc p) c → reason c d ∨ debt n c) :
    Waits reason debt { s.goto p n with data := d } := by
  intro q c hq
  have hold : (s.mode q).Naps c := naps_update (fun _ => False.elim) q c hq
  by_cases hlock : locked (s.pc p)
  · have hp := hinv.owner_of_locked hi hlock
    have hbefore : reason c s.data ∨ debt (s.pc p) c := by
      obtain hr | ⟨o, ho, hd⟩ := h q c hold
      · exact .inl hr
      · rw [hp, Option.some.injEq] at ho
        subst ho
        rw [hm] at hd
        exact .inr hd
    obtain hr | hn := hact hlock c hbefore
    · exact .inl hr
    · refine .inr ⟨p, hp, ?_⟩
      simpa [State.goto, Mode.Owes] using hn
  · obtain rfl := hP.data ha hlock
    obtain hr | ⟨o, ho, hd⟩ := h q c hold
    · exact .inl hr
    · have hop : o ≠ p := by
        rintro rfl
        have := (hinv.owner o).mp ho
        rw [hm] at this
        exact hlock this
      refine .inr ⟨o, ho, ?_⟩
      simpa [State.goto, update_of_ne hop] using hd

/-- Every step keeps that no wakeup is lost, if who goes to sleep has a reason to and an action either
keeps the reasons of others to sleep or makes the process owe them a wakeup. -/
theorem Waits.step (h : Waits reason debt s) (hinv : Inv P locked s) (hP : Brackets P locked)
    (hpay : Pays P debt)
    (hknows : Knows known s)
    (hsleep : ∀ p c n, P.instr p (s.pc p) = .sleep c n → known p (s.pc p) s.data → reason c s.data)
    (hact : ∀ p a n d, l = .act p a → P.act p (s.killed p) a (s.pc p) s.data = some (n, d) →
      locked (s.pc p) → known p (s.pc p) s.data →
      ∀ c, reason c s.data ∨ debt (s.pc p) c → reason c d ∨ debt n c)
    (hs : Step P s l s') : Waits reason debt s' := by
  cases hs with
  | acquire hm hi hfree | relock hm hfree =>
    refine h.clear rfl (naps_update fun _ => False.elim) ?_
    simp [hfree]
  | @release p n hm hi =>
    refine h.clear rfl (naps_update fun _ => False.elim) ?_
    intro o q c ho
    have hp : s.owner = some p := (hinv.owner p).mpr (by rw [hm]; exact (hP.release hi).1)
    rw [hp, Option.some.injEq] at ho
    subst ho
    rw [hm]
    exact hpay.release hi c
  | @nap p c n hm hi =>
    have hp : s.owner = some p := (hinv.owner p).mpr (by rw [hm]; exact (hP.sleep hi).1)
    exact h.nap hpay hm hi hp (hsleep p c n hi (hknows p hp (by simp [hm])))
  | @unlock p c n hm =>
    refine h.clear rfl (naps_update fun d hd => by rw [hm]; exact hd) ?_
    intro o q d ho
    have hp : s.owner = some p := (hinv.owner p).mpr (by rw [hm]; trivial)
    rw [hp, Option.some.injEq] at ho
    subst ho
    rw [hm]
    exact id
  | @asleep p c n hm =>
    refine h.keep rfl rfl (naps_update fun d hd => by rw [hm]; exact hd) ?_
    intro o q d ho _ hd
    have hop : o ≠ p := by
      rintro rfl
      rw [hm] at hd
      exact hd
    left
    simpa [State.setMode, update_of_ne hop] using hd
  | @resume p c n hm =>
    refine h.keep rfl rfl (naps_update fun d hd => hd.elim) ?_
    intro o q d ho _ hd
    have hop : o ≠ p := by
      rintro rfl
      rw [hm] at hd
      exact hd
    left
    simpa [State.setMode, update_of_ne hop] using hd
  | @wakeup p c n hm hi =>
    refine h.keep rfl rfl (naps_update fun d hd => hd.elim) ?_
    intro o q d ho _ hd
    left
    have hp : s.owner = some p := (hinv.owner p).mpr (by rw [hm]; exact (hP.wakeup hi).1)
    rw [hp, Option.some.injEq] at ho
    subst ho
    rw [hm] at hd
    simp only [State.setMode, update_self]
    obtain rfl | hn := hpay.wakeup hi d hd
    · exact .inl ⟨rfl, hpay.slots q⟩
    · exact .inr hn
  | @skip p c todo n hm =>
    refine h.keep rfl rfl (naps_update fun d hd => hd.elim) ?_
    intro o q d ho hq hd
    left
    by_cases hop : o = p
    · subst hop
      have hqo : q ≠ o := by
        rintro rfl
        rw [hm] at hq
        exact hq
      rw [hm] at hd
      simp only [State.setMode, update_self]
      obtain ⟨rfl, hmem⟩ | hn := hd
      · exact .inl ⟨rfl, (List.mem_cons.mp hmem).resolve_left hqo⟩
      · exact .inr hn
    · simpa [State.setMode, update_of_ne hop] using hd
  | @rouse p j c todo n hm hj hd =>
    exact h.rouse hm hd (hinv.owner_of_wake hP hm)
  | @woken p c n hm =>
    refine h.keep rfl rfl (naps_update fun d hd => hd.elim) ?_
    intro o q d ho _ hd
    left
    by_cases hop : o = p
    · subst hop
      rw [hm] at hd
      simp only [State.goto, update_self]
      obtain ⟨-, hmem⟩ | hn := hd
      · exact absurd hmem List.not_mem_nil
      · exact hn
    · simpa [State.goto, update_of_ne hop] using hd
  | @act p a n d hm hi ha =>
    refine h.act hinv hP hm hi ha fun hlock c => ?_
    exact hact p a n d rfl ha hlock (hknows p (hinv.owner_of_locked hi hlock) (by simp [hm])) c
  | @kill p hd =>
    refine h.keep rfl rfl (naps_update fun e he => Mode.naps_rouse he) ?_
    intro o q e ho _ howe
    left
    by_cases hop : o = p
    · subst hop
      simp only [State.setMode, update_self]
      cases hm : s.mode o with
      | run | wake d todo n => rwa [hm] at howe
      | sleep st d n =>
        rw [hm] at howe
        exact howe.elim
    · simpa [State.setMode, update_of_ne hop] using howe

end

end Lib.Monitor
