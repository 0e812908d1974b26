import Xv6.Lib.Monitor

/-!
# Sleep locks

`acquiresleep` and `releasesleep` of `kernel/sleeplock.c`, called by any number of processes on one
lock, as a program of a monitor with the spin lock `lk->lk`. Other code can kill processes at any time,
which wakes them up. `sleeplock_handover` says that at most one process is between the two calls, that
`lk->pid` is its pid, and that a process sleeps on the lock only while the lock is held or changes hands.
-/

namespace Xv6.SleepLocks

open Lib Lib.Monitor Function

/-- `struct sleeplock`, without its spin lock. -/
structure Sleeplock where
  locked : Bool
  pid : ℤ
  deriving DecidableEq

/-- `initsleeplock` -/
def initsleeplock : Sleeplock := ⟨false, 0⟩

/-- Where a process is. -/
inductive Pc
  /-- outside, without the lock -/
  | out
  /-- `acquiresleep` before `acquire(&lk->lk)` -/
  | acquire
  /-- the condition of the loop -/
  | test
  /-- the body of the loop -/
  | nap
  /-- before `lk->locked` and `lk->pid` are set -/
  | set
  /-- before `release(&lk->lk)` -/
  | release
  /-- `acquiresleep` has returned -/
  | held
  /-- `releasesleep` before `acquire(&lk->lk)` -/
  | reacquire
  /-- before `lk->locked` and `lk->pid` are cleared -/
  | clear
  /-- before `wakeup(lk)` -/
  | wake
  /-- before `release(&lk->lk)` -/
  | done
  deriving DecidableEq

/-- The spin lock is held. -/
def Pc.locked : Pc → Prop
  | .test | .nap | .set | .release | .clear | .wake | .done => True
  | .out | .acquire | .held | .reacquire => False

/-- The sleep lock is held. -/
def Pc.inside : Pc → Prop
  | .release | .held | .reacquire | .clear => True
  | .out | .acquire | .test | .nap | .set | .wake | .done => False

/-- The steps that are neither about the spin lock nor calls of `sleep` and `wakeup`. The processes call
`acquiresleep` and `releasesleep` in turn. -/
def act (pid : ℤ) (pc : Pc) (lk : Sleeplock) : Option (Pc × Sleeplock) :=
  match pc with
  | .out => some (.acquire, lk)
  | .test => some (if lk.locked then .nap else .set, lk)
  | .set => some (.release, { lk with locked := true, pid := pid })
  | .held => some (.reacquire, lk)
  | .clear => some (.wake, { lk with locked := false, pid := 0 })
  | _ => none

/-- `acquiresleep` and `releasesleep` for `n` processes, with their pids. -/
def program {n : ℕ} (pid : Fin n → ℤ) : Program (Fin n) Unit Pc Sleeplock Unit where
  slots := List.finRange n
  instr _
    | .acquire => .acquire .test
    | .nap => .sleep () .test
    | .release => .release .held
    | .reacquire => .acquire .clear
    | .wake => .wakeup () .done
    | .done => .release .out
    | _ => .act
  act p _ _ := act (pid p)

/-- The processes and the lock. -/
abbrev Machine (n : ℕ) : Type := State (Fin n) Unit Pc Sleeplock

/-- No process has called `acquiresleep` yet. -/
def Machine.init (n : ℕ) (killed : Fin n → Bool) : Machine n where
  pc _ := .out
  mode _ := .run
  killed := killed
  owner := none
  data := initsleeplock

/-- The states reached. -/
def Run {n : ℕ} (pid : Fin n → ℤ) (killed : Fin n → Bool) : Machine n → Prop :=
  Reach (Machine.init n killed) (Step (program pid)) fun _ _ => True

section

variable {n : ℕ} {pid : Fin n → ℤ} {killed : Fin n → Bool} {s s' : Machine n}
  {l : Monitor.Label (Fin n) Unit}

theorem act_cases {i : ℤ} {pc pc' : Pc} {lk lk' : Sleeplock} (h : act i pc lk = some (pc', lk')) :
    (pc = .out ∧ pc' = .acquire ∧ lk' = lk) ∨
    (pc = .test ∧ pc' = .nap ∧ lk.locked = true ∧ lk' = lk) ∨
    (pc = .test ∧ pc' = .set ∧ lk.locked = false ∧ lk' = lk) ∨
    (pc = .set ∧ pc' = .release ∧ lk' = ⟨true, i⟩) ∨
    (pc = .held ∧ pc' = .reacquire ∧ lk' = lk) ∨
    (pc = .clear ∧ pc' = .wake ∧ lk' = ⟨false, 0⟩) := by
  cases pc <;> simp only [act, Option.some.injEq, Prod.mk.injEq, reduceCtorEq] at h <;>
    obtain ⟨rfl, rfl⟩ := h <;> cases hl : lk.locked <;> simp

theorem brackets : Brackets (program pid) Pc.locked where
  acquire {p pc n} h := by cases pc <;> cases h <;> simp [Pc.locked]
  release {p pc n} h := by cases pc <;> cases h <;> simp [Pc.locked]
  sleep {p pc c n} h := by cases pc <;> cases h; simp [Pc.locked]
  wakeup {p pc c n} h := by cases pc <;> cases h; simp [Pc.locked]
  act {p k a pc d n e} h := by
    obtain ⟨rfl, rfl, -⟩ | ⟨rfl, rfl, -⟩ | ⟨rfl, rfl, -⟩ | ⟨rfl, rfl, -⟩ | ⟨rfl, rfl, -⟩ | ⟨rfl, rfl, -⟩ :=
      act_cases h <;> simp [Pc.locked]
  data {p k a pc d n e} h hpc := by
    obtain ⟨rfl, -, rfl⟩ | ⟨rfl, -⟩ | ⟨rfl, -⟩ | ⟨rfl, -⟩ | ⟨rfl, -, rfl⟩ | ⟨rfl, -⟩ := act_cases h <;>
      simp_all [Pc.locked]

/-- A process sleeps while the lock is held. -/
def reason (_ : Unit) (lk : Sleeplock) : Prop := lk.locked = true

/-- `releasesleep` owes a wakeup once it has cleared the lock. -/
def debt (pc : Pc) (_ : Unit) : Prop := pc = .wake

theorem pays : Pays (program pid) debt where
  slots := List.mem_finRange
  release {p pc n} h := by cases pc <;> cases h <;> simp [debt]
  sleep {p pc c n} h := by cases pc <;> cases h; simp [debt]
  wakeup {p pc c n} h := by cases pc <;> cases h; simp

/-- What the process that has the spin lock knows of the sleep lock. -/
def known (_ : Fin n) (pc : Pc) (lk : Sleeplock) : Prop :=
  (pc = .nap → lk.locked = true) ∧ (pc = .set → lk.locked = false)

theorem knows_step (h : Knows known s) (hinv : Monitor.Inv (program pid) Pc.locked s)
    (hs : Step (program pid) s l s') : Knows known s' := by
  refine h.step hinv brackets ?_ ?_ ?_ hs
  · rintro p n (hi | ⟨c, hi⟩) <;> cases hpc : s.pc p <;> rw [hpc] at hi <;> cases hi <;> simp [known]
  · intro p c n hi _
    cases hpc : s.pc p <;> rw [hpc] at hi <;> cases hi
    simp [known]
  · intro p a n d ha _ _
    obtain ⟨-, rfl, rfl⟩ | ⟨-, rfl, hl, rfl⟩ | ⟨-, rfl, hl, rfl⟩ | ⟨-, rfl, rfl⟩ | ⟨-, rfl, rfl⟩ |
      ⟨-, rfl, rfl⟩ := act_cases ha <;> simp [known, *]

theorem waits_step (h : Waits reason debt s) (hinv : Monitor.Inv (program pid) Pc.locked s)
    (hknows : Knows known s) (hs : Step (program pid) s l s') : Waits reason debt s' := by
  refine h.step hinv brackets pays hknows ?_ ?_ hs
  · intro p c n hi hk
    cases hpc : s.pc p <;> rw [hpc] at hi hk <;> cases hi
    exact hk.1 rfl
  · rintro p a n d rfl ha _ _ c hold
    obtain ⟨hpc, rfl, rfl⟩ | ⟨hpc, rfl, -, rfl⟩ | ⟨hpc, rfl, -, rfl⟩ | ⟨hpc, rfl, rfl⟩ | ⟨hpc, rfl, rfl⟩ |
      ⟨hpc, rfl, rfl⟩ := act_cases ha <;> simp_all [reason, debt]

/-- Who is inside has the lock, with its pid in it, and is alone. -/
structure Exclusive (pid : Fin n → ℤ) (s : Machine n) : Prop where
  lock : ∀ p, (s.pc p).inside → s.data = ⟨true, pid p⟩
  alone : ∀ p q, (s.pc p).inside → (s.pc q).inside → p = q

theorem inside_dest {p : Fin n} {pc pc' : Pc} (h : ((program pid).instr p pc).dest = some pc') :
    pc'.inside ↔ pc.inside := by
  cases pc <;> cases h <;> simp [Pc.inside]

theorem Exclusive.goto (h : Exclusive pid s) {p : Fin n} {pc : Pc} (hdata : s'.data = s.data)
    (hpc : s'.pc = update s.pc p pc) (hin : pc.inside ↔ (s.pc p).inside) :
    Exclusive pid s' := by
  have hiff : ∀ q, (s'.pc q).inside ↔ (s.pc q).inside := by
    intro q
    rw [hpc]
    by_cases hq : q = p
    · subst hq
      rwa [update_self]
    · rw [update_of_ne hq]
  exact ⟨fun q hq => hdata.trans (h.lock q ((hiff q).mp hq)),
    fun q r hq hr => h.alone q r ((hiff q).mp hq) ((hiff r).mp hr)⟩

theorem Exclusive.step (h : Exclusive pid s) (hinv : Monitor.Inv (program pid) Pc.locked s)
    (hknows : Knows known s) (hs : Step (program pid) s l s') : Exclusive pid s' := by
  obtain ⟨p, a, pc, d, rfl, hi, ha, rfl⟩ | ⟨hdata, hpc | ⟨p, pc, hpc, hdest⟩⟩ := hs.pc_cases hinv
  · obtain ⟨hpc, rfl, rfl⟩ | ⟨hpc, rfl, -, rfl⟩ | ⟨hpc, rfl, -, rfl⟩ | ⟨hpc, rfl, rfl⟩ | ⟨hpc, rfl, rfl⟩ |
      ⟨hpc, rfl, rfl⟩ := act_cases ha
    · exact h.goto rfl rfl (by rw [hpc]; simp [Pc.inside])
    · exact h.goto rfl rfl (by rw [hpc]; simp [Pc.inside])
    · exact h.goto rfl rfl (by rw [hpc]; simp [Pc.inside])
    · -- The process takes the sleep lock, which nobody holds.
      have hlocked : (s.pc p).locked := by simp [hpc, Pc.locked]
      have hfree : s.data.locked = false := by
        refine (hknows p (hinv.owner_of_locked hi hlocked) fun st c n hm => ?_).2 hpc
        have hfits := hinv.fits p
        rw [hm, Mode.Fits, hi] at hfits
        cases hfits
      have hnone : ∀ q, ¬ (s.pc q).inside := by
        intro q hq
        rw [h.lock q hq] at hfree
        cases hfree
      have honly : ∀ q, ((s.goto p .release).pc q).inside → q = p := by
        intro q hq
        by_contra hqp
        simp only [State.goto, update_of_ne hqp] at hq
        exact hnone q hq
      refine ⟨fun q hq => ?_, fun q r hq hr => (honly q hq).trans (honly r hr).symm⟩
      rw [honly q hq]
    · exact h.goto rfl rfl (by rw [hpc]; simp [Pc.inside])
    · -- The process that was inside leaves.
      have hnone : ∀ q, ¬ ((s.goto p .wake).pc q).inside := by
        intro q hq
        by_cases hqp : q = p
        · simp [State.goto, hqp, Pc.inside] at hq
        · simp only [State.goto, update_of_ne hqp] at hq
          exact hqp (h.alone q p hq (by simp [hpc, Pc.inside]))
      exact ⟨fun q hq => absurd hq (hnone q), fun q r hq => absurd hq (hnone q)⟩
  · exact ⟨fun q hq => by rw [hdata]; rw [hpc] at hq; exact h.lock q hq,
      fun q r hq hr => by rw [hpc] at hq hr; exact h.alone q r hq hr⟩
  · exact h.goto hdata hpc (inside_dest hdest)

/-- What holds in every state reached. -/
structure Inv (pid : Fin n → ℤ) (s : Machine n) : Prop where
  monitor : Monitor.Inv (program pid) Pc.locked s
  knows : Knows known s
  waits : Waits reason debt s
  exclusive : Exclusive pid s

theorem init_inv : Inv pid (Machine.init n killed) where
  monitor := ⟨fun _ => trivial, fun p => by simp [Machine.init, Mode.holds, Pc.locked]⟩
  knows p hp := nomatch hp
  waits p c hp := hp.elim
  exclusive := ⟨fun p hp => hp.elim, fun p q hp => hp.elim⟩

theorem Run.inv (h : Run pid killed s) : Inv pid s := by
  refine h.invariant (P := Inv pid) init_inv ?_
  intro s l s' h _ hs
  exact ⟨h.monitor.step brackets hs, knows_step h.knows h.monitor hs,
    waits_step h.waits h.monitor h.knows hs, h.exclusive.step h.monitor h.knows hs⟩

/-- **Sleep locks exclude and hand over.** At most one process is between the return of `acquiresleep`
and its `releasesleep`; the lock is held then, and `lk->pid` is the pid of that process; and whenever
`lk->lk` is free and `lk->locked` is 0, no process sleeps on the lock. -/
theorem sleeplock_handover (h : Run pid killed s) :
    (∀ p q, s.pc p = .held → s.pc q = .held → p = q) ∧
    (∀ p, s.pc p = .held → s.data.locked = true ∧ s.data.pid = pid p) ∧
    (s.owner = none → s.data.locked = false → ∀ p, ¬ s.Sleeping p ()) := by
  have hinv := Run.inv h
  have hin : ∀ p, s.pc p = .held → (s.pc p).inside := fun p hp => by simp [hp, Pc.inside]
  refine ⟨fun p q hp hq => hinv.exclusive.alone p q (hin p hp) (hin q hq), fun p hp => ?_, ?_⟩
  · rw [hinv.exclusive.lock p (hin p hp)]
    exact ⟨rfl, rfl⟩
  · intro hfree hunlocked p hp
    have := hinv.waits.reason_of_sleeping hfree hp
    rw [reason, hunlocked] at this
    cases this

end

/-- Process 0 takes the lock, and process 1 goes to sleep on it. -/
def contend : List (Monitor.Label (Fin 2) Unit) :=
  let p : Fin 2 := ⟨0, Nat.zero_lt_two⟩
  let q : Fin 2 := ⟨1, Nat.one_lt_two⟩
  [.act p (), .acquire p, .act p (), .act p (), .release p,
    .act q (), .acquire q, .act q (), .sleep q, .sleep q, .sleep q]

theorem sleeplock_handover_contend : ∃ s : Machine 2, Run ![1, 2] (fun _ => false) s ∧
    s.pc 0 = .held ∧ s.data.pid = 1 := by
  have hex : ((execute (next (program ![1, 2])) (fun _ _ => true) (Machine.init 2 fun _ => false)
      contend).map fun s => s.pc 0) = some .held := by
    decide +kernel
  obtain ⟨s, hs, hpc⟩ := Option.map_eq_some_iff.mp hex
  have hrun : Run ![1, 2] (fun _ => false) s :=
    Reach.execute (fun _ _ _ => step_of_next) (fun _ _ _ => trivial) .init hs
  exact ⟨s, hrun, hpc, ((sleeplock_handover hrun).2.1 0 hpc).2⟩

end Xv6.SleepLocks
