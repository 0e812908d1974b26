import Xv6.Sched.Cpus

/-!
# No lost wakeups

A process that calls `sleep(chan, lk)` takes its own lock before it releases `lk`, and keeps it until the
scheduler has switched away from it. A `wakeup(chan)` by a CPU that holds `lk` therefore finds it
`SLEEPING`, and past its place in the table it is not asleep any more.
-/

namespace Xv6.Sched

open Function (update update_apply update_self update_of_ne)

/-- Process `p` has released `lk` in `sleep(chan, lk)`, and nobody has woken it up yet. -/
def Machine.Asleep (m : Machine) (p : Idx) (chan : Chan) (lk : Lk) : Prop :=
  (m.thread p).call = .sleep .set chan lk ∨ (m.thread p).call = .sleep .sched chan lk ∨
    (m.thread p).call = .sleep .tidy chan lk ∧ (m.slot p).state = .sleeping

/-- A process that is asleep has its channel set, and is not where a `wakeup` has been. -/
structure Sleepers (m : Machine) : Prop where
  chan : ∀ p chan lk, (m.thread p).call = .sleep .sched chan lk ∨
    (m.thread p).call = .sleep .tidy chan lk ∧ (m.slot p).state = .sleeping → (m.slot p).chan = chan
  woken : ∀ c chan i lk p, (m.cpu c).wake = some (chan, i) → m.lock lk = some c →
    (m.cpu c).proc ≠ some p → p.val < i → ¬m.Asleep p chan lk

section

variable {m m' : Machine} {c : Cpu} {p : Idx}

theorem Sleepers.keep (h : Sleepers m)
    (hwake : ∀ c chan i lk, (m'.cpu c).wake = some (chan, i) → m'.lock lk = some c → i ≠ 0 →
      (m.cpu c).wake = some (chan, i) ∧ m.lock lk = some c ∧ (m'.cpu c).proc = (m.cpu c).proc)
    (hthread : ∀ q pc chan lk, (m'.thread q).call = .sleep pc chan lk → pc = .set ∨ pc = .sched ∨
      pc = .tidy → (m.thread q).call = .sleep pc chan lk)
    (hstate : ∀ q, (m'.slot q).state = .sleeping → (m.slot q).state = .sleeping)
    (hchan : ∀ q chan lk, (m'.thread q).call = .sleep .sched chan lk ∨
      (m'.thread q).call = .sleep .tidy chan lk → (m'.slot q).chan = (m.slot q).chan) :
    Sleepers m' := by
  refine ⟨fun q chan lk hq => ?_, fun c chan i lk q hw hlk hproc hi hasleep => ?_⟩
  · have hold : (m.thread q).call = .sleep .sched chan lk ∨
        (m.thread q).call = .sleep .tidy chan lk ∧ (m.slot q).state = .sleeping := by
      rcases hq with hq | ⟨hq, hs⟩
      · exact .inl (hthread q _ _ _ hq (by simp))
      · exact .inr ⟨hthread q _ _ _ hq (by simp), hstate q hs⟩
    rw [hchan q chan lk (hq.imp_right And.left), h.chan q chan lk hold]
  · obtain ⟨hw, hlk, heq⟩ := hwake c chan i lk hw hlk (by omega)
    rw [heq] at hproc
    refine h.woken c chan i lk q hw hlk hproc hi ?_
    rcases hasleep with hq | hq | ⟨hq, hs⟩
    · exact .inl (hthread q _ _ _ hq (by simp))
    · exact .inr (.inl (hthread q _ _ _ hq (by simp)))
    · exact .inr (.inr ⟨hthread q _ _ _ hq (by simp), hstate q hs⟩)

/-- A call of `sleep` that has not released its lock, or is done. -/
def Call.Awake (k : Call) : Prop :=
  ∀ chan lk, k ≠ .sleep .set chan lk ∧ k ≠ .sleep .sched chan lk ∧ k ≠ .sleep .tidy chan lk

theorem Call.awake_none : Call.Awake .none := by simp [Call.Awake]

theorem Sleepers.setThread (h : Sleepers m) {t : Thread} (ht : t.call.Awake) :
    Sleepers (m.setThread p t) := by
  refine h.keep (fun c chan i lk hw hlk _ => ⟨hw, hlk, rfl⟩) (fun q pc chan lk hq hpc => ?_)
    (fun _ => id) fun _ _ _ _ => rfl
  have := ht chan lk
  simp only [Machine.setThread, update_apply] at hq
  grind

theorem Sleepers.setPlock (h : Sleepers m) (j : Idx) (o : Option Cpu) : Sleepers (m.setPlock j o) :=
  h.keep (fun _ _ _ _ hw hlk _ => ⟨hw, hlk, rfl⟩) (fun _ _ _ _ hq _ => hq) (fun _ => id)
    fun _ _ _ _ => rfl

theorem Sleepers.acquire (h : Sleepers m) (hc : (m.cpu c).wake = none) (lk : Lk) :
    Sleepers (m.setLock lk (some c)) := by
  refine h.keep (fun c' chan i lk' hw hlk _ => ⟨hw, ?_, rfl⟩) (fun _ _ _ _ hq _ => hq) (fun _ => id)
    fun _ _ _ _ => rfl
  by_cases hlk' : lk' = lk
  · subst hlk'
    obtain rfl : c = c' := by simpa using hlk
    have hw : (m.cpu c).wake = some (chan, i) := hw
    rw [hc] at hw
    cases hw
  · simpa [hlk'] using hlk

theorem Sleepers.release (h : Sleepers m) (lk : Lk) : Sleepers (m.setLock lk none) := by
  refine h.keep (fun c' chan i lk' hw hlk _ => ⟨hw, ?_, rfl⟩) (fun _ _ _ _ hq _ => hq) (fun _ => id)
    fun _ _ _ _ => rfl
  by_cases hlk' : lk' = lk
  · subst hlk'
    simp at hlk
  · simpa [hlk'] using hlk

theorem Sleepers.setSlot (h : Sleepers m) {j : Idx} {u : Slot → Slot}
    (hstate : (u (m.slot j)).state = .sleeping → (m.slot j).state = .sleeping)
    (hchan : (u (m.slot j)).chan = (m.slot j).chan ∨ (m.thread j).call.Awake) :
    Sleepers (m.setSlot j u) := by
  refine h.keep (fun c chan i lk hw hlk _ => ⟨hw, hlk, rfl⟩) (fun _ _ _ _ hq _ => hq) (fun q hq => ?_)
    fun q chan lk hq => ?_
  · simp only [Machine.setSlot, update_apply] at hq
    grind
  · have := fun hawake : (m.thread j).call.Awake => hawake chan lk
    simp only [Machine.setSlot, update_apply] at hq ⊢
    grind

/-- A CPU starts or leaves `wakeup`, or does something else outside it. -/
theorem Sleepers.setCpu (h : Sleepers m) {u : CpuState → CpuState}
    (hu : ∀ chan i, (u (m.cpu c)).wake = some (chan, i) → i ≠ 0 →
      (m.cpu c).wake = some (chan, i) ∧ (u (m.cpu c)).proc = (m.cpu c).proc) :
    Sleepers (m.setCpu c u) := by
  refine h.keep (fun c' chan i lk hw hlk hi => ?_) (fun _ _ _ _ hq _ => hq) (fun _ => id)
    fun _ _ _ _ => rfl
  have := hu chan i
  simp only [Machine.setCpu, update_apply] at hw hlk ⊢
  grind

theorem Thread.Wf.phase_asleep {t : Thread} (h : t.Wf p) {pc : SleepPc} {chan : Chan} {lk : Lk}
    (hcall : t.call = .sleep pc chan lk) (hpc : pc = .set ∨ pc = .sched ∨ pc = .tidy) :
    t.phase = if pc = .set then .locked else if pc = .sched then .drowsy else .asleep := by
  obtain ⟨s, k, f⟩ := t
  dsimp only at hcall
  subst hcall
  have hf : f = .none := by
    by_contra hf
    have hcalm := (Thread.interruptible_iff.mp (h.calm hf)).1
    rcases hpc with rfl | rfl | rfl <;> simp at hcalm
  subst hf
  rcases hpc with rfl | rfl | rfl <;> rfl

/-- A process whose lock is free has switched if it is in `sleep` without its lock. -/
theorem Inv.asleep_state (h : Inv m) (hlock : m.plock p = none) {chan : Chan} {lk : Lk}
    (hasleep : m.Asleep p chan lk) :
    (m.thread p).call = .sleep .tidy chan lk ∧ (m.slot p).state = .sleeping := by
  have hallows := h.owner.allows p
  have hown : ∀ c, m.view.mode c = .run p → m.view.phase p = .active := by
    intro c hc
    by_contra hne
    have : m.plock p = some c := h.owner.own c p hc hne
    rw [hlock] at this
    cases this
  have hon := h.owner.on p
  rcases hasleep with hset | hsched | htidy
  · have hphase : m.view.phase p = .locked := (h.wf p).phase_asleep hset (.inl rfl)
    grind
  · have hphase : m.view.phase p = .drowsy := (h.wf p).phase_asleep hsched (.inr (.inl rfl))
    grind
  · exact htidy

theorem Sleepers.scheduler (h : Sleepers m) (s : SchedulerStep) (hs : s.enabled m c) :
    Sleepers (s.next m c) := by
  cases s with
  | pick p =>
    rw [SchedulerStep.next]
    have hnone : (m.cpu c).wake = none := hs.1.2.2
    refine Sleepers.setCpu (Sleepers.setSlot (h.setPlock p _) ?_ ?_) fun chan i hw => ?_
    · rintro ⟨⟩
    · exact .inl rfl
    · exact absurd (hnone.symm.trans hw) (by simp)
  | skip p | restart =>
    rw [SchedulerStep.next]
    exact Sleepers.setCpu h fun chan i hw _ => ⟨hw, rfl⟩
  | back p =>
    rw [SchedulerStep.next]
    have hnone : (m.cpu c).wake = none := hs.2.2
    refine Sleepers.setCpu (h.setPlock p _) fun chan i hw => ?_
    exact absurd (hnone.symm.trans hw) (by simp)

theorem Sleepers.irq (h : Sleepers m) (hi : Inv m) (s : IrqStep) (hs : s.enabled m c) :
    Sleepers (s.next m c) := by
  cases s with
  | enter | «return» =>
    rw [IrqStep.next]
    exact Sleepers.setCpu h fun chan i hw _ => ⟨hw, rfl⟩
  | acquire n =>
    rw [IrqStep.next]
    exact Sleepers.setCpu (h.acquire hs.2.1 _) fun chan i hw _ => ⟨hw, rfl⟩
  | release n =>
    rw [IrqStep.next]
    exact Sleepers.setCpu (h.release _) fun chan i hw _ => ⟨hw, rfl⟩
  | wakeup k =>
    rw [IrqStep.next]
    refine Sleepers.setCpu h fun chan i hw hi => ?_
    cases hw
    exact absurd rfl hi
  | yield p =>
    rw [IrqStep.next]
    obtain ⟨hirq, -, hmode, -⟩ := hs
    have hcalm := (Thread.interruptible_iff.mp (hi.locks.calm c p (by rw [hirq]; simp) hmode)).1
    have hawake : (m.thread p).call.Awake := by
      intro chan lk
      refine ⟨fun hk => ?_, fun hk => ?_, fun hk => ?_⟩
      · have := (hi.wf p).phase_asleep hk (.inl rfl)
        simp [-Thread.phase, hcalm] at this
      · have := (hi.wf p).phase_asleep hk (.inr (.inl rfl))
        simp [-Thread.phase, hcalm] at this
      · have := (hi.wf p).phase_asleep hk (.inr (.inr rfl))
        simp [-Thread.phase, hcalm] at this
    refine Sleepers.setThread (Sleepers.setCpu (Sleepers.setSlot (h.setPlock p _) ?_ ?_) ?_) hawake
    · rintro ⟨⟩
    · exact .inl rfl
    · exact fun chan i hw _ => ⟨hw, rfl⟩

theorem Sleepers.code (h : Sleepers m) {L : Finset ℕ} (a : CodeStep) (hs : a.enabled m c p L) :
    Sleepers (a.next m c p L) := by
  cases a with
  | acquire n => exact (h.acquire hs.1.2.2.1 _).setThread Call.awake_none
  | release n => exact (h.release _).setThread Call.awake_none
  | sleep n k => exact h.setThread (by simp [Call.Awake])
  | wakeup k =>
    rw [CodeStep.next]
    refine Sleepers.setCpu h fun chan i hw hi => ?_
    cases hw
    exact absurd rfl hi
  | setkilled | grow sz pagetable =>
    rw [CodeStep.next]
    exact Sleepers.setSlot h (fun hs => hs) (.inl rfl)
  | exit status =>
    have := h.setThread (p := p) (t := Sys.thread (.exit status)) Call.awake_none
    exact ⟨this.chan, this.woken⟩
  | _ => exact h.setThread Call.awake_none

theorem Sleepers.move (h : Sleepers m) (hcpu : ∀ c, (m'.cpu c).wake = (m.cpu c).wake ∧
      (m'.cpu c).proc = (m.cpu c).proc) (hlock : ∀ c lk, m'.lock lk = some c → m.lock lk = some c)
    (hother : ∀ q, q ≠ p → m'.thread q = m.thread q ∧ m'.slot q = m.slot q)
    (hchan : ∀ chan lk, (m'.thread p).call = .sleep .sched chan lk ∨
      (m'.thread p).call = .sleep .tidy chan lk ∧ (m'.slot p).state = .sleeping →
        (m'.slot p).chan = chan)
    (hasleep : ∀ chan lk, m'.Asleep p chan lk → m.Asleep p chan lk ∨ m'.lock lk = none) :
    Sleepers m' := by
  refine ⟨fun q chan lk hq => ?_, fun c chan i lk q hw hlk hproc hi hq => ?_⟩
  · have := h.chan q chan lk
    grind
  · have := h.woken c chan i lk q
    have := hcpu c
    simp only [Machine.Asleep] at *
    grind

theorem Sleepers.sleep (h : Sleepers m) {s : Sys} {pc : SleepPc} {chan : Chan} {lk : Lk}
    (hs : sleepEnabled m c p s pc chan lk) : Sleepers (sleepNext m c p s pc chan lk) := by
  obtain ⟨hr, hpc⟩ := hs
  have hcall : (m.thread p).call = .sleep pc chan lk := by rw [hr.2.2.2]
  cases pc with
  | lock => exact (h.setPlock p _).setThread (by simp [Call.Awake])
  | unlock =>
    -- The lock is released in this step, so that nobody holds it in `wakeup`.
    refine h.move (p := p) (fun _ => ⟨rfl, rfl⟩) (fun c' lk' hlk => ?_) (fun q hq => ?_)
      (fun chan' lk' hq => ?_) fun chan' lk' hq => ?_
    · by_cases hlk' : lk' = lk
      · subst hlk'
        simp at hlk
      · simpa [hlk'] using hlk
    · simp [hq]
    · simp at hq
    · simp only [Machine.Asleep, sleepNext, Machine.setThread, update_self] at hq
      obtain ⟨rfl, rfl⟩ : chan = chan' ∧ lk = lk' := by simpa using hq
      exact .inr (by simp)
  | set =>
    refine h.move (p := p) (fun _ => ⟨rfl, rfl⟩) (fun _ _ hlk => hlk) (fun q hq => ?_)
      (fun chan' lk' hq => ?_) fun chan' lk' hq => ?_
    · simp [hq]
    · simp only [sleepNext, Machine.setThread, Machine.setSlot, update_self] at hq ⊢
      obtain ⟨rfl, -⟩ : chan = chan' ∧ lk = lk' := by simpa using hq
      rfl
    · simp only [Machine.Asleep, sleepNext, Machine.setThread, update_self] at hq
      obtain ⟨rfl, rfl⟩ : chan = chan' ∧ lk = lk' := by simpa using hq
      exact .inl (.inl hcall)
  | sched =>
    refine h.move (p := p) (fun c' => ?_) (fun _ _ hlk => hlk) (fun q hq => ?_)
      (fun chan' lk' hq => ?_) fun chan' lk' hq => ?_
    · by_cases hc : c' = c <;> simp [hc]
    · simp [hq]
    · simp only [sleepNext, Machine.setThread, Machine.setCpu, update_self] at hq ⊢
      obtain ⟨⟨rfl, rfl⟩, -⟩ : (chan = chan' ∧ lk = lk') ∧ _ := by simpa using hq
      exact h.chan p chan lk (.inl hcall)
    · simp only [Machine.Asleep, sleepNext, Machine.setThread, Machine.setCpu,
        update_self] at hq
      obtain ⟨⟨rfl, rfl⟩, -⟩ : (chan = chan' ∧ lk = lk') ∧ _ := by simpa using hq
      exact .inl (.inr (.inl hcall))
  | tidy =>
    rw [sleepNext]
    have hgo := (h.setPlock p none).setThread (p := p)
      (t := ⟨s, .sleep .relock chan lk, .none⟩) (by simp [Call.Awake])
    have := hgo.setSlot (j := p) (u := fun x => { x with chan := .null }) (fun hs => hs)
      (.inr (by simp [Call.Awake]))
    exact this
  | relock => exact (h.acquire hr.2.2.1 lk).setThread Call.awake_none

theorem Sleepers.wakeup (h : Sleepers m) (hi : Inv m) {chan : Chan} (a : WakeupStep)
    (hs : a.enabled m c chan) : Sleepers (a.next m c chan) := by
  cases a with
  | visit i =>
    obtain ⟨hwake, -, hlock⟩ := hs
    have hstate : ∀ s : Slot, (Slot.wakeup chan s).state = .sleeping → s.state = .sleeping ∧
        s.chan ≠ chan := by
      intro s hs
      rw [Slot.wakeup] at hs
      split_ifs at hs with hc
      exact ⟨hs, fun hchan => hc ⟨hs, hchan⟩⟩
    have hold : Sleepers (m.setSlot i (Slot.wakeup chan)) := by
      refine h.setSlot (fun hs => (hstate _ hs).1) (.inl ?_)
      rw [Slot.wakeup]
      split_ifs <;> rfl
    refine ⟨hold.chan, fun c' chan' k lk q hw hlk hproc hk hq => ?_⟩
    have hother := hold.woken c' chan' k lk q
    simp only [WakeupStep.next, Machine.setCpu, update_apply] at hw hproc
    by_cases hc : c' = c
    · subst hc
      simp only [if_true, Option.some.injEq, Prod.mk.injEq] at hw hproc
      obtain ⟨rfl, rfl⟩ := hw
      by_cases hqi : q = i
      · -- The place that is visited: the process is not between the locks.
        subst hqi
        have hq : (m.thread q).call = .sleep .set chan lk ∨ (m.thread q).call = .sleep .sched chan lk ∨
            (m.thread q).call = .sleep .tidy chan lk ∧ (Slot.wakeup chan (m.slot q)).state = .sleeping := by
          simpa [Machine.Asleep] using hq
        have hbefore : m.Asleep q chan lk := by
          have := hstate (m.slot q)
          simp only [Machine.Asleep]
          grind
        obtain ⟨hcall, hsleep⟩ := hi.asleep_state hlock hbefore
        have := h.chan q chan lk (.inr ⟨hcall, hsleep⟩)
        have := hstate (m.slot q)
        grind
      · have hne : (q : ℕ) ≠ i := fun heq => hqi (Fin.ext heq)
        exact hold.woken c' chan i lk q hwake hlk hproc (by omega) hq
    · simp only [if_neg hc] at hw hproc
      exact hother hw hlk hproc hk hq
  | skip i =>
    obtain ⟨hwake, hskip⟩ := hs
    refine ⟨h.chan, fun c' chan' k lk q hw hlk hproc hk hq => ?_⟩
    have := h.woken c' chan' k lk q
    have := h.woken c chan i lk q
    have : (q : ℕ) = i → q = i := Fin.ext
    simp only [WakeupStep.next, Machine.setCpu, update_apply] at hw hproc
    change m.lock lk = some c' at hlk
    change m.Asleep q chan' lk at hq
    grind
  | «return» =>
    rw [WakeupStep.next]
    refine Sleepers.setCpu h fun chan i hw => ?_
    cases hw

theorem Sleepers.kill (h : Sleepers m) {pid : BitVec 32} (a : KillStep) :
    Sleepers (a.next m p pid) := by
  cases a with
  | hit i =>
    have hkill : Sleepers (m.setSlot i Slot.kill) := by
      refine h.setSlot (fun hs => ?_) (.inl rfl)
      simp only [Slot.kill] at hs
      split_ifs at hs with hsleep
      exact absurd hs hsleep
    have := hkill.setThread (p := p) (t := idle) Call.awake_none
    exact ⟨this.chan, this.woken⟩
  | _ => exact h.setThread Call.awake_none

theorem Sleepers.fork (h : Sleepers m) (hi : Inv m) (a : ForkStep) (hs : a.enabled m c p) :
    Sleepers (a.next m c p) := by
  cases a with
  | found i =>
    have := (Sleepers.setSlot (h.setPlock i (some c)) (j := i)
      (u := fun s => { s with pid := m.nextpid, state := .used }) (by rintro ⟨⟩) (.inl rfl)).setThread
      (p := p) (t := Sys.thread (.forkCopy i)) Call.awake_none
    exact ⟨this.chan, this.woken⟩
  | fail np =>
    rw [ForkStep.next]
    have hr : m.Runs c p (Sys.thread (.forkCopy np)) := hs
    have hdead := Thread.eq_of_dead (hi.owner.copying p np hr.making).2.2
    refine Sleepers.setThread (Sleepers.setPlock (Sleepers.setSlot h ?_ (.inr ?_)) _ _)
      Call.awake_none
    · rintro ⟨⟩
    · rw [hdead]
      exact Call.awake_none
  | copy np trapframe pagetable =>
    rw [ForkStep.next]
    refine Sleepers.setThread (Sleepers.setThread (Sleepers.setPlock (Sleepers.setSlot h ?_ ?_) _ _)
      Call.awake_none) Call.awake_none
    · exact fun hs => hs
    · exact .inl rfl
  | parent np =>
    rw [ForkStep.next]
    refine Sleepers.setThread (Sleepers.setSlot h ?_ ?_) Call.awake_none
    · exact fun hs => hs
    · exact .inl rfl
  | run np =>
    rw [ForkStep.next]
    refine Sleepers.setThread (Sleepers.setSlot h ?_ ?_) Call.awake_none
    · rintro ⟨⟩
    · exact .inl rfl
  | _ => exact h.setThread Call.awake_none

theorem Sleepers.exit (h : Sleepers m) {status : ℤ} (a : ExitStep) (hs : a.enabled m c p status) :
    Sleepers (a.next m c p status) := by
  cases a with
  | acquire => exact (h.acquire hs.1.2.2.1 _).setThread Call.awake_none
  | reparent i =>
    rw [ExitStep.next]
    refine Sleepers.setThread (Sleepers.setCpu (Sleepers.setSlot h ?_ ?_) fun chan k hw hk => ?_)
      Call.awake_none
    · exact fun hs => hs
    · exact .inl rfl
    · cases hw
      exact absurd rfl hk
  | other i => exact h.setThread Call.awake_none
  | wakeup =>
    rw [ExitStep.next]
    refine Sleepers.setThread (Sleepers.setCpu h fun chan k hw hk => ?_) Call.awake_none
    cases hw
    exact absurd rfl hk
  | lock => exact (h.setPlock p _).setThread Call.awake_none
  | state =>
    rw [ExitStep.next]
    refine Sleepers.setThread (Sleepers.setSlot h ?_ ?_) Call.awake_none
    · rintro ⟨⟩
    · exact .inl rfl
  | release => exact (h.release _).setThread Call.awake_none
  | sched =>
    rw [ExitStep.next]
    refine Sleepers.setThread (Sleepers.setCpu h ?_) Call.awake_none
    exact fun chan k hw _ => ⟨hw, rfl⟩

theorem Inv.dead_of_zombie (h : Inv m) (hlock : m.plock p = none)
    (hstate : (m.slot p).state = .zombie) : m.thread p = Sys.thread .dead := by
  have hnot := h.owner.not_on (p := p) hlock (by change (m.slot p).state ≠ _; rw [hstate]; decide)
  have hallows := h.owner.allows p
  have hon := h.owner.on p
  have hstate : m.view.state p = .zombie := hstate
  refine Thread.eq_of_dead ?_
  change m.view.phase p = .dead
  cases hphase : m.view.phase p <;> grind

theorem Sleepers.wait (h : Sleepers m) (hi : Inv m) {addr : ℕ} (a : WaitStep)
    (hs : a.enabled m c p addr) : Sleepers (a.next m c p addr) := by
  cases a with
  | acquire => exact (h.acquire hs.1.2.2.1 _).setThread Call.awake_none
  | other havekids i | child havekids i => exact h.setThread Call.awake_none
  | reap havekids i =>
    obtain ⟨-, -, hlock, hstate⟩ := hs
    have hfree : Sleepers (m.setSlot i fun _ => .free) := by
      refine h.setSlot (by rintro ⟨⟩) (.inr ?_)
      rw [hi.dead_of_zombie hlock hstate]
      exact Call.awake_none
    have := (hfree.release .wait).setThread (p := p) (t := idle) Call.awake_none
    exact ⟨this.chan, this.woken⟩
  | sleep => exact h.setThread (by simp [Call.Awake])
  | _ => exact (h.release _).setThread Call.awake_none

theorem Sleepers.switch (h : Sleepers m) (hi : Inv m) {s : Sys} {k : Call} (a : SwitchStep)
    (hs : a.enabled m c p s k) : Sleepers (a.next m c p s k) := by
  -- A thread that yields is not asleep.
  have hawake : ∀ f : Switch, f ≠ .none → m.Runs c p ⟨s, k, f⟩ → k.Awake := by
    intro f hf hr chan lk
    have hcalm := (Thread.interruptible_iff.mp ((hi.wfRuns hr).calm hf)).1
    refine ⟨?_, ?_, ?_⟩ <;>
    · rintro rfl
      simp at hcalm
  cases a with
  | sched =>
    rw [SwitchStep.next]
    refine Sleepers.setThread (Sleepers.setCpu h ?_) (hawake .yield (by simp) hs)
    exact fun chan i hw _ => ⟨hw, rfl⟩
  | yielded => exact (h.setPlock p none).setThread (hawake .yielded (by simp) hs)
  | forkret => exact (h.setPlock p none).setThread (hawake .forkret (by simp) hs)

theorem Sleepers.step (h : Sleepers m) (hi : Inv m) {l : Cpu × Label} (hs : Step m l m') :
    Sleepers m' := by
  obtain ⟨c, l⟩ := l
  obtain ⟨henabled, rfl⟩ := hs
  cases l with
  | scheduler s => exact h.scheduler s henabled
  | irq s => exact h.irq hi s henabled
  | switch p sys k s => exact h.switch hi s henabled
  | code p L s => exact h.code s henabled
  | sleep p sys pc chan lk => exact h.sleep henabled
  | wakeup chan s => exact h.wakeup hi s henabled
  | kill p pid s => exact h.kill s
  | fork p s => exact h.fork hi s henabled
  | exit p status s => exact h.exit s henabled
  | wait p addr s => exact h.wait hi s henabled

theorem boot_sleepers (trapframe pagetable : ℕ) : Sleepers (Machine.boot trapframe pagetable) := by
  have hcall : ∀ p, ((Machine.boot trapframe pagetable).thread p).call = .none := fun p => by
    by_cases hp : p = ⟨0, by decide⟩ <;> simp [Machine.boot, hp]
  refine ⟨fun p chan lk hp => ?_, ?_⟩
  · simp [hcall] at hp
  · rintro c chan i lk p ⟨⟩

theorem Runs.sleepers {trapframe pagetable : ℕ} {ok : Machine → Cpu × Label → Prop}
    (h : Runs trapframe pagetable ok m) : Sleepers m := by
  have hboth : Inv m ∧ Sleepers m := by
    refine h.invariant (P := fun m => Inv m ∧ Sleepers m)
      ⟨boot_inv trapframe pagetable, boot_sleepers trapframe pagetable⟩ ?_
    rintro m l m' ⟨hinv, hsleepers⟩ - hs
    exact ⟨hinv.step hs, hsleepers.step hinv hs⟩
  exact hboth.2

theorem setThread_call {q : Idx} {t : Thread} (hpq : p ≠ q) :
    ((m.setThread q t).thread p).call = (m.thread p).call := by
  simp [hpq]

/-- The only way out of `sleep` is its last step, which takes the lock. -/
theorem Inv.sleep_return (h : Inv m) {l : Cpu × Label} (hs : Step m l m') {pc : SleepPc} {chan : Chan}
    {lk : Lk} (hbefore : (m.thread p).call = .sleep pc chan lk) (hafter : (m'.thread p).call = .none) :
    ∃ c, m'.lock lk = some c ∧ (m'.cpu c).mode = .run p := by
  obtain ⟨c, l⟩ := l
  obtain ⟨he, rfl⟩ := hs
  have hsame : ((Label.next m c l).thread p).call ≠ (m.thread p).call := by
    rw [hafter, hbefore]
    simp
  -- A process that is in no call is not this one.
  have hne : ∀ {q : Idx} {s : Sys}, m.Runs c q (Sys.thread s) → p ≠ q := by
    rintro q s hr rfl
    rw [hr.2.2.2] at hbefore
    cases hbefore
  cases l with
  | scheduler s => exact absurd (by cases s <;> rfl) hsame
  | irq s =>
    cases s with
    | yield q =>
      refine absurd ?_ hsame
      simp only [Label.next, IrqStep.next, Machine.setThread, Machine.setCpu, Machine.setSlot,
        Machine.setPlock, update_apply]
      grind
    | _ => exact absurd rfl hsame
  | switch q sys k a =>
    refine absurd ?_ hsame
    by_cases hpq : p = q
    · subst hpq
      cases a <;>
      · have hr : m.Runs c p _ := he
        simp [hr.2.2.2]
    · cases a <;> exact setThread_call (m := m) hpq
  | code q L a =>
    cases a with
    | wakeup k | setkilled | grow sz pagetable => exact absurd rfl hsame
    | _ => exact absurd (setThread_call (m := m) (hne he.1)) hsame
  | sleep q sys pc' chan' lk' =>
    obtain ⟨hr, -⟩ := he
    by_cases hpq : p = q
    · subst hpq
      rw [hr.2.2.2] at hbefore
      cases hbefore
      cases pc with
      | relock => exact ⟨c, by simp, hr.1⟩
      | _ => simp at hafter
    · refine absurd ?_ hsame
      cases pc' <;> exact setThread_call (m := m) hpq
  | wakeup chan' a => exact absurd (by cases a <;> rfl) hsame
  | kill q pid a =>
    cases a with
    | fail => exact absurd (setThread_call (m := m) (hne he)) hsame
    | _ => exact absurd (setThread_call (m := m) (hne he.1)) hsame
  | fork q a =>
    cases a with
    | copy np trapframe pagetable =>
      have hr : m.Runs c q (Sys.thread (.forkCopy np)) := he.1
      have hdead := Thread.eq_of_dead (h.owner.copying q np hr.making).2.2
      have hnp : p ≠ np := by
        rintro rfl
        rw [hdead] at hbefore
        cases hbefore
      refine absurd ?_ hsame
      exact (setThread_call (m := m.setThread np _) (hne hr)).trans (setThread_call (m := m) hnp)
    | full | fail np => exact absurd (setThread_call (m := m) (hne he)) hsame
    | _ => exact absurd (setThread_call (m := m) (hne he.1)) hsame
  | exit q status a =>
    cases a with
    | wakeup | state | release | sched => exact absurd (setThread_call (m := m) (hne he)) hsame
    | _ => exact absurd (setThread_call (m := m) (hne he.1)) hsame
  | wait q addr a => cases a <;> exact absurd (setThread_call (m := m) (hne he.1)) hsame

/-- While a CPU that holds `lk` executes `wakeup(chan)`, no other process that it has passed has released
`lk` in `sleep(chan, lk)` and is still to be woken up: such a process is neither `SLEEPING` on `chan` nor
about to be. A process returns from `sleep(chan, lk)` on a CPU that holds `lk`. -/
theorem no_lost_wakeup {trapframe pagetable : ℕ} (h : Run trapframe pagetable m) :
    (∀ c chan i lk p, (m.cpu c).wake = some (chan, i) → m.lock lk = some c →
      (m.cpu c).proc ≠ some p → p.val < i →
      ∀ pc, (m.thread p).call = .sleep pc chan lk → pc ≠ .set ∧ pc ≠ .sched ∧
        (pc = .tidy → (m.slot p).state ≠ .sleeping)) ∧
    ∀ l m' p pc chan lk, Step m l m' → (m.thread p).call = .sleep pc chan lk →
      (m'.thread p).call = .none → ∃ c, m'.lock lk = some c ∧ (m'.cpu c).mode = .run p := by
  refine ⟨fun c chan i lk p hw hlk hproc hi pc hcall => ?_, fun l m' p pc chan lk hs hbefore hafter =>
    (Runs.inv h).sleep_return hs hbefore hafter⟩
  have hnot := (Runs.sleepers h).woken c chan i lk p hw hlk hproc hi
  refine ⟨?_, ?_, ?_⟩
  · rintro rfl
    exact hnot (.inl hcall)
  · rintro rfl
    exact hnot (.inr (.inl hcall))
  · rintro rfl hstate
    exact hnot (.inr (.inr ⟨hcall, hstate⟩))

/-- CPU 1 runs the second process, which goes to sleep; the first one wakes it up. -/
def sleepRun : List (Cpu × Label) :=
  forkRun ++
  [(1, .scheduler (.skip proc0)), (1, .scheduler (.pick proc1)),
    (1, .switch proc1 (.code ∅) .none .forkret), (1, .code proc1 ∅ (.acquire 5)),
    (1, .code proc1 {5} (.sleep 5 7)), (1, .sleep proc1 (.code {5}) .lock (.other 7) (.other 5)),
    (1, .sleep proc1 (.code {5}) .unlock (.other 7) (.other 5)),
    (0, .code proc0 ∅ (.acquire 5)), (0, .code proc0 {5} (.wakeup 7)),
    (1, .sleep proc1 (.code {5}) .set (.other 7) (.other 5)),
    (1, .sleep proc1 (.code {5}) .sched (.other 7) (.other 5)),
    (0, .wakeup (.other 7) (.skip proc0)), (1, .scheduler (.back proc1)),
    (0, .wakeup (.other 7) (.visit proc1))]

/-- The second process has been woken up when the first one has passed it. -/
theorem no_lost_wakeup_sleepRun : ∃ m, Run 1 1 m ∧
    (m.thread proc1).call = .sleep .tidy (.other 7) (.other 5) ∧
      (m.slot proc1).state ≠ .sleeping := by
  have hrun : (Lib.execute next (fun _ _ => true) (Machine.boot 1 1) sleepRun).map
      (fun m => ((m.thread proc1).call, (m.cpu 0).wake, m.lock (.other 5), (m.cpu 0).proc)) =
      some (.sleep .tidy (.other 7) (.other 5), some (.other 7, 2), some 0, some proc0) := by
    decide +kernel
  obtain ⟨m, hm, heq⟩ := Option.map_eq_some_iff.mp hrun
  simp only [Prod.mk.injEq] at heq
  obtain ⟨hcall, hwake, hlock, hproc⟩ := heq
  have hne : (m.cpu 0).proc ≠ some proc1 := by
    rw [hproc]
    decide
  have := (no_lost_wakeup (Run.execute hm)).1 0 _ 2 _ proc1 hwake hlock hne (by decide) _ hcall
  exact ⟨m, Run.execute hm, hcall, this.2.2 rfl⟩

end

end Xv6.Sched
