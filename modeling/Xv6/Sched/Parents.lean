import Xv6.Sched.Sleep

/-!
# Parents and children

`reparent` gives the children of an exiting process to the first one before its state becomes `ZOMBIE`,
so that every process has a parent that is alive. A process that has exited is freed once, by its
parent, with the status that it gave.
-/

namespace Xv6.Sched

open Function (update update_apply update_self update_of_ne update_eq_self)

/-- What a thread does with parents: `fork` has set one, or `exit` has dealt with the children in the
first `n` places. -/
inductive Role
  | plain
  | forked (np : Idx)
  | exiting (n : ℕ)
  deriving DecidableEq

/-- What a system call does to the children of its process. -/
def Sys.role : Sys → Role
  | .forkRun np => .forked np
  | .exit _ => .exiting 0
  | .reparent _ i => .exiting i
  | .exitLock _ | .exitState _ | .exitRelease | .exitSched | .dead => .exiting NPROC
  | _ => .plain

/-- Parents are in use and have not exited; the first process has none. -/
structure Parents (m : Machine) : Prop where
  live : ∀ j q, (m.slot j).parent = some q → (m.slot q).state ≠ .unused ∧
    ∀ n, (m.thread q).sys.role = .exiting n → n ≤ j.val
  exists_parent : ∀ j, (m.slot j).state ≠ .unused → (m.slot j).state ≠ .used → j ≠ m.initproc →
    (m.slot j).parent ≠ none
  forked : ∀ p np, (m.thread p).sys.role = .forked np → (m.slot np).parent ≠ none
  init : (∀ n, (m.thread m.initproc).sys.role ≠ .exiting n) ∧ (m.slot m.initproc).parent = none ∧
    (m.slot m.initproc).state ≠ .used
  self : ∀ j, (m.slot j).parent ≠ some j

/-- The arguments of `exit` that are still to be stored. -/
def Sys.status : Sys → Option ℤ
  | .exit s | .reparent s _ | .exitLock s | .exitState s => some s
  | _ => none

/-- The uses of places have numbers; what is recorded of them is right. -/
structure Records (m : Machine) : Prop where
  use_lt : ∀ j, m.use j < m.uses
  use_inj : ∀ i j, (m.slot i).state ≠ .unused → (m.slot j).state ≠ .unused → m.use i = m.use j → i = j
  status : ∀ p s, (m.thread p).sys.status = some s → m.exits (m.use p) = some s
  zombie : ∀ j, (m.slot j).state = .zombie → m.exits (m.use j) = some (m.slot j).xstate
  reaped : ∀ r ∈ m.reaped, r.parent = some r.caller ∧ m.exits r.child = some r.status ∧
    r.child < m.uses ∧ ∀ j, (m.slot j).state ≠ .unused → m.use j ≠ r.child
  once : (m.reaped.map Reap.child).Nodup

section

variable {m m' : Machine} {c : Cpu} {p : Idx}

theorem Parents.keep (h : Parents m) (hinit : m'.initproc = m.initproc)
    (hparent : ∀ q, (m'.slot q).parent = (m.slot q).parent)
    (hunused : ∀ q, (m'.slot q).state = .unused ↔ (m.slot q).state = .unused)
    (hused : ∀ q, (m'.slot q).state = .used ↔ (m.slot q).state = .used)
    (hrole : ∀ q, (m'.thread q).sys.role = (m.thread q).sys.role) : Parents m' := by
  refine ⟨fun j q => ?_, fun j => ?_, fun p np => ?_, ?_, fun j => ?_⟩
  · have := h.live j q
    grind
  · have := h.exists_parent j
    grind
  · have := h.forked p np
    grind
  · have := h.init
    grind
  · have := h.self j
    grind

theorem Parents.setSlot (h : Parents m) {j : Idx} {u : Slot → Slot}
    (hparent : (u (m.slot j)).parent = (m.slot j).parent)
    (hunused : (u (m.slot j)).state = .unused ↔ (m.slot j).state = .unused)
    (hused : (u (m.slot j)).state = .used ↔ (m.slot j).state = .used) : Parents (m.setSlot j u) := by
  refine h.keep rfl (fun q => ?_) (fun q => ?_) (fun q => ?_) fun _ => rfl
  all_goals
    simp only [Machine.setSlot, update_apply]
    grind

theorem Parents.congr (h : Parents m) (hslot : m'.slot = m.slot) (hthread : m'.thread = m.thread)
    (hinit : m'.initproc = m.initproc) : Parents m' :=
  h.keep hinit (fun _ => by rw [hslot]) (fun _ => by rw [hslot]) (fun _ => by rw [hslot])
    fun _ => by rw [hthread]

theorem Parents.goOn {t : Thread} (h : Parents m) (hslot : m'.slot = m.slot)
    (hthread : m'.thread = update m.thread p t) (hinit : m'.initproc = m.initproc)
    (ht : t.sys.role = (m.thread p).sys.role) : Parents m' := by
  refine h.keep hinit (fun _ => by rw [hslot]) (fun _ => by rw [hslot]) (fun _ => by rw [hslot])
    fun q => ?_
  rw [hthread]
  by_cases hq : q = p
  · rw [hq, update_self, ht]
  · rw [update_of_ne hq]

theorem Parents.setRole {t : Thread} (h : Parents m) (hslot : m'.slot = m.slot)
    (hthread : m'.thread = update m.thread p t) (hinit : m'.initproc = m.initproc)
    (hlive : ∀ n, t.sys.role = .exiting n → ∀ j, (m.slot j).parent = some p → n ≤ j.val)
    (hforked : ∀ np, t.sys.role = .forked np → (m.slot np).parent ≠ none)
    (hfirst : p = m.initproc → ∀ n, t.sys.role ≠ .exiting n) : Parents m' := by
  have hset : Parents (m.setThread p t) := by
    refine ⟨fun j q => ?_, h.exists_parent, fun q np => ?_, ⟨fun n => ?_, h.init.2⟩, h.self⟩
    · have := h.live j q
      simp only [Machine.setThread, update_apply]
      grind
    · have := h.forked q np
      simp only [Machine.setThread, update_apply]
      grind
    · have := h.init.1 n
      simp only [Machine.setThread, update_apply]
      grind
  exact hset.congr hslot hthread hinit

theorem Parents.plain {t : Thread} (h : Parents m) (hslot : m'.slot = m.slot)
    (hthread : m'.thread = update m.thread p t) (hinit : m'.initproc = m.initproc)
    (ht : t.sys.role = .plain) : Parents m' := by
  refine h.setRole hslot hthread hinit ?_ ?_ ?_
  all_goals simp [ht]

theorem Parents.replace (h : Parents m) {j : Idx} {u : Slot → Slot}
    (hlive : ∀ q, (u (m.slot j)).parent = some q → q ≠ j ∧ (m.slot q).state ≠ .unused ∧
      ∀ n, (m.thread q).sys.role = .exiting n → n ≤ j.val)
    (hunused : (u (m.slot j)).state = .unused → ∀ i, (m.slot i).parent ≠ some j)
    (hexists : (u (m.slot j)).state ≠ .unused → (u (m.slot j)).state ≠ .used → j ≠ m.initproc →
      (u (m.slot j)).parent ≠ none)
    (hforked : ∀ p, (m.thread p).sys.role = .forked j → (u (m.slot j)).parent ≠ none)
    (hinit : j = m.initproc → (u (m.slot j)).parent = none ∧ (u (m.slot j)).state ≠ .used) :
    Parents (m.setSlot j u) := by
  refine ⟨fun i q => ?_, fun i => ?_, fun p np => ?_, ⟨h.init.1, ?_⟩, fun i => ?_⟩
  · have := h.live i q
    simp only [Machine.setSlot, update_apply]
    grind
  · have := h.exists_parent i
    simp only [Machine.setSlot, update_apply]
    grind
  · have := h.forked p np
    simp only [Machine.setSlot, update_apply]
    grind
  · have := h.init.2
    simp only [Machine.setSlot, update_apply]
    grind
  · have := h.self i
    simp only [Machine.setSlot, update_apply]
    grind

theorem Parents.init_in_use (h : Parents m) (hi : Inv m) : (m.slot m.initproc).state ≠ .unused := by
  intro hun
  have hdead := Thread.eq_of_dead (hi.owner.unused (p := m.initproc) hun)
  refine h.init.1 NPROC ?_
  rw [hdead]
  rfl

theorem Parents.ne_dead (h : Parents m) {j : Idx} (hj : m.thread j = Sys.thread .dead) (i : Idx) :
    (m.slot i).parent ≠ some j := by
  intro hi
  have := (h.live i j hi).2 NPROC (by rw [hj]; rfl)
  omega

theorem Parents.new_ne_init (h : Parents m) {np : Idx} (hused : (m.slot np).state = .used) :
    np ≠ m.initproc := by
  rintro rfl
  exact h.init.2.2 hused

theorem Parents.fork (h : Parents m) (hi : Inv m) (a : ForkStep) (hs : a.enabled m c p) :
    Parents (a.next m c p) := by
  cases a with
  | found i =>
    obtain ⟨hr, -, hunused⟩ := hs
    have hslot : Parents (m.setSlot i fun s => { s with pid := m.nextpid, state := .used }) := by
      refine h.replace (fun q hq => ⟨?_, h.live i q hq⟩) (by rintro ⟨⟩) (fun _ hu => absurd rfl hu)
        (fun p hp => h.forked p i hp) ?_
      · rintro rfl
        exact h.self q hq
      · rintro rfl
        exact absurd hunused (h.init_in_use hi)
    exact hslot.plain rfl rfl rfl rfl
  | fail np =>
    have hr : m.Runs c p (Sys.thread (.forkCopy np)) := hs
    obtain ⟨-, hused, hdead⟩ := hi.owner.copying p np hr.making
    have hslot : Parents (m.setSlot np fun _ => .free) := by
      refine h.replace (by rintro q ⟨⟩) (fun _ => h.ne_dead (Thread.eq_of_dead hdead))
        (fun hun => absurd rfl hun) (fun q hq => ?_) fun hinit => absurd hinit (h.new_ne_init hused)
      -- Nobody else makes this process.
      have hpending : m.view.making q = .pending np := by
        change (m.thread q).sys.making = _
        revert hq
        cases (m.thread q).sys <;> simp [Sys.role, Sys.making]
      have hqp := hi.owner.maker q p np (.inr hpending) (.inl hr.making)
      subst hqp
      rw [hr.making] at hpending
      cases hpending
    exact hslot.plain rfl rfl rfl rfl
  | copy np trapframe pagetable =>
    have hslot : Parents (m.setSlot np fun s => { s with
        trapframe := trapframe, pagetable := pagetable, sz := (m.slot p).sz }) :=
      h.setSlot rfl Iff.rfl Iff.rfl
    have hnew : Parents ((m.setSlot np _).setThread np ⟨.code ∅, .none, .forkret⟩) :=
      hslot.plain rfl rfl rfl rfl
    exact hnew.plain rfl rfl rfl rfl
  | parent np =>
    obtain ⟨hr, -⟩ := hs
    have hused := (hi.owner.pending p np hr.making).1
    have hused : (m.slot np).state = .used := hused
    have hrunning : (m.slot p).state = .running := by
      have hphase : m.view.phase p = .active := hr.phase
      exact (hi.owner.allows p).1 (.inl hphase)
    have hslot : Parents (m.setSlot np fun s => { s with parent := some p }) := by
      refine h.replace ?_ (fun hun => ?_) (fun _ _ _ => by simp) (fun _ _ => by simp)
        fun hinit => absurd hinit (h.new_ne_init hused)
      · rintro q ⟨⟩
        refine ⟨?_, by rw [hrunning]; decide, fun n hn => ?_⟩
        · rintro rfl
          rw [hrunning] at hused
          cases hused
        · rw [hr.2.2.2] at hn
          cases hn
      · exact absurd (hused.symm.trans hun) (by decide)
    refine hslot.setRole rfl rfl rfl (by rintro n ⟨⟩) ?_ (by rintro - n ⟨⟩)
    rintro q ⟨⟩
    simp
  | run np =>
    obtain ⟨hr, -⟩ := hs
    have hused : (m.slot np).state = .used := (hi.owner.pending p np hr.making).1
    have hparent : (m.slot np).parent ≠ none := h.forked p np (by rw [hr.2.2.2]; rfl)
    have hslot : Parents (m.setSlot np fun s => { s with state := .runnable }) := by
      refine h.replace (fun q hq => ⟨?_, h.live np q hq⟩) (by rintro ⟨⟩) (fun _ _ _ => hparent)
        (fun _ _ => hparent) fun hinit => absurd hinit (h.new_ne_init hused)
      rintro rfl
      exact h.self q hq
    exact hslot.plain rfl rfl rfl rfl
  | _ => exact h.plain rfl rfl rfl rfl

theorem Parents.exit (h : Parents m) (hi : Inv m) {status : ℤ} (a : ExitStep)
    (hs : a.enabled m c p status) : Parents (a.next m c p status) := by
  have hrole : ∀ {s s' : Sys}, m.Runs c p (Sys.thread s) → s'.role = s.role →
      s'.role = (m.thread p).sys.role := by
    intro s s' hr hs
    rw [hr.2.2.2, hs]
  cases a with
  | reparent i =>
    obtain ⟨hr, hparent⟩ := hs
    have hne : i ≠ m.initproc := by
      rintro rfl
      rw [h.init.2.1] at hparent
      cases hparent
    have hp : p ≠ m.initproc := by
      rintro rfl
      refine h.init.1 i ?_
      rw [hr.2.2.2]
      rfl
    have hslot : Parents (m.setSlot i fun s => { s with parent := some m.initproc }) := by
      refine h.replace ?_ (fun hun => ?_) (fun _ _ _ => by simp) (fun _ _ => by simp)
        fun hinit => absurd hinit hne
      · rintro q ⟨⟩
        exact ⟨hne.symm, h.init_in_use hi, fun n hn => absurd hn (h.init.1 n)⟩
      · exact fun k hk => (h.live k i hk).1 hun
    refine hslot.setRole (p := p) rfl rfl rfl ?_ (by rintro np ⟨⟩) fun heq => absurd heq hp
    rintro n ⟨⟩ k hk
    by_cases hki : k = i
    · subst hki
      simp at hk
      exact absurd hk.symm hp
    · simp only [Machine.setSlot, update_of_ne hki] at hk
      have := (h.live k p hk).2 i (by rw [hr.2.2.2]; rfl)
      have hne : (k : ℕ) ≠ i := fun heq => hki (Fin.ext heq)
      omega
  | other i =>
    obtain ⟨hr, hparent⟩ := hs
    refine h.setRole (p := p) rfl rfl rfl ?_ (by rintro np ⟨⟩) fun heq => ?_
    · rintro n ⟨⟩ k hk
      have := (h.live k p hk).2 i (by rw [hr.2.2.2]; rfl)
      have hne : (k : ℕ) ≠ i := by
        intro heq
        obtain rfl : k = i := Fin.ext heq
        exact hparent hk
      omega
    · subst heq
      refine absurd ?_ (h.init.1 i)
      rw [hr.2.2.2]
      rfl
  | wakeup =>
    have hr : m.Runs c p (Sys.thread (.reparent status NPROC)) := hs
    exact h.goOn rfl rfl rfl (hrole hr rfl)
  | state =>
    have hr : m.Runs c p (Sys.thread (.exitState status)) := hs
    have hphase : m.view.phase p = .locked := hr.phase
    have hrunning : (m.slot p).state = .running := (hi.owner.allows p).1 (.inr hphase)
    have hslot : Parents (m.setSlot p fun s => { s with xstate := status, state := .zombie }) :=
      h.setSlot rfl (by simp [hrunning]) (by simp [hrunning])
    exact hslot.goOn rfl rfl rfl (hrole hr rfl)
  | release =>
    have hr : m.Runs c p (Sys.thread .exitRelease) := hs
    exact h.goOn rfl rfl rfl (hrole hr rfl)
  | sched =>
    have hr : m.Runs c p (Sys.thread .exitSched) := hs
    exact h.goOn rfl rfl rfl (hrole hr rfl)
  | _ => exact h.goOn rfl rfl rfl (hrole hs.1 rfl)

theorem Parents.wait (h : Parents m) (hi : Inv m) {addr : ℕ} (a : WaitStep)
    (hs : a.enabled m c p addr) : Parents (a.next m c p addr) := by
  cases a with
  | reap havekids i =>
    obtain ⟨hr, hparent, hlock, hstate⟩ := hs
    have hne : i ≠ m.initproc := by
      rintro rfl
      rw [h.init.2.1] at hparent
      cases hparent
    have hslot : Parents (m.setSlot i fun _ => .free) := by
      refine h.replace (by rintro q ⟨⟩) (fun _ => h.ne_dead (hi.dead_of_zombie hlock hstate))
        (fun hun => absurd rfl hun) (fun q hq => ?_) fun hinit => absurd hinit hne
      -- The new process of a `fork` has not exited.
      have hpending : m.view.making q = .pending i := by
        change (m.thread q).sys.making = _
        revert hq
        cases (m.thread q).sys <;> simp [Sys.role, Sys.making]
      have hused : (m.slot i).state = .used := (hi.owner.pending q i hpending).1
      rw [hstate] at hused
      cases hused
    exact hslot.plain rfl rfl rfl rfl
  | _ => exact h.plain rfl rfl rfl rfl

theorem Inv.on_cpu_state (h : Inv m) (hmode : (m.cpu c).mode = .run p) :
    (m.slot p).state ≠ .unused ∧ (m.slot p).state ≠ .used := by
  have hon : (m.thread p).phase.OnCpu (m.slot p).state := h.owner.run c p hmode
  have hallows : (m.thread p).phase.Allows (m.slot p).state := h.owner.allows p
  grind

theorem Parents.code (h : Parents m) {L : Finset ℕ} (a : CodeStep) (hs : a.enabled m c p L) :
    Parents (a.next m c p L) := by
  cases a with
  | wakeup k => exact h.congr rfl rfl rfl
  | setkilled | grow sz pagetable =>
    rw [CodeStep.next]
    exact Parents.setSlot h (by rfl) Iff.rfl Iff.rfl
  | exit status =>
    refine h.setRole rfl rfl rfl ?_ (by rintro np ⟨⟩) fun heq => absurd heq hs.2.2
    rintro n ⟨⟩ j -
    exact Nat.zero_le _
  | _ => exact h.plain rfl rfl rfl rfl

theorem Parents.sleep (h : Parents m) (hi : Inv m) {s : Sys} {pc : SleepPc} {chan : Chan} {lk : Lk}
    (hs : sleepEnabled m c p s pc chan lk) : Parents (sleepNext m c p s pc chan lk) := by
  obtain ⟨hr, -⟩ := hs
  have hrole : s.role = (m.thread p).sys.role := by rw [hr.2.2.2]
  cases pc with
  | set =>
    obtain ⟨hunused, hused⟩ := hi.on_cpu_state hr.1
    have hslot : Parents (m.setSlot p fun x => { x with chan := chan, state := .sleeping }) :=
      h.setSlot rfl (by simp [hunused]) (by simp [hused])
    exact hslot.goOn rfl rfl rfl hrole
  | tidy =>
    have hslot : Parents (m.setSlot p fun x => { x with chan := .null }) :=
      h.setSlot rfl Iff.rfl Iff.rfl
    exact hslot.goOn rfl rfl rfl hrole
  | _ => exact h.goOn rfl rfl rfl hrole

theorem Parents.step (h : Parents m) (hi : Inv m) {l : Cpu × Label} (hs : Step m l m') :
    Parents m' := by
  obtain ⟨c, l⟩ := l
  obtain ⟨henabled, rfl⟩ := hs
  cases l with
  | scheduler s =>
    cases s with
    | pick p =>
      have hrun : (m.slot p).state = .runnable := henabled.2.2
      have hslot : Parents (m.setSlot p fun s => { s with state := .running }) :=
        h.setSlot rfl (by simp [hrun]) (by simp [hrun])
      exact hslot.congr rfl rfl rfl
    | _ => exact h.congr rfl rfl rfl
  | irq s =>
    cases s with
    | yield p =>
      obtain ⟨hunused, hused⟩ := hi.on_cpu_state henabled.2.2.1
      have hslot : Parents (m.setSlot p fun s => { s with state := .runnable }) :=
        h.setSlot rfl (by simp [hunused]) (by simp [hused])
      exact hslot.goOn rfl rfl rfl rfl
    | _ => exact h.congr rfl rfl rfl
  | switch p sys k a =>
    cases a with
    | sched =>
      have hr : m.Runs c p ⟨sys, k, .yield⟩ := henabled
      exact h.goOn rfl rfl rfl (by rw [hr.2.2.2])
    | yielded =>
      have hr : m.Runs c p ⟨sys, k, .yielded⟩ := henabled
      exact h.goOn rfl rfl rfl (by rw [hr.2.2.2])
    | forkret =>
      have hr : m.Runs c p ⟨sys, k, .forkret⟩ := henabled
      exact h.goOn rfl rfl rfl (by rw [hr.2.2.2])
  | code p L s => exact h.code s henabled
  | sleep p sys pc chan lk => exact h.sleep hi henabled
  | wakeup chan s =>
    cases s with
    | visit i =>
      have hslot : Parents (m.setSlot i (Slot.wakeup chan)) := by
        refine h.setSlot ?_ ?_ ?_ <;>
        · rw [Slot.wakeup]
          split_ifs with hsleep
          · simp [hsleep.1]
          · simp
      exact hslot.congr rfl rfl rfl
    | _ => exact h.congr rfl rfl rfl
  | kill p pid s =>
    cases s with
    | hit i =>
      have hslot : Parents (m.setSlot i Slot.kill) := by
        refine h.setSlot rfl ?_ ?_ <;>
        · rw [Slot.kill]
          dsimp only
          split_ifs with hsleep
          · simp [hsleep]
          · simp
      exact hslot.plain rfl rfl rfl rfl
    | _ => exact h.plain rfl rfl rfl rfl
  | fork p s => exact h.fork hi s henabled
  | exit p status s => exact h.exit hi s henabled
  | wait p addr s => exact h.wait hi s henabled

theorem boot_parents (trapframe pagetable : ℕ) : Parents (Machine.boot trapframe pagetable) := by
  have hparent : ∀ p, ((Machine.boot trapframe pagetable).slot p).parent = none := fun p => by
    by_cases hp : p = ⟨0, by decide⟩ <;> simp [Machine.boot, hp, Slot.free]
  refine ⟨fun j q hj => ?_, fun j h1 h2 h3 => ?_, fun p np hp => ?_, ⟨fun n => ?_, hparent _, ?_⟩,
    fun j => ?_⟩
  · rw [hparent] at hj
    cases hj
  · have hj : j ≠ ⟨0, by decide⟩ := h3
    simp [Machine.boot, hj, Slot.free] at h1
  · by_cases hp0 : p = ⟨0, by decide⟩ <;> simp [Machine.boot, hp0, Sys.role] at hp
  · simp [Machine.boot, Sys.role]
  · simp [Machine.boot]
  · rw [hparent]
    simp

/-! ## Records -/

theorem Records.keep (h : Records m) (huse : m'.use = m.use) (huses : m'.uses = m.uses)
    (hexits : m'.exits = m.exits) (hreaped : m'.reaped = m.reaped)
    (hunused : ∀ q, (m.slot q).state = .unused → (m'.slot q).state = .unused)
    (hzombie : ∀ q, (m'.slot q).state = .zombie →
      (m.slot q).state = .zombie ∧ (m'.slot q).xstate = (m.slot q).xstate)
    (hstatus : ∀ q s, (m'.thread q).sys.status = some s → (m.thread q).sys.status = some s) :
    Records m' := by
  refine ⟨fun j => ?_, fun i j => ?_, fun p s => ?_, fun j => ?_, fun r => ?_, hreaped ▸ h.once⟩
  · have := h.use_lt j
    grind
  · have := h.use_inj i j
    grind
  · have := h.status p s
    grind
  · have := h.zombie j
    grind
  · have := h.reaped r
    grind

theorem Records.setSlot (h : Records m) {j : Idx} {u : Slot → Slot}
    (hunused : (m.slot j).state = .unused → (u (m.slot j)).state = .unused)
    (hzombie : (u (m.slot j)).state = .zombie →
      (m.slot j).state = .zombie ∧ (u (m.slot j)).xstate = (m.slot j).xstate) :
    Records (m.setSlot j u) := by
  refine h.keep rfl rfl rfl rfl (fun q => ?_) (fun q => ?_) fun _ _ => id
  all_goals
    simp only [Machine.setSlot, update_apply]
    grind

/-- What is recorded of the uses of places. -/
def Machine.records (m : Machine) := (m.use, m.uses, m.exits, m.reaped)

theorem Records.goOn {t : Thread} (h : Records m) (hslot : m'.slot = m.slot)
    (hthread : m'.thread = update m.thread p t) (hrecords : m'.records = m.records)
    (ht : ∀ s, t.sys.status = some s → (m.thread p).sys.status = some s) : Records m' := by
  simp only [Machine.records, Prod.mk.injEq] at hrecords
  obtain ⟨huse, huses, hexits, hreaped⟩ := hrecords
  refine h.keep huse huses hexits hreaped (fun _ hq => by rwa [hslot]) (fun _ hq => ?_) fun q s hq => ?_
  · rw [hslot] at hq ⊢
    exact ⟨hq, rfl⟩
  · have := ht s
    rw [hthread, update_apply] at hq
    grind

theorem Records.congr (h : Records m) (hslot : m'.slot = m.slot) (hthread : m'.thread = m.thread)
    (hrecords : m'.records = m.records) : Records m' :=
  h.goOn (p := m.initproc) hslot (by rw [hthread, update_eq_self]) hrecords fun _ => id

theorem Records.exitCall (h : Records m) {status : ℤ} (hp : (m.slot p).state ≠ .unused)
    (hz : (m.slot p).state ≠ .zombie) (hdead : ∀ q, (m.slot q).state = .unused →
      (m.thread q).sys.status = none) :
    Records ({ m with exits := update m.exits (m.use p) (some status) }.setThread p
      (Sys.thread (.exit status))) := by
  have hother : ∀ q, (m.slot q).state ≠ .unused → q ≠ p → m.use q ≠ m.use p := fun q hq hne heq =>
    hne (h.use_inj q p hq hp heq)
  refine ⟨h.use_lt, h.use_inj, fun q s => ?_, fun j => ?_, fun r hr => ?_, h.once⟩
  · have := h.status q s
    have := hother q
    have := hdead q
    simp only [Machine.setThread, update_apply]
    grind [Sys.status]
  · have := h.zombie j
    have := hother j
    simp only [Machine.setThread, update_apply]
    grind
  · have := h.reaped r hr
    simp only [Machine.setThread, update_apply]
    grind

theorem Records.exitState (h : Records m) {status : ℤ}
    (hp : (m.thread p).sys.status = some status) (hun : (m.slot p).state ≠ .unused) :
    Records ((m.setSlot p fun s => { s with xstate := status, state := .zombie }).setThread p
      (Sys.thread .exitRelease)) := by
  have hslot : Records (m.setSlot p fun s => { s with xstate := status, state := .zombie }) := by
    refine ⟨h.use_lt, fun i j => ?_, h.status, fun j => ?_, fun r hr => ?_, h.once⟩
    · have := h.use_inj i j
      simp only [Machine.setSlot, update_apply]
      grind
    · have := h.zombie j
      have := h.status p status hp
      simp only [Machine.setSlot, update_apply]
      grind
    · have := h.reaped r hr
      simp only [Machine.setSlot, update_apply]
      grind
  exact hslot.goOn rfl rfl rfl (by rintro s ⟨⟩)

theorem Inv.status_unused (h : Inv m) (q : Idx) (hq : (m.slot q).state = .unused) :
    (m.thread q).sys.status = none := by
  rw [Thread.eq_of_dead (h.owner.unused (p := q) hq)]
  rfl

theorem Records.fork (h : Records m) (hi : Inv m) (a : ForkStep) (hs : a.enabled m c p) :
    Records (a.next m c p) := by
  cases a with
  | found i =>
    obtain ⟨hr, -, hunused⟩ := hs
    have hnone := hi.status_unused i hunused
    refine ⟨fun j => ?_, fun j k => ?_, fun q s => ?_, fun j => ?_, fun r hr => ?_, h.once⟩
    · have := h.use_lt j
      simp only [ForkStep.next, Machine.setSlot, Machine.setThread, Machine.setPlock, update_apply]
      grind
    · have := h.use_inj j k
      have := h.use_lt j
      have := h.use_lt k
      simp only [ForkStep.next, Machine.setSlot, Machine.setThread, Machine.setPlock, update_apply]
      grind
    · have := h.status q s
      simp only [ForkStep.next, Machine.setSlot, Machine.setThread, Machine.setPlock, update_apply]
      grind [Sys.status]
    · have := h.zombie j
      simp only [ForkStep.next, Machine.setSlot, Machine.setThread, Machine.setPlock, update_apply]
      grind
    · have := h.reaped r hr
      simp only [ForkStep.next, Machine.setSlot, Machine.setThread, Machine.setPlock, update_apply]
      grind
  | fail np =>
    have hr : m.Runs c p (Sys.thread (.forkCopy np)) := hs
    have hslot : Records (m.setSlot np fun _ => .free) := h.setSlot (fun _ => rfl) (by rintro ⟨⟩)
    exact hslot.goOn rfl rfl rfl (by rintro s ⟨⟩)
  | copy np trapframe pagetable =>
    have hslot : Records (m.setSlot np fun s => { s with
        trapframe := trapframe, pagetable := pagetable, sz := (m.slot p).sz }) :=
      h.setSlot id fun hz => ⟨hz, rfl⟩
    have hnew : Records ((m.setSlot np _).setThread np ⟨.code ∅, .none, .forkret⟩) :=
      hslot.goOn rfl rfl rfl (by rintro s ⟨⟩)
    exact hnew.goOn rfl rfl rfl (by rintro s ⟨⟩)
  | parent np =>
    have hslot : Records (m.setSlot np fun s => { s with parent := some p }) :=
      h.setSlot id fun hz => ⟨hz, rfl⟩
    exact hslot.goOn rfl rfl rfl (by rintro s ⟨⟩)
  | run np =>
    obtain ⟨hr, -⟩ := hs
    have hused : (m.slot np).state = .used := (hi.owner.pending p np hr.making).1
    have hslot : Records (m.setSlot np fun s => { s with state := .runnable }) :=
      h.setSlot (fun hun => absurd (hused.symm.trans hun) (by decide)) (by rintro ⟨⟩)
    exact hslot.goOn rfl rfl rfl (by rintro s ⟨⟩)
  | _ => exact h.goOn rfl rfl rfl (by rintro s ⟨⟩)

theorem Records.reap (h : Records m) {i : Idx} (hstate : (m.slot i).state = .zombie)
    (hparent : (m.slot i).parent = some p) :
    Records { ((m.setSlot i fun _ => .free).setLock .wait none).setThread p idle with
      reaped := ⟨m.use i, (m.slot i).parent, p, (m.slot i).xstate⟩ :: m.reaped } := by
  have hused : (m.slot i).state ≠ .unused := by
    rw [hstate]
    decide
  have hfree : Records (m.setSlot i fun _ => .free) := h.setSlot (fun _ => rfl) (by rintro ⟨⟩)
  have hthread : Records ((m.setSlot i _).setThread p idle) :=
    hfree.goOn rfl rfl rfl (by rintro s ⟨⟩)
  refine ⟨hthread.use_lt, hthread.use_inj, hthread.status, hthread.zombie, fun r hr => ?_, ?_⟩
  · rcases List.mem_cons.mp hr with rfl | hr
    · refine ⟨hparent, h.zombie i hstate, h.use_lt i, fun j hj heq => ?_⟩
      -- No other place in use has this number.
      by_cases hji : j = i
      · subst hji
        simp [Slot.free] at hj
      · simp only [Machine.setThread, Machine.setLock, Machine.setSlot,
          update_of_ne hji] at hj
        exact hji (h.use_inj j i hj hused heq)
    · exact hthread.reaped r hr
  · refine List.nodup_cons.mpr ⟨fun hmem => ?_, h.once⟩
    obtain ⟨r, hr, heq⟩ := List.mem_map.mp hmem
    exact (h.reaped r hr).2.2.2 i hused heq.symm

theorem Records.step (h : Records m) (hi : Inv m) {l : Cpu × Label} (hs : Step m l m') :
    Records m' := by
  obtain ⟨c, l⟩ := l
  obtain ⟨henabled, rfl⟩ := hs
  cases l with
  | scheduler s =>
    cases s with
    | pick p =>
      have hrun : (m.slot p).state = .runnable := henabled.2.2
      have hslot : Records (m.setSlot p fun s => { s with state := .running }) :=
        h.setSlot (by simp [hrun]) (by rintro ⟨⟩)
      exact hslot.congr rfl rfl rfl
    | _ => exact h.congr rfl rfl rfl
  | irq s =>
    cases s with
    | yield p =>
      obtain ⟨hunused, -⟩ := hi.on_cpu_state henabled.2.2.1
      have hslot : Records (m.setSlot p fun s => { s with state := .runnable }) :=
        h.setSlot (fun hun => absurd hun hunused) (by rintro ⟨⟩)
      exact hslot.goOn rfl rfl rfl fun _ hs => hs
    | _ => exact h.congr rfl rfl rfl
  | switch p sys k a =>
    obtain ⟨x, hr⟩ : ∃ x, m.Runs c p ⟨sys, k, x⟩ := by cases a <;> exact ⟨_, henabled⟩
    cases a <;> exact h.goOn rfl rfl rfl fun s hs => by rwa [hr.2.2.2]
  | code p L a =>
    cases a with
    | exit status =>
      have hr : m.Runs c p (Sys.thread (.code L)) := henabled.1
      have hphase : m.view.phase p = .active := hr.phase
      have hrunning : (m.slot p).state = .running := (hi.owner.allows p).1 (.inl hphase)
      exact h.exitCall (by rw [hrunning]; decide) (by rw [hrunning]; decide) hi.status_unused
    | wakeup k => exact h.congr rfl rfl rfl
    | setkilled =>
      have := h.setSlot (j := p) (u := fun s => { s with killed := true }) id fun hz => ⟨hz, rfl⟩
      exact this
    | grow sz pagetable =>
      have := h.setSlot (j := p) (u := fun s => { s with sz := sz, pagetable := pagetable }) id
        fun hz => ⟨hz, rfl⟩
      exact this
    | _ => exact h.goOn rfl rfl rfl (by rintro s ⟨⟩)
  | sleep p s pc chan lk =>
    obtain ⟨hr, -⟩ := henabled
    have hstatus : ∀ (k : Call) x, (⟨s, k, .none⟩ : Thread).sys.status = some x →
        (m.thread p).sys.status = some x := fun k x hx => by rwa [hr.2.2.2]
    cases pc with
    | set =>
      obtain ⟨hunused, -⟩ := hi.on_cpu_state hr.1
      have hslot : Records (m.setSlot p fun x => { x with chan := chan, state := .sleeping }) :=
        h.setSlot (fun hun => absurd hun hunused) (by rintro ⟨⟩)
      exact hslot.goOn rfl rfl rfl (hstatus _)
    | tidy =>
      have hslot : Records (m.setSlot p fun x => { x with chan := .null }) :=
        h.setSlot id fun hz => ⟨hz, rfl⟩
      exact hslot.goOn rfl rfl rfl (hstatus _)
    | _ => exact h.goOn rfl rfl rfl (hstatus _)
  | wakeup chan a =>
    cases a with
    | visit i =>
      have hslot : Records (m.setSlot i (Slot.wakeup chan)) := by
        refine h.setSlot (fun hun => ?_) fun hz => ?_
        · simp [Slot.wakeup, hun]
        · rw [Slot.wakeup] at hz ⊢
          split_ifs at hz ⊢
          exact ⟨hz, rfl⟩
      exact hslot.congr rfl rfl rfl
    | _ => exact h.congr rfl rfl rfl
  | kill p pid a =>
    cases a with
    | hit i =>
      have hslot : Records (m.setSlot i Slot.kill) := by
        refine h.setSlot (fun hun => ?_) fun hz => ?_
        · simp [Slot.kill, hun]
        · simp only [Slot.kill] at hz ⊢
          split_ifs at hz
          exact ⟨hz, trivial⟩
      exact hslot.goOn rfl rfl rfl (by rintro s ⟨⟩)
    | _ => exact h.goOn rfl rfl rfl (by rintro s ⟨⟩)
  | fork p a => exact h.fork hi a henabled
  | exit p status a =>
    have hstatus : ∀ {s s' : Sys}, m.Runs c p (Sys.thread s) → s'.status = s.status → ∀ x,
        (Sys.thread s').sys.status = some x → (m.thread p).sys.status = some x := by
      intro s s' hr heq x hx
      rw [hr.2.2.2]
      exact heq ▸ hx
    cases a with
    | reparent i =>
      have hslot : Records (m.setSlot i fun s => { s with parent := some m.initproc }) :=
        h.setSlot id fun hz => ⟨hz, rfl⟩
      exact hslot.goOn rfl rfl rfl (hstatus henabled.1 rfl)
    | wakeup =>
      have hr : m.Runs c p (Sys.thread (.reparent status NPROC)) := henabled
      exact h.goOn rfl rfl rfl (hstatus hr rfl)
    | state =>
      have hr : m.Runs c p (Sys.thread (.exitState status)) := henabled
      exact h.exitState (by rw [hr.2.2.2]; rfl) (hi.on_cpu_state hr.1).1
    | release | sched => exact h.goOn rfl rfl rfl (by rintro s ⟨⟩)
    | _ => exact h.goOn rfl rfl rfl (hstatus henabled.1 rfl)
  | wait p addr a =>
    cases a with
    | reap havekids i => exact h.reap henabled.2.2.2 henabled.2.1
    | _ => exact h.goOn rfl rfl rfl (by rintro s ⟨⟩)

theorem boot_records (trapframe pagetable : ℕ) : Records (Machine.boot trapframe pagetable) := by
  have hstate : ∀ p, ((Machine.boot trapframe pagetable).slot p).state =
      if p = ⟨0, by decide⟩ then .runnable else .unused := fun p => by
    by_cases hp : p = ⟨0, by decide⟩ <;> simp [Machine.boot, hp, Slot.free]
  refine ⟨fun j => Nat.zero_lt_one, fun i j hi hj _ => ?_, fun p s hp => ?_, fun j hj => ?_,
    by rintro r ⟨⟩, List.nodup_nil⟩
  · rw [hstate] at hi hj
    split_ifs at hi hj with hi0 hj0
    · rw [hi0, hj0]
    · exact absurd rfl hj
    · exact absurd rfl hi
    · exact absurd rfl hi
  · by_cases hp0 : p = ⟨0, by decide⟩ <;> simp [Machine.boot, hp0, Sys.status] at hp
  · rw [hstate] at hj
    split_ifs at hj

end

end Xv6.Sched
