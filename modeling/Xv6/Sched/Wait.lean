import Xv6.Sched.Parents

/-!
# Exit and wait

An exiting process wakes up its parent before its state becomes `ZOMBIE`, and holds `wait_lock` all the
time in between. Its parent looks at all children and goes to sleep with that lock held, so that it cannot
fall asleep between the two.
-/

namespace Xv6.Sched

open Function (update update_apply update_self update_of_ne update_eq_self update_idem)

/-- Process `j` is a child of `p` that has exited. -/
def Machine.Exited (m : Machine) (j p : Idx) : Prop :=
  (m.slot j).parent = some p ∧ (m.slot j).state = .zombie

/-- Process `p` sleeps in `wait`. -/
def Machine.Waits (m : Machine) (p : Idx) : Prop := m.Asleep p (.proc p) .wait

/-- `wait` has found no child that has exited below this place. -/
@[simp]
def Thread.scanned (t : Thread) : ℕ :=
  match t.call, t.sys with
  | .none, .waitScan _ _ i => i
  | .sleep .lock _ .wait, _ | .sleep .unlock _ .wait, _ => NPROC
  | _, _ => 0

/-- `exit` has returned from `wakeup(p->parent)` and not changed the state yet. -/
def Thread.Told (t : Thread) (wake : Option (Chan × ℕ)) : Prop :=
  (∃ s, t = Sys.thread (.exitLock s)) ∧ wake = none ∨ ∃ s, t = Sys.thread (.exitState s)

/-- A process that waits is told about every child that has exited. -/
structure Waiters (m : Machine) : Prop where
  asleep : ∀ p j, m.Waits p → m.Exited j p → ∃ c i, (m.cpu c).wake = some (.proc p, i) ∧ i ≤ p.val
  scanned : ∀ p j, j.val < (m.thread p).scanned → ¬m.Exited j p
  told : ∀ c j p, (m.cpu c).mode = .run j → (m.thread j).Told (m.cpu c).wake →
    (m.slot j).parent = some p → ¬m.Waits p
  waker : ∀ c p i, (m.cpu c).wake = some (.proc p, i) → ∃ q s, (m.cpu c).mode = .run q ∧
    ((∃ k, m.thread q = Sys.thread (.reparent s k)) ∨ m.thread q = Sys.thread (.exitLock s))
  telling : ∀ c j s chan i, (m.cpu c).mode = .run j → m.thread j = Sys.thread (.exitLock s) →
    (m.cpu c).wake = some (chan, i) → ∀ p, (m.slot j).parent = some p → chan = .proc p

/-- A thread that is not between `wakeup(p->parent)` and the end of its process. -/
def Thread.Plain (t : Thread) : Prop :=
  ∀ s, t ≠ Sys.thread (.exitLock s) ∧ t ≠ Sys.thread (.exitState s)

section

variable {m m' : Machine} {c : Cpu} {p : Idx} {t t₀ : Thread}

theorem Thread.plain_of_sys (h : ∀ s, t.sys ≠ .exitLock s ∧ t.sys ≠ .exitState s) : t.Plain := by
  refine fun s => ⟨?_, ?_⟩
  · rintro rfl
    exact (h s).1 rfl
  · rintro rfl
    exact (h s).2 rfl

theorem Thread.plain_of_interruptible (h : t.interruptible = true) : t.Plain := by
  refine fun s => ⟨?_, ?_⟩
  · rintro rfl
    simp [Thread.interruptible] at h
  · rintro rfl
    simp [Thread.interruptible] at h

theorem Thread.plain_of_switch (h : t.switch ≠ .none) : t.Plain := by
  refine fun s => ⟨?_, ?_⟩ <;>
  · rintro rfl
    exact h rfl

theorem Thread.Plain.not_told (h : t.Plain) (w : Option (Chan × ℕ)) : ¬t.Told w := by
  rintro (⟨⟨s, rfl⟩, -⟩ | ⟨s, rfl⟩)
  · exact (h s).1 rfl
  · exact (h s).2 rfl

theorem Waiters.keep (h : Waiters m) (c : Cpu) (hcpu : ∀ c', c' ≠ c → m'.cpu c' = m.cpu c')
    (hwake : ∀ r i, (m.cpu c).wake ≠ some (.proc r, i))
    (hwake' : ∀ r i, (m'.cpu c).wake ≠ some (.proc r, i))
    (hother : ∀ c' q, c' ≠ c → (m.cpu c').mode = .run q → m'.thread q = m.thread q ∧
      ∀ r, (m'.slot q).parent = some r → (m.slot q).parent = some r)
    (hexited : ∀ j p, m'.Exited j p → m.Exited j p)
    (hscan : ∀ p j, j.val < (m'.thread p).scanned → ¬m.Exited j p)
    (hasleep : ∀ p, m'.Waits p → m.Waits p)
    (hplain : ∀ j, (m'.cpu c).mode = .run j → (m'.thread j).Plain) : Waiters m' := by
  refine ⟨fun p j hp hj => ?_, fun p j hj he => hscan p j hj (hexited j p he),
    fun c' j p hc ht hp hw => ?_, fun c' p i hw => ?_, fun c' j s chan i hc ht hw p hp => ?_⟩
  · obtain ⟨c', i, hw, hi⟩ := h.asleep p j (hasleep p hp) (hexited j p hj)
    exact ⟨c', i, by grind, hi⟩
  · have := h.told c' j p
    have := fun hj => (hplain j hj).not_told (m'.cpu c).wake
    grind
  · have hne : c' ≠ c := by grind
    obtain ⟨q, s, hq, ht⟩ := h.waker c' p i (hcpu c' hne ▸ hw)
    exact ⟨q, s, by grind, by grind⟩
  · have := h.telling c' j s chan i
    have := fun hj => (hplain j hj s).1
    grind

/-- No process but `p` gets a parent, exits or falls asleep; one that `fork` is about to make may get
a parent. -/
def Fewer (m m' : Machine) (p : Idx) : Prop :=
  ∀ q, (∀ r, (m'.slot q).parent = some r → (m.slot q).parent = some r ∨ (m.slot q).state = .used) ∧
    ((m'.slot q).state = .zombie → (m.slot q).state = .zombie) ∧
    (q ≠ p → (m'.slot q).state = .sleeping → (m.slot q).state = .sleeping)

theorem Fewer.refl (h : m'.slot = m.slot) : Fewer m m' p := fun q => by
  rw [h]
  exact ⟨fun _ => .inl, id, fun _ => id⟩

theorem Fewer.set {j : Idx} {s : Slot} (h : m'.slot = update m.slot j s)
    (hparent : ∀ r, s.parent = some r → (m.slot j).parent = some r ∨ (m.slot j).state = .used)
    (hzombie : s.state = .zombie → (m.slot j).state = .zombie)
    (hsleep : j ≠ p → s.state = .sleeping → (m.slot j).state = .sleeping) : Fewer m m' p := by
  intro q
  rw [h]
  by_cases hq : q = j
  · subst hq
    rw [update_self]
    exact ⟨hparent, hzombie, hsleep⟩
  · rw [update_of_ne hq]
    exact ⟨fun _ => .inl, id, fun _ => id⟩

theorem Fewer.free {j : Idx} (h : m'.slot = update m.slot j .free) : Fewer m m' p :=
  .set h (by rintro r ⟨⟩) (by rintro ⟨⟩) (by rintro - ⟨⟩)

theorem Fewer.exited (h : Fewer m m' p) (j q : Idx) (he : m'.Exited j q) : m.Exited j q := by
  obtain ⟨hparent, hzombie, -⟩ := h j
  have hz := hzombie he.2
  refine ⟨(hparent q he.1).resolve_right fun hu => ?_, hz⟩
  rw [hu] at hz
  cases hz

theorem Waiters.goOn (h : Waiters m) (hi : Inv m) (hr : m.Runs c p t₀)
    (hthread : m'.thread = update m.thread p t)
    (hcpu : ∀ c', c' ≠ c → m'.cpu c' = m.cpu c') (hmode : ∀ q, (m'.cpu c).mode = .run q → q = p)
    (hwake : ∀ r i, (m'.cpu c).wake ≠ some (.proc r, i)) (hslot : Fewer m m' p) (ht : t.Plain)
    (hasleep : m'.Waits p → m.Waits p) (hscan : ∀ j, j.val < t.scanned → ¬m.Exited j p) :
    Waiters m' := by
  have hne : ∀ c' q, c' ≠ c → (m.cpu c').mode = .run q → q ≠ p := by
    rintro c' q hc hq rfl
    exact hc (hi.only hr c' hq)
  have hsame : ∀ q, m'.thread q = if q = p then t else m.thread q := fun q => by
    rw [hthread, update_apply]
  refine h.keep c hcpu (by simp [hr.2.2.1]) hwake (fun c' q hc hq => ⟨by grind, fun r hr' => ?_⟩)
    hslot.exited (fun q j hj => ?_) (fun q hq => ?_) fun j hj => ?_
  · exact ((hslot q).1 r hr').resolve_right (hi.on_cpu_state hq).2
  · have := h.scanned q j
    grind
  · have := (hslot q).2.2
    simp only [Machine.Waits, Machine.Asleep] at *
    grind
  · obtain rfl := hmode j hj
    rwa [hsame, if_pos rfl]

theorem Inv.holder (h : Inv m) {lk : Lk} (hr : m.Runs c p t) (ht : lk ∈ t.held) {c' : Cpu} {q : Idx}
    (hq : (m.cpu c').mode = .run q) (hheld : lk ∈ (m.thread q).held) : c' = c ∧ q = p := by
  have hp := h.locks.thread c p lk hr.1 (by rw [hr.2.2.2]; exact ht)
  have hq' := h.locks.thread c' q lk hq hheld
  obtain rfl : c' = c := by
    rw [hp] at hq'
    cases hq'
    rfl
  rw [hr.1] at hq
  cases hq
  exact ⟨rfl, rfl⟩

theorem Inv.scanned_on (h : Inv m) (hp : 0 < (m.thread p).scanned) :
    .wait ∈ (m.thread p).held ∧ ∃ c, (m.cpu c).mode = .run p := by
  have hwf := h.wf p
  have hallows := h.owner.allows p
  have hon := h.owner.on p
  rcases hthread : m.thread p with ⟨s, k, f⟩
  have hphase : m.view.phase p = (⟨s, k, f⟩ : Thread).phase := congrArg Thread.phase hthread
  rw [hthread] at hp hwf
  have hheld : Lk.wait ∈ (⟨s, k, f⟩ : Thread).held ∧
      ((⟨s, k, .none⟩ : Thread).phase = .active ∨ (⟨s, k, .none⟩ : Thread).phase = .locked) := by
    cases k with
    | none => cases s <;> simp_all
    | sleep pc chan lk =>
      rcases hwf.sleep pc chan lk rfl with ⟨n, k, -, rfl, -⟩ | ⟨addr, rfl, rfl, -⟩
      · cases pc <;> simp at hp
      · cases pc <;> simp_all
  have hf : f = .none := by
    by_contra hf
    have hcalm := hwf.calm hf
    rw [Thread.interruptible_iff] at hcalm
    have : Lk.wait ∈ (⟨s, k, .none⟩ : Thread).held := hheld.1
    simp [-Thread.held, hcalm.2.1] at this
  subst hf
  refine ⟨hheld.1, ?_⟩
  have : m.view.phase p = .active ∨ m.view.phase p = .locked := hphase ▸ hheld.2
  change ∃ c, m.view.mode c = .run p
  grind

/-- Nobody wakes up a parent while another thread holds `wait_lock`. -/
theorem Waiters.no_waker (h : Waiters m) (hi : Inv m) (hr : m.Runs c p t) (ht : .wait ∈ t.held)
    (c' : Cpu) (r : Idx) (i : ℕ) : (m.cpu c').wake ≠ some (.proc r, i) := by
  intro hw
  obtain ⟨q, s, hq, hthread⟩ := h.waker c' r i hw
  have hheld : Lk.wait ∈ (m.thread q).held := by
    rcases hthread with ⟨k, hthread⟩ | hthread <;>
      simp [hthread]
  obtain ⟨rfl, -⟩ := hi.holder hr ht hq hheld
  rw [hr.2.2.1] at hw
  cases hw

theorem not_waits (h : (m.thread p).call.Awake) : ¬m.Waits p := by
  rintro (hw | hw | ⟨hw, -⟩)
  · exact (h _ _).1 hw
  · exact (h _ _).2.1 hw
  · exact (h _ _).2.2 hw

theorem waits_of_same {q : Idx} (hthread : m'.thread q = m.thread q)
    (hstate : (m'.slot q).state = .sleeping → (m.slot q).state = .sleeping) (h : m'.Waits q) :
    m.Waits q := by
  simp only [Machine.Waits, Machine.Asleep, hthread] at h ⊢
  exact h.imp_right (Or.imp_right (And.imp_right hstate))

/-- While a thread holds `wait_lock`, no process that sleeps in `wait` has a child that has exited. -/
theorem Waiters.quiet (h : Waiters m) (hi : Inv m) (hr : m.Runs c p t) (ht : .wait ∈ t.held) {r j : Idx}
    (hw : m.Waits r) (he : m.Exited j r) : False := by
  obtain ⟨c', i, hwake, -⟩ := h.asleep r j hw he
  exact h.no_waker hi hr ht c' r i hwake

theorem Waiters.hold (h : Waiters m) (hi : Inv m) (hr : m.Runs c p t₀) (hheld : .wait ∈ t₀.held)
    (hthread : ∀ q, q ≠ p → m'.thread q = m.thread q)
    (hcpu : ∀ c', c' ≠ c → m'.cpu c' = m.cpu c') (hmode : (m'.cpu c).mode = .run p)
    (hscan : (m'.thread p).scanned = 0)
    (hsleep : ∀ q, (m'.slot q).state = .sleeping → (m.slot q).state = .sleeping)
    (hself : ∀ j, m'.Waits p → ¬m'.Exited j p)
    (hasleep : ∀ r j, r ≠ p → m.Waits r → m'.Exited j r → ¬m.Exited j r →
      ∃ i, (m'.cpu c).wake = some (.proc r, i) ∧ i ≤ r.val)
    (hself' : ∀ r, (m'.thread p).Told (m'.cpu c).wake → (m'.slot p).parent = some r → ¬m'.Waits r)
    (hwaker : ∀ r i, (m'.cpu c).wake = some (.proc r, i) →
      ∃ s, (∃ k, m'.thread p = Sys.thread (.reparent s k)) ∨ m'.thread p = Sys.thread (.exitLock s))
    (htelling : ∀ s chan i, m'.thread p = Sys.thread (.exitLock s) →
      (m'.cpu c).wake = some (chan, i) → ∀ r, (m'.slot p).parent = some r → chan = .proc r) :
    Waiters m' := by
  -- Another CPU executes a thread that does not hold the lock.
  have hother : ∀ c' q, c' ≠ c → (m'.cpu c').mode = .run q →
      (m.cpu c').mode = .run q ∧ m'.thread q = m.thread q ∧ .wait ∉ (m.thread q).held := by
    intro c' q hc hq
    rw [hcpu c' hc] at hq
    have hqp : q ≠ p := by
      rintro rfl
      exact hc (hi.only hr c' hq)
    exact ⟨hq, hthread q hqp, fun hmem => hc (hi.holder hr hheld hq hmem).1⟩
  have htold : ∀ q w, (m.thread q).Told w → .wait ∈ (m.thread q).held := by
    rintro q w (⟨⟨s, ht⟩, -⟩ | ⟨s, ht⟩) <;> simp [ht]
  refine ⟨fun r j hp hj => ?_, fun r j hj => ?_, fun c' j r hc ht hp => ?_, fun c' r i hw => ?_,
    fun c' j s chan i hc ht hw r hp => ?_⟩
  · have hrp : r ≠ p := by
      rintro rfl
      exact hself j hp hj
    have hw := waits_of_same (hthread r hrp) (hsleep r) hp
    exact ⟨c, hasleep r j hrp hw hj fun he => h.quiet hi hr hheld hw he⟩
  · by_cases hrp : r = p
    · subst hrp
      omega
    · rw [hthread r hrp] at hj
      obtain ⟨hmem, c', hc'⟩ := hi.scanned_on (p := r) (by omega)
      exact absurd (hi.holder hr hheld hc' hmem).2 hrp
  · have := hother c' j
    grind
  · have := h.no_waker hi hr hheld c' r i
    have := hwaker r i
    grind
  · have := hother c' j
    have : ∀ s, Lk.wait ∈ (Sys.thread (.exitLock s)).held := by simp
    grind

theorem Waiters.move (h : Waiters m) (hi : Inv m) (hr : m.Runs c p t₀)
    (hthread : m'.thread = update m.thread p t) (hcpu : m'.cpu = m.cpu)
    (hslot : Fewer m m' p) (ht : t.Plain) (hawake : t.call.Awake)
    (hscan : ∀ j, j.val < t.scanned → ¬m.Exited j p) : Waiters m' := by
  refine h.goOn hi hr hthread (fun c' _ => by rw [hcpu]) (fun q hq => ?_) ?_ hslot ht (fun hw => ?_)
    hscan
  · rw [hcpu, hr.1] at hq
    cases hq
    rfl
  · rw [hcpu, hr.2.2.1]
    simp
  · exact absurd hw (not_waits (by rw [hthread, update_self]; exact hawake))

theorem Waiters.toSys {s : Sys} (h : Waiters m) (hi : Inv m) (hr : m.Runs c p t₀)
    (hthread : m'.thread = update m.thread p (Sys.thread s)) (hcpu : m'.cpu = m.cpu)
    (hslot : Fewer m m' p) (hs : ∀ x, s ≠ .exitLock x ∧ s ≠ .exitState x)
    (hscan : (Sys.thread s).scanned = 0) : Waiters m' :=
  h.move hi hr hthread hcpu hslot (Thread.plain_of_sys hs) Call.awake_none fun j hj => by omega

theorem Waiters.exit (h : Waiters m) (hi : Inv m) {status : ℤ} (a : ExitStep)
    (hs : a.enabled m c p status) : Waiters (a.next m c p status) := by
  have hawake : ∀ {m' : Machine} {s : Sys}, m'.thread p = Sys.thread s → ¬m'.Waits p :=
    fun ht => not_waits (by rw [ht]; exact Call.awake_none)
  have hplain : ∀ {s : Sys}, (∀ x, s ≠ .exitLock x ∧ s ≠ .exitState x) → (Sys.thread s).Plain :=
    fun hs => Thread.plain_of_sys hs
  cases a with
  | release =>
    have hr : m.Runs c p (Sys.thread .exitRelease) := hs
    exact h.toSys hi hr rfl rfl (.refl rfl) (by simp) rfl
  | sched =>
    have hr : m.Runs c p (Sys.thread .exitSched) := hs
    refine h.goOn hi hr (t := Sys.thread .dead) rfl (fun c' hc => ?_) ?_ ?_
      (.refl rfl) (hplain (by simp)) ?_ (by simp)
    · simp [hc]
    · simp
    · simp [hr.2.2.1]
    · exact fun hw => absurd hw (hawake (s := .dead) (update_self ..))
  | reparent i =>
    obtain ⟨hr, -⟩ := hs
    refine h.hold hi hr (by simp) (fun q hq => ?_) (fun c' hc => ?_) ?_ ?_ (fun q hsleep => ?_) (fun j hw => ?_)
      (fun r j _ _ he hnot => ?_) (fun r ht => ?_) (fun r i' hw => ?_) fun s chan i' ht => ?_
    · simp [hq]
    · simp [hc]
    · simp [hr.1]
    · simp
    · by_cases hqi : q = i
      · subst hqi
        simpa using hsleep
      · simpa [hqi] using hsleep
    · exact absurd hw (hawake (s := .reparent status (i + 1)) (update_self ..))
    · by_cases hji : j = i
      · -- The child is given to the first process, which is woken up next.
        subst hji
        have hinit : m.initproc = r := by
          have := he.1
          simpa using this
        subst hinit
        exact ⟨0, by simp, Nat.zero_le _⟩
      · exact absurd (by simpa [Machine.Exited, hji] using he) hnot
    · refine absurd ht (Thread.Plain.not_told ?_ _)
      simp only [ExitStep.next, Machine.setThread, update_self]
      exact hplain (by simp)
    · exact ⟨status, .inl ⟨i + 1, by simp⟩⟩
    · simp at ht
  | wakeup =>
    have hr : m.Runs c p (Sys.thread (.reparent status NPROC)) := hs
    refine h.hold hi hr (by simp) (fun q hq => ?_) (fun c' hc => ?_) ?_ ?_ (fun _ => id) (fun j hw => ?_)
      (fun r j _ _ he hnot => absurd he hnot) (fun r ht => ?_) (fun r i' hw => ?_)
      fun s chan i' ht hw r hp => ?_
    · simp [hq]
    · simp [hc]
    · simp [hr.1]
    · simp
    · exact absurd hw (hawake (s := .exitLock status) (update_self ..))
    · simp [Thread.Told] at ht
    · exact ⟨status, .inr (by simp)⟩
    · have hp : (m.slot p).parent = some r := hp
      simp only [ExitStep.next, Machine.setThread, Machine.setCpu, update_self, hp,
        Chan.ofProc, Option.some.injEq, Prod.mk.injEq] at hw
      exact hw.1.symm
  | lock =>
    obtain ⟨hr, -⟩ := hs
    have hwaits : ∀ r, ((ExitStep.lock).next m c p status).Waits r → m.Waits r := by
      intro r hw
      have hrp : r ≠ p := by
        rintro rfl
        exact hawake (s := .exitState status) (update_self ..) hw
      refine waits_of_same ?_ ?_ hw
      · simp [hrp]
      · exact id
    refine h.hold hi hr (by simp) (fun q hq => ?_) (fun c' hc => rfl) hr.1 ?_ (fun _ => id) (fun j hw => ?_)
      (fun r j _ _ he hnot => absurd he hnot) (fun r ht hp hw => ?_) (fun r i' hw => ?_)
      fun s chan i' ht => ?_
    · simp [hq]
    · simp
    · exact absurd hw (hawake (s := .exitState status) (update_self ..))
    · refine h.told c p r hr.1 (.inl ⟨⟨status, hr.2.2.2⟩, hr.2.2.1⟩) hp (hwaits r hw)
    · exact absurd (hr.2.2.1.symm.trans hw) (by simp)
    · simp at ht
  | state =>
    have hr : m.Runs c p (Sys.thread (.exitState status)) := hs
    refine h.hold hi hr (by simp) (fun q hq => ?_) (fun c' hc => rfl) hr.1 ?_ (fun q hsleep => ?_)
      (fun j hw => ?_) (fun r j _ hw he hnot => ?_) (fun r ht => ?_) (fun r i' hw => ?_)
      fun s chan i' ht => ?_
    · simp [hq]
    · simp
    · by_cases hqp : q = p
      · subst hqp
        simp at hsleep
      · simpa [hqp] using hsleep
    · exact absurd hw (hawake (s := .exitRelease) (update_self ..))
    · by_cases hjp : j = p
      · -- Its parent has been woken up, and could not fall asleep since.
        subst hjp
        have hp : (m.slot j).parent = some r := by
          have := he.1
          simpa using this
        exact (h.told c j r hr.1 (.inr ⟨status, hr.2.2.2⟩) hp hw).elim
      · exact absurd (by simpa [Machine.Exited, hjp] using he) hnot
    · refine absurd ht (Thread.Plain.not_told ?_ _)
      simp only [ExitStep.next, Machine.setThread, update_self]
      exact hplain (by simp)
    · exact absurd (hr.2.2.1.symm.trans hw) (by simp)
    · simp at ht
  | _ => exact h.toSys hi hs.1 rfl rfl (.refl rfl) (by simp) rfl

theorem Waiters.ofCpu (h : Waiters m) (hwake : (m.cpu c).wake = none) (hthread : m'.thread = m.thread)
    (hslot : m'.slot = m.slot) {x : CpuState} (hcpu : m'.cpu = update m.cpu c x)
    (hplain : ∀ q, x.mode = .run q → (m.thread q).Plain)
    (hwake' : ∀ r i, x.wake ≠ some (.proc r, i)) : Waiters m' := by
  have hself : m'.cpu c = x := by rw [hcpu, update_self]
  refine h.keep c (fun c' hc => by rw [hcpu, update_of_ne hc]) (by simp [hwake]) (by rwa [hself])
    (fun c' q _ _ => ?_) (fun j p he => ?_) (fun p j hj => ?_) (fun p hw => ?_) fun j hj => ?_
  · rw [hthread, hslot]
    exact ⟨rfl, fun _ => id⟩
  · rwa [Machine.Exited, hslot] at he
  · rw [hthread] at hj
    exact h.scanned p j hj
  · rwa [Machine.Waits, Machine.Asleep, hthread, hslot] at hw
  · rw [hthread]
    rw [hself] at hj
    exact hplain j hj

theorem Inv.irq_plain (h : Inv m) (hirq : (m.cpu c).irq ≠ none) (q : Idx)
    (hq : (m.cpu c).mode = .run q) : (m.thread q).Plain :=
  Thread.plain_of_interruptible (h.locks.calm c q hirq hq)

theorem Waiters.scheduler (h : Waiters m) (hi : Inv m) (s : SchedulerStep) (hs : s.enabled m c) :
    Waiters (s.next m c) := by
  cases s with
  | pick p =>
    obtain ⟨⟨-, -, hwake⟩, hlock, hstate⟩ := hs
    have hphase := hi.owner.runnable (p := p) hlock hstate
    have hthread : (SchedulerStep.next m c (.pick p)).thread = m.thread := rfl
    refine h.keep c (fun c' hc => ?_) (by simp [hwake]) ?_ (fun c' q _ _ => ⟨rfl, fun r => ?_⟩)
      (fun j q => ?_) h.scanned (fun q => waits_of_same (by rw [hthread]) ?_) fun j hj => ?_
    · simp [hc]
    · simp [hwake]
    · simp only [SchedulerStep.next, Machine.setCpu, Machine.setSlot, Machine.setPlock,
        update_apply]
      grind
    · simp only [Machine.Exited, SchedulerStep.next, Machine.setCpu, Machine.setSlot, Machine.setPlock,
        update_apply]
      grind
    · simp only [SchedulerStep.next, Machine.setCpu, Machine.setSlot, Machine.setPlock,
        update_apply]
      grind
    · -- A thread that is picked has been switched away.
      obtain rfl : p = j := by
        simpa using hj
      rw [hthread]
      refine fun s => ⟨fun ht => ?_, fun ht => ?_⟩
      · have : m.view.phase p = .active := congrArg Thread.phase ht
        simp [this] at hphase
      · have : m.view.phase p = .locked := congrArg Thread.phase ht
        simp [this] at hphase
  | skip p => exact h.ofCpu hs.1.2.2 rfl rfl rfl (by simp) (by simp [hs.1.2.2])
  | restart | back p =>
    have hwake : (m.cpu c).wake = none := hs.2.2
    exact h.ofCpu hwake rfl rfl rfl (by simp) (by simp [hwake])

theorem Waiters.irq (h : Waiters m) (hi : Inv m) (s : IrqStep) (hs : s.enabled m c) :
    Waiters (s.next m c) := by
  cases s with
  | enter =>
    obtain ⟨hon, -, hwake⟩ := hs
    refine h.ofCpu hwake rfl rfl rfl (fun q hq => ?_) (by simp [hwake])
    have hq : (m.cpu c).mode = .run q := hq
    rw [Machine.interruptible, hq] at hon
    exact Thread.plain_of_interruptible hon
  | acquire n =>
    obtain ⟨hirq, hwake, -⟩ := hs
    exact h.ofCpu hwake rfl rfl rfl (hi.irq_plain hirq) (by simp [hwake])
  | release n =>
    obtain ⟨⟨L, hL, -⟩, hwake⟩ := hs
    have hirq : (m.cpu c).irq ≠ none := by
      rw [Option.mem_def.mp hL]
      simp
    exact h.ofCpu hwake rfl rfl rfl (hi.irq_plain hirq) (by simp [hwake])
  | wakeup k =>
    obtain ⟨hirq, -, hwake⟩ := hs
    exact h.ofCpu hwake rfl rfl rfl (hi.irq_plain hirq) (by simp)
  | «return» =>
    obtain ⟨hirq, hwake⟩ := hs
    have hirq : (m.cpu c).irq ≠ none := by simp [hirq]
    exact h.ofCpu hwake rfl rfl rfl (hi.irq_plain hirq) (by simp [hwake])
  | yield p =>
    obtain ⟨hirq, hwake, hmode, -⟩ := hs
    refine h.keep c (fun c' hc => ?_) (by simp [hwake]) ?_ (fun c' q hc hq => ⟨?_, fun r => ?_⟩)
      (fun j q => ?_) (fun q j hj => h.scanned q j ?_) (fun q => ?_) fun j hj => ?_
    · simp [hc]
    · simp [hwake]
    · have : q ≠ p := by
        rintro rfl
        exact hc (hi.owner.only hmode c' hq)
      simp [this]
    · simp only [IrqStep.next, Machine.setCpu, Machine.setThread, Machine.setSlot,
        Machine.setPlock, update_apply]
      grind
    · simp only [Machine.Exited, IrqStep.next, Machine.setCpu, Machine.setThread, Machine.setSlot,
        Machine.setPlock, update_apply]
      grind
    · simp only [IrqStep.next, Machine.setCpu, Machine.setThread, Machine.setSlot,
        Machine.setPlock, update_apply] at hj
      split_ifs at hj with hq
      · exact hq ▸ hj
      · exact hj
    · simp only [Machine.Waits, Machine.Asleep, IrqStep.next, Machine.setCpu, Machine.setThread, Machine.setSlot,
        Machine.setPlock, update_apply]
      grind
    · obtain rfl : p = j := by
        have : (m.cpu c).mode = .run j := by simpa using hj
        grind
      simp only [IrqStep.next, Machine.setThread, Machine.setCpu, update_self]
      exact Thread.plain_of_switch (by simp)

theorem Waiters.switch (h : Waiters m) (hi : Inv m) {s : Sys} {k : Call} (a : SwitchStep)
    (hs : a.enabled m c p s k) : Waiters (a.next m c p s k) := by
  -- The process stays where it is in its system call.
  have hscan : ∀ {f : Switch}, m.thread p = ⟨s, k, f⟩ → ∀ (f' : Switch) (j : Idx),
      j.val < (⟨s, k, f'⟩ : Thread).scanned → ¬m.Exited j p := fun ht f' j hj =>
    h.scanned p j (by rw [ht]; exact hj)
  have hwaits : ∀ {m' : Machine} {f : Switch} (f' : Switch), m.thread p = ⟨s, k, f⟩ →
      m'.thread p = ⟨s, k, f'⟩ → m'.slot = m.slot → m'.Waits p → m.Waits p := fun f' ht ht' hslot hw => by
    simp only [Machine.Waits, Machine.Asleep, ht, ht', hslot] at hw ⊢
    exact hw
  have hplain : ∀ {f : Switch}, m.thread p = ⟨s, k, f⟩ → f ≠ .none →
      (⟨s, k, .none⟩ : Thread).Plain := fun {f} ht hf => by
    have hwf := hi.wf p
    rw [ht] at hwf
    exact Thread.plain_of_interruptible (hwf.calm hf)
  cases a with
  | sched =>
    have hr : m.Runs c p ⟨s, k, .yield⟩ := hs
    refine h.goOn hi hr (t := ⟨s, k, .yielded⟩) rfl (fun c' hc => ?_) ?_ ?_ (.refl rfl)
      (Thread.plain_of_switch (by simp)) ?_ (hscan hr.2.2.2 _)
    · simp [hc]
    · simp
    · simp [hr.2.2.1]
    · exact hwaits .yielded hr.2.2.2 (update_self ..) rfl
  | yielded =>
    have hr : m.Runs c p ⟨s, k, .yielded⟩ := hs
    refine h.goOn hi hr (t := ⟨s, k, .none⟩) rfl (fun c' hc => rfl) ?_ ?_ (.refl rfl)
      (hplain hr.2.2.2 (by simp)) ?_ (hscan hr.2.2.2 _)
    · simp [hr.1]
    · simp [hr.2.2.1]
    · exact hwaits .none hr.2.2.2 (update_self ..) rfl
  | forkret =>
    have hr : m.Runs c p ⟨s, k, .forkret⟩ := hs
    refine h.goOn hi hr (t := ⟨s, k, .none⟩) rfl (fun c' hc => rfl) ?_ ?_ (.refl rfl)
      (hplain hr.2.2.2 (by simp)) ?_ (hscan hr.2.2.2 _)
    · simp [hr.1]
    · simp [hr.2.2.1]
    · exact hwaits .none hr.2.2.2 (update_self ..) rfl

theorem Thread.plain_code (L : Finset ℕ) (k : Call) : (⟨.code L, k, .none⟩ : Thread).Plain :=
  Thread.plain_of_sys (by simp)

theorem Waiters.code (h : Waiters m) (hi : Inv m) {L : Finset ℕ} (a : CodeStep)
    (hs : a.enabled m c p L) : Waiters (a.next m c p L) := by
  have hsame : m.Runs c p (Sys.thread (.code L)) →
      m.thread = update m.thread p (Sys.thread (.code L)) := fun hr => by
    rw [← hr.2.2.2, update_eq_self]
  cases a with
  | sleep n k =>
    exact h.move hi hs.1 rfl rfl (.refl rfl) (Thread.plain_code _ _) (by simp [Call.Awake])
      (by simp)
  | wakeup k =>
    obtain ⟨hr, -⟩ := hs
    refine h.ofCpu hr.2.2.1 rfl rfl rfl (fun q hq => ?_) (by simp)
    obtain rfl : p = q := by simpa [hr.1] using hq
    rw [hr.2.2.2]
    exact Thread.plain_code _ _
  | setkilled | grow sz pagetable =>
    exact h.toSys hi hs.1 (hsame hs.1) rfl (.set rfl (fun _ => .inl) id fun _ => id) (by simp) rfl
  | _ => exact h.toSys hi hs.1 rfl rfl (.refl rfl) (by simp) rfl

theorem Waiters.kill (h : Waiters m) (hi : Inv m) {pid : BitVec 32} (a : KillStep)
    (hs : a.enabled m c p pid) : Waiters (a.next m p pid) := by
  cases a with
  | hit i =>
    refine h.toSys hi hs.1 rfl rfl (Fewer.set (j := i) rfl ?_ ?_ ?_) (by simp) rfl
    · exact fun _ => .inl
    · intro hz
      simp only [Slot.kill] at hz
      split_ifs at hz
      exact hz
    · intro _ hsleep
      simp only [Slot.kill] at hsleep
      split_ifs at hsleep with hold
      exact absurd hsleep hold
  | miss i => exact h.toSys hi hs.1 rfl rfl (.refl rfl) (by simp) rfl
  | fail => exact h.toSys hi hs rfl rfl (.refl rfl) (by simp) rfl

theorem Waiters.wait (h : Waiters m) (hi : Inv m) {addr : ℕ} (a : WaitStep)
    (hs : a.enabled m c p addr) : Waiters (a.next m c p addr) := by
  -- The places below are as before, and the one that is looked at is none.
  have hscan : ∀ {havekids : Bool} {i : Idx}, m.Runs c p (Sys.thread (.waitScan addr havekids i)) →
      ¬m.Exited i p → ∀ (havekids' : Bool) (j : Idx),
        j.val < (Sys.thread (.waitScan addr havekids' (i + 1))).scanned → ¬m.Exited j p := by
    intro havekids i hr hi' havekids' j hj
    have hj : j.val < i.val + 1 := hj
    by_cases hji : j = i
    · subst hji
      exact hi'
    · have hne : j.val ≠ i.val := fun heq => hji (Fin.ext heq)
      refine h.scanned p j ?_
      rw [hr.2.2.2]
      change j.val < i.val
      omega
  cases a with
  | other havekids i =>
    exact h.move hi hs.1 rfl rfl (.refl rfl) (Thread.plain_of_sys (by simp)) Call.awake_none
      (hscan hs.1 (fun he => hs.2 he.1) _)
  | child havekids i =>
    exact h.move hi hs.1 rfl rfl (.refl rfl) (Thread.plain_of_sys (by simp)) Call.awake_none
      (hscan hs.1 (fun he => hs.2.2.2 he.2) _)
  | reap havekids i => exact h.toSys hi hs.1 rfl rfl (.free rfl) (by simp) rfl
  | sleep =>
    refine h.move hi hs.1 rfl rfl (.refl rfl) (Thread.plain_of_sys (by simp))
      (by simp [Call.Awake]) fun j hj => ?_
    refine h.scanned p j ?_
    rw [hs.1.2.2.2]
    exact hj
  | _ => exact h.toSys hi hs.1 rfl rfl (.refl rfl) (by simp) rfl

theorem Waiters.fork (h : Waiters m) (hi : Inv m) (a : ForkStep) (hs : a.enabled m c p) :
    Waiters (a.next m c p) := by
  cases a with
  | found i =>
    obtain ⟨hr, -, hunused⟩ := hs
    refine h.toSys hi hr rfl rfl (Fewer.set (j := i) rfl ?_ ?_ ?_) (by simp) rfl
    · exact fun _ => .inl
    · rintro ⟨⟩
    · rintro - ⟨⟩
  | taken i => exact h.toSys hi hs.1 rfl rfl (.refl rfl) (by simp) rfl
  | full => exact h.toSys hi hs rfl rfl (.refl rfl) (by simp) rfl
  | fail np => exact h.toSys hi hs rfl rfl (.free rfl) (by simp) rfl
  | copy np trapframe pagetable =>
    obtain ⟨hr, -⟩ := hs
    have hnot := hi.new_not_on hr.making
    have hnp : np ≠ p := by
      rintro rfl
      exact hnot c hr.1
    have hthread : ∀ q, (ForkStep.next m c p (.copy np trapframe pagetable)).thread q = if q = p then
        Sys.thread (.forkParent np) else if q = np then ⟨.code ∅, .none, .forkret⟩ else m.thread q :=
      fun q => by simp [update_apply]
    have hfewer : Fewer m (ForkStep.next m c p (.copy np trapframe pagetable)) p :=
      Fewer.set (j := np) rfl (fun _ => .inl) id fun _ => id
    refine h.keep c (fun c' hc => rfl) (by simp [hr.2.2.1]) (by simp [hr.2.2.1]) (fun c' q hc hq => ⟨?_,
      fun r hq' => ?_⟩) hfewer.exited (fun q j hj => h.scanned q j ?_) (fun q hw => ?_) fun j hj => ?_
    · have := hnot c'
      have := hi.only hr c'
      grind
    · exact ((hfewer q).1 r hq').resolve_right (hi.on_cpu_state hq).2
    · rw [hthread] at hj
      split_ifs at hj
      · cases hj
      · cases hj
      · exact hj
    · have := (hfewer q).2.2
      simp only [Machine.Waits, Machine.Asleep, hthread] at hw ⊢
      grind
    · obtain rfl : p = j := by simpa [hr.1] using hj
      rw [hthread, if_pos rfl]
      exact Thread.plain_of_sys (by simp)
  | parent np =>
    obtain ⟨hr, -⟩ := hs
    have hused : (m.slot np).state = .used := (hi.owner.pending p np hr.making).1
    refine h.toSys hi hr rfl rfl (Fewer.set (j := np) rfl ?_ ?_ ?_) (by simp) rfl
    · exact fun _ _ => .inr hused
    · exact id
    · exact fun _ => id
  | run np =>
    obtain ⟨hr, -⟩ := hs
    refine h.toSys hi hr rfl rfl (Fewer.set (j := np) rfl ?_ ?_ ?_) (by simp) rfl
    · exact fun _ => .inl
    · rintro ⟨⟩
    · rintro - ⟨⟩

theorem Waiters.sleep (h : Waiters m) (hi : Inv m) {s : Sys} {pc : SleepPc} {chan : Chan} {lk : Lk}
    (hs : sleepEnabled m c p s pc chan lk) : Waiters (sleepNext m c p s pc chan lk) := by
  obtain ⟨hr, -⟩ := hs
  have hwf := (hi.wfRuns hr).sleep pc chan lk rfl
  have hplain : ∀ k : Call, (⟨s, k, .none⟩ : Thread).Plain := fun k => by
    rcases hwf with ⟨n, x, rfl, -⟩ | ⟨addr, rfl, -⟩ <;> exact Thread.plain_of_sys (by simp)
  have hcall : (m.thread p).call = .sleep pc chan lk := by rw [hr.2.2.2]
  cases pc with
  | lock =>
    refine h.move hi hr rfl rfl (.refl rfl) (hplain _) (by simp [Call.Awake]) fun j hj => ?_
    refine h.scanned p j ?_
    rw [hr.2.2.2]
    cases lk <;> exact hj
  | unlock =>
    rcases hwf with ⟨n, x, rfl, rfl, rfl⟩ | ⟨addr, rfl, rfl, rfl⟩
    · refine h.goOn hi hr (t := ⟨.code {n}, .sleep .set (.other x) (.other n), .none⟩) rfl
        (fun _ _ => rfl) ?_ ?_ (.refl rfl) (hplain _) (fun hw => ?_) (by simp)
      · simp [hr.1]
      · simp [hr.2.2.1]
      · simp [Machine.Waits, Machine.Asleep] at hw
    · -- All places have been looked at.
      have hself : (sleepNext m c p (.waitScan addr false 0) .unlock (.proc p) .wait).thread p =
          ⟨.waitScan addr false 0, .sleep .set (.proc p) .wait, .none⟩ := by
        simp
      refine h.hold hi hr (by simp) (fun q hq => ?_) (fun _ _ => rfl) hr.1 ?_ (fun _ => id)
        (fun j _ he => h.scanned p j ?_ he) (fun r j _ _ he hnot => absurd he hnot) (fun r ht => ?_)
        (fun r i hw => ?_) fun x chan i ht => ?_
      · simp [hq]
      · rw [hself]
        rfl
      · rw [hr.2.2.2]
        exact j.isLt
      · rw [hself] at ht
        exact absurd ht ((hplain _).not_told _)
      · exact absurd (hr.2.2.1.symm.trans hw) (by simp)
      · simp at ht
  | set =>
    refine h.goOn hi hr (t := ⟨s, .sleep .sched chan lk, .none⟩) rfl (fun _ _ => rfl) ?_ ?_
      (Fewer.set (j := p) rfl ?_ ?_ ?_) (hplain _) (fun hw => ?_) (by simp)
    · simp [hr.1]
    · simp [hr.2.2.1]
    · exact fun _ => .inl
    · rintro ⟨⟩
    · exact fun hne => absurd rfl hne
    · simp only [Machine.Waits, Machine.Asleep, sleepNext, Machine.setThread,
        update_self] at hw
      obtain ⟨rfl, rfl⟩ : chan = .proc p ∧ lk = .wait := by simpa using hw
      exact .inl hcall
  | sched =>
    refine h.goOn hi hr (t := ⟨s, .sleep .tidy chan lk, .none⟩) rfl (fun c' hc => ?_) ?_ ?_
      (.refl rfl) (hplain _) (fun hw => ?_) (by simp)
    · simp [hc]
    · simp
    · simp [hr.2.2.1]
    · simp only [Machine.Waits, Machine.Asleep, sleepNext, Machine.setThread, Machine.setCpu,
        update_self] at hw
      obtain ⟨⟨rfl, rfl⟩, -⟩ : (chan = .proc p ∧ lk = .wait) ∧ _ := by simpa using hw
      exact .inr (.inl hcall)
  | tidy =>
    refine h.move hi hr rfl rfl (Fewer.set (j := p) rfl ?_ ?_ ?_) (hplain _) (by simp [Call.Awake])
      (by simp)
    · exact fun _ => .inl
    · exact id
    · exact fun _ => id
  | relock =>
    refine h.move hi hr rfl rfl (.refl rfl) (hplain _) Call.awake_none fun j hj => ?_
    rcases hwf with ⟨n, x, rfl, -⟩ | ⟨addr, rfl, -⟩ <;> simp at hj

theorem Inv.proc_of_run (h : Inv m) (hc : (m.cpu c).mode = .run p) : (m.cpu c).proc = some p := by
  have := h.owner.proc c
  change (m.cpu c).proc = (m.cpu c).mode.slot at this
  rw [this, hc]
  rfl

theorem Waiters.advance (h : Waiters m) (hi : Inv m) (hs : Sleepers m') {chan : Chan} {i : ℕ}
    (hwake : (m.cpu c).wake = some (chan, i))
    (hcpu : m'.cpu = update m.cpu c { m.cpu c with wake := some (chan, i + 1) })
    (hthread : m'.thread = m.thread) (hlock : m'.lock = m.lock)
    (hslot : ∀ q, (m'.slot q).parent = (m.slot q).parent ∧
      ((m'.slot q).state = .zombie → (m.slot q).state = .zombie) ∧
      ((m'.slot q).state = .sleeping → (m.slot q).state = .sleeping)) : Waiters m' := by
  have hself : ∀ c', m'.cpu c' = if c' = c then { m.cpu c with wake := some (chan, i + 1) } else m.cpu c' :=
    fun c' => by rw [hcpu, update_apply]
  have hwaits : ∀ q, m'.Waits q → m.Waits q := fun q =>
    waits_of_same (by rw [hthread]) (hslot q).2.2
  have hexited : ∀ j q, m'.Exited j q → m.Exited j q := fun j q he =>
    ⟨(hslot j).1 ▸ he.1, (hslot j).2.1 he.2⟩
  refine ⟨fun p j hp hj => ?_, fun p j hj he => ?_, fun c' j p hc ht hp hw => ?_,
    fun c' p k hw => ?_, fun c' j s chan' k hc ht hw p hp => ?_⟩
  · obtain ⟨c', k, hw, hk⟩ := h.asleep p j (hwaits p hp) (hexited j p hj)
    by_cases hc : c' = c
    · -- The process is further on in the table: it would have been woken up.
      subst hc
      obtain ⟨q, s, hq, ht⟩ := h.waker c' p k hw
      rw [hwake] at hw
      obtain ⟨rfl, rfl⟩ : chan = .proc p ∧ i = k := by simpa using hw
      refine ⟨c', i + 1, by rw [hself, if_pos rfl], ?_⟩
      by_contra hlt
      have hheld : Lk.wait ∈ (m.thread q).held := by
        rcases ht with ⟨x, ht⟩ | ht <;> simp [ht]
      have hqp : q ≠ p := by
        rintro rfl
        refine not_waits (m := m) (p := q) ?_ (hwaits q hp)
        rcases ht with ⟨x, ht⟩ | ht <;> rw [ht] <;> exact Call.awake_none
      refine hs.woken c' (.proc p) (i + 1) .wait p (by rw [hself, if_pos rfl]) ?_ ?_ (by omega) hp
      · rw [hlock]
        exact hi.locks.thread c' q .wait hq hheld
      · rw [hself, if_pos rfl]
        change (m.cpu c').proc ≠ some p
        rw [hi.proc_of_run hq]
        simpa using hqp
    · exact ⟨c', k, by rw [hself, if_neg hc, hw], hk⟩
  · rw [hthread] at hj
    exact h.scanned p j hj (hexited j p he)
  · have := h.told c' j p
    have := hwaits p hw
    have := (hslot j).1
    simp only [Thread.Told] at *
    grind
  · have := h.waker c' p i
    have := h.waker c' p k
    grind
  · have := h.telling c' j s chan i
    have := h.telling c' j s chan' k
    have := (hslot j).1
    grind

theorem Waiters.wakeup (h : Waiters m) (hi : Inv m) (hs : Sleepers m) (hp : Parents m) {chan : Chan}
    (a : WakeupStep) (ha : a.enabled m c chan) : Waiters (a.next m c chan) := by
  cases a with
  | visit i =>
    refine h.advance hi (hs.wakeup hi (.visit i) ha) ha.1 rfl rfl rfl fun q => ?_
    have hslot : ∀ s : Slot, (Slot.wakeup chan s).parent = s.parent ∧
        ((Slot.wakeup chan s).state = .zombie → s.state = .zombie) ∧
        ((Slot.wakeup chan s).state = .sleeping → s.state = .sleeping) := by
      intro s
      rw [Slot.wakeup]
      split_ifs <;> simp
    by_cases hqi : q = i
    · subst hqi
      simpa using hslot (m.slot q)
    · simp [hqi]
  | skip i => exact h.advance hi (hs.wakeup hi (.skip i) ha) ha.1 rfl rfl rfl fun q => ⟨rfl, id, id⟩
  | «return» =>
    have hwake : (m.cpu c).wake = some (chan, NPROC) := ha
    have hself : ∀ c', (WakeupStep.next m c chan .return).cpu c' =
        if c' = c then { m.cpu c with wake := none } else m.cpu c' := fun c' => by simp [update_apply]
    refine ⟨fun p j hp hj => ?_, h.scanned, fun c' j p hc ht hpar hw => ?_, fun c' p k hw => ?_,
      fun c' j s chan' k hc ht hw p hp => ?_⟩
    · obtain ⟨c', k, hw, hk⟩ := h.asleep p j hp hj
      have := p.isLt
      exact ⟨c', k, by grind, hk⟩
    · by_cases hcc : c' = c
      · -- `exit` returns from `wakeup(p->parent)`.
        subst hcc
        replace hc : (m.cpu c').mode = .run j := by grind
        rcases ht with ⟨⟨s, ht⟩, -⟩ | ht
        · obtain rfl := h.telling c' j s chan NPROC hc ht hwake p hpar
          have hheld : Lk.wait ∈ (m.thread j).held := by
            have ht : m.thread j = Sys.thread (.exitLock s) := ht
            simp [ht]
          refine hs.woken c' (.proc p) NPROC .wait p hwake (hi.locks.thread c' j .wait hc hheld) ?_
            p.isLt hw
          rw [hi.proc_of_run hc]
          rintro ⟨⟩
          exact hp.self _ hpar
        · exact h.told c' j p hc (.inr ht) hpar hw
      · rw [hself, if_neg hcc] at hc ht
        exact h.told c' j p hc ht hpar hw
    · obtain ⟨q, s, hq, ht⟩ := h.waker c' p k (by grind)
      exact ⟨q, s, by grind, ht⟩
    · exact h.telling c' j s chan' k (by grind) ht (by grind) p hp

theorem Waiters.step (h : Waiters m) (hi : Inv m) (hs : Sleepers m) (hp : Parents m)
    {l : Cpu × Label} (hstep : Step m l m') : Waiters m' := by
  obtain ⟨c, l⟩ := l
  obtain ⟨henabled, rfl⟩ := hstep
  cases l with
  | scheduler s => exact h.scheduler hi s henabled
  | irq s => exact h.irq hi s henabled
  | switch p sys k s => exact h.switch hi s henabled
  | code p L s => exact h.code hi s henabled
  | sleep p sys pc chan lk => exact h.sleep hi henabled
  | wakeup chan s => exact h.wakeup hi hs hp s henabled
  | kill p pid s => exact h.kill hi s henabled
  | fork p s => exact h.fork hi s henabled
  | exit p status s => exact h.exit hi s henabled
  | wait p addr s => exact h.wait hi s henabled

theorem boot_waiters (trapframe pagetable : ℕ) : Waiters (Machine.boot trapframe pagetable) := by
  have hstate : ∀ p, ((Machine.boot trapframe pagetable).slot p).state ≠ .zombie := fun p => by
    by_cases hp : p = ⟨0, by decide⟩ <;> simp [Machine.boot, hp, Slot.free]
  exact ⟨fun p j _ he => absurd he.2 (hstate j), fun p j _ he => hstate j he.2,
    by simp [Machine.boot], by simp [Machine.boot], by simp [Machine.boot]⟩

/-- What holds of parents, children and waiting processes in every state. -/
structure Family (m : Machine) : Prop where
  inv : Inv m
  sleepers : Sleepers m
  parents : Parents m
  records : Records m
  waiters : Waiters m

theorem Run.family {trapframe pagetable : ℕ} (h : Run trapframe pagetable m) : Family m := by
  refine h.invariant (P := Family) ⟨boot_inv _ _, boot_sleepers _ _, boot_parents _ _,
    boot_records _ _, boot_waiters _ _⟩ ?_
  rintro m l m' ⟨hi, hs, hp, hr, hw⟩ - hstep
  exact ⟨hi.step hstep, hs.step hi hstep, hp.step hi hstep, hr.step hi hstep,
    hw.step hi hs hp hstep⟩

theorem Thread.role_of_phase (h : t.phase = .dying ∨ t.phase = .dead) :
    t.sys.role = .exiting NPROC := by
  obtain ⟨s, k, f⟩ := t
  cases f with
  | none =>
    cases k with
    | none => cases s <;> simp_all [Sys.role]
    | sleep pc chan lk => cases pc <;> simp at h
  | _ => simp at h

theorem Family.live_parent (h : Family m) {j : Idx} (hunused : (m.slot j).state ≠ .unused)
    (hused : (m.slot j).state ≠ .used) (hinit : j ≠ m.initproc) :
    ∃ q, (m.slot j).parent = some q ∧ (m.slot q).state ≠ .unused ∧ (m.slot q).state ≠ .zombie := by
  obtain ⟨q, hq⟩ := Option.ne_none_iff_exists'.mp (h.parents.exists_parent j hunused hused hinit)
  obtain ⟨hstate, hrole⟩ := h.parents.live j q hq
  refine ⟨q, hq, hstate, fun hz => ?_⟩
  -- A process that has exited has dealt with all places.
  have hallows : (m.thread q).phase.Allows (m.slot q).state := h.inv.owner.allows q
  have hphase : (m.thread q).phase = .dying ∨ (m.thread q).phase = .dead := by
    cases hph : (m.thread q).phase <;> grind
  have hle := hrole NPROC (Thread.role_of_phase hphase)
  have hlt := j.isLt
  omega

/-- `exit` and `wait`. When `wait_lock` is free, every process that `fork` has made has a parent that is
in use and has not exited, and no process that sleeps in `wait` has a child that has. Each process that
has exited is returned by at most one `wait`, called by its parent, with the status given to `exit`. A
`wait` that fails in `copyout` frees nothing. -/
theorem exit_wait {trapframe pagetable : ℕ} (h : Run trapframe pagetable m) :
    (m.lock .wait = none → ∀ j, (m.slot j).state ≠ .unused → (m.slot j).state ≠ .used →
      j ≠ m.initproc → ∃ q, (m.slot j).parent = some q ∧ (m.slot q).state ≠ .unused ∧
        (m.slot q).state ≠ .zombie) ∧
    ((m.reaped.map Reap.child).Nodup ∧
      ∀ r ∈ m.reaped, r.parent = some r.caller ∧ m.exits r.child = some r.status) ∧
    (∀ c p addr havekids i m', Step m (c, .wait p addr (.copyout havekids i)) m' →
      m'.slot = m.slot ∧ m'.reaped = m.reaped ∧ m'.lock .wait = none ∧ m'.plock i = none ∧
        (m'.slot i).parent = some p ∧ (m'.slot i).state = .zombie) ∧
    (m.lock .wait = none → ∀ p j addr, m.thread p =
        ⟨.waitScan addr false 0, .sleep .tidy (.proc p) .wait, .none⟩ →
      (m.slot p).state = .sleeping → (m.slot j).parent = some p → (m.slot j).state ≠ .zombie) := by
  have hfam := Run.family h
  refine ⟨fun _ j h1 h2 h3 => hfam.live_parent h1 h2 h3, ⟨hfam.records.once, fun r hr => ?_⟩, ?_, ?_⟩
  · obtain ⟨hparent, hstatus, -⟩ := hfam.records.reaped r hr
    exact ⟨hparent, hstatus⟩
  · rintro c p addr havekids i m' ⟨⟨-, hparent, hlock, hstate, -⟩, rfl⟩
    have hfree : (update m.lock .wait none) .wait = none := update_self ..
    exact ⟨rfl, rfl, hfree, hlock, hparent, hstate⟩
  · intro hfree p j addr hthread hstate hparent hzombie
    have hwaits : m.Waits p := .inr (.inr ⟨by rw [hthread], hstate⟩)
    obtain ⟨c, i, hwake, -⟩ := hfam.waiters.asleep p j hwaits ⟨hparent, hzombie⟩
    -- The CPU that wakes up a parent holds the lock.
    obtain ⟨q, s, hq, ht⟩ := hfam.waiters.waker c p i hwake
    have hheld : Lk.wait ∈ (m.thread q).held := by
      rcases ht with ⟨x, ht⟩ | ht <;> simp [ht]
    have := hfam.inv.locks.thread c q .wait hq hheld
    rw [hfree] at this
    cases this

/-- The second process calls `exit(7)` on CPU 1, and the first one waits for it. -/
def waitRun : List (Cpu × Label) :=
  forkRun ++
  [(1, .scheduler (.skip proc0)), (1, .scheduler (.pick proc1)),
    (1, .switch proc1 (.code ∅) .none .forkret), (1, .code proc1 ∅ (.exit 7)),
    (1, .exit proc1 7 .acquire)] ++
  (List.finRange NPROC).map (fun i => (1, .exit proc1 7 (.other i))) ++
  [(1, .exit proc1 7 .wakeup)] ++
  (List.finRange NPROC).map (fun i =>
    (1, .wakeup (.proc proc0) (if i = proc1 then .skip i else .visit i))) ++
  [(1, .wakeup (.proc proc0) .return), (1, .exit proc1 7 .lock), (1, .exit proc1 7 .state),
    (1, .exit proc1 7 .release), (1, .exit proc1 7 .sched), (1, .scheduler (.back proc1)),
    (0, .code proc0 ∅ (.wait 0)), (0, .wait proc0 0 .acquire), (0, .wait proc0 0 (.other false proc0)),
    (0, .wait proc0 0 (.reap false proc1))]

/-- The first process gets the status of the second one. -/
theorem exit_wait_waitRun : ∃ m, Run 1 1 m ∧ ∃ r ∈ m.reaped, r.parent = some proc0 ∧
    m.exits r.child = some 7 := by
  have hrun : (Lib.execute next (fun _ _ => true) (Machine.boot 1 1) waitRun).map
      (fun m => m.reaped) = some [⟨1, some proc0, proc0, 7⟩] := by
    decide +kernel
  obtain ⟨m, hm, heq⟩ := Option.map_eq_some_iff.mp hrun
  have hmem : (⟨1, some proc0, proc0, 7⟩ : Reap) ∈ m.reaped := by
    rw [heq]
    exact List.mem_singleton_self _
  exact ⟨m, Run.execute hm, _, hmem, (exit_wait (Run.execute hm)).2.1.2 _ hmem⟩

end

end Xv6.Sched
