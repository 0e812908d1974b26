import Xv6.Virtio.Machine

/-!
# The protocol between the driver and the device

A chain belongs to one call of `virtio_disk_rw` from `alloc3_desc` to `free_chain`. Its head is in one of
four places while the request is not completed: in the avail ring, with the device before and after it has
performed the request, and in the used ring. All heads are different, so that none of the rings is ever
overrun.
-/

namespace Xv6.Virtio

open Function

/-- The descriptors of a chain. -/
def Chain.Has (x : Chain) (i : Idx) : Prop := i = x.i0 ∨ i = x.i1 ∨ i = x.i2

/-- The chain of a call. -/
def Pc.chain : Pc → Option Chain
  | .format _ _ x | .ring _ _ x | .bump _ _ x | .check _ _ x | .sleepBuf _ _ x | .finish _ _ x => some x
  | _ => none

/-- The buffer, the direction and the chain of a call whose descriptors are filled in. -/
def Pc.ready : Pc → Option (ℕ × Bool × Chain)
  | .ring b w x | .bump b w x | .check b w x | .sleepBuf b w x | .finish b w x => some (b, w, x)
  | _ => none

/-- The buffer and the chain of a call that the device knows of. -/
def Pc.sent : Pc → Option (ℕ × Chain)
  | .check b _ x | .sleepBuf b _ x | .finish b _ x => some (b, x)
  | _ => none

/-- The call holds `vdisk_lock`. -/
def Pc.locked : Pc → Bool
  | .idle | .enter _ _ | .sleepFree _ _ | .sleepBuf _ _ _ => false
  | _ => true

/-- The lock is held by the call that is in its critical section. -/
structure Locks (s : State) : Prop where
  proc : ∀ p, (s.pc p).locked = true → s.lock = some (.proc p)
  intr : ∀ h, s.intr h ≠ .idle → s.lock = some (.intr h)

/-- Chains of different calls are disjoint and consist of descriptors that are not free; all others are
free. -/
structure Chains (s : State) : Prop where
  nodup : ∀ p x, (s.pc p).chain = some x → x.i0 ≠ x.i1 ∧ x.i0 ≠ x.i2 ∧ x.i1 ≠ x.i2
  busy : ∀ p x i, (s.pc p).chain = some x → x.Has i → s.free i = false
  disjoint : ∀ p q x y i, (s.pc p).chain = some x → (s.pc q).chain = some y → x.Has i → y.Has i → p = q
  owned : ∀ i, s.free i = false → ∃ p x, (s.pc p).chain = some x ∧ x.Has i

/-- The descriptors of a request. -/
structure Formatted (s : State) (b : ℕ) (write : Bool) (x : Chain) : Prop where
  head : s.desc x.i0 = ⟨.op x.i0, 16, VRING_DESC_F_NEXT, x.i1⟩
  data : s.desc x.i1 =
    ⟨.data b, BSIZE, (if write then 0 else VRING_DESC_F_WRITE) ||| VRING_DESC_F_NEXT, x.i2⟩
  status : s.desc x.i2 = ⟨.status x.i0, 1, VRING_DESC_F_WRITE, 0⟩
  info : (s.info x.i0).b = some b

/-- Calls have different buffers, and their requests are written down. -/
structure Requests (s : State) : Prop where
  bufs : ∀ p q b, (s.pc p).buf = some b → (s.pc q).buf = some b → p = q
  formatted : ∀ p b w x, (s.pc p).ready = some (b, w, x) → Formatted s b w x
  armed : ∀ p b w x, s.pc p = .ring b w x ∨ s.pc p = .bump b w x → s.disk b = true
  finished : ∀ p b w x, s.pc p = .finish b w x → s.disk b = false

/-- The heads in the avail ring are `Q`, those in the used ring are `U`. -/
structure Flight (s : State) (Q U : List Idx) : Prop where
  avail : Lib.Entries s.availRing s.lastAvail Q
  availIdx : s.availIdx = s.lastAvail + BitVec.ofNat 16 Q.length
  used : Lib.Entries s.usedRing s.used_idx U
  usedIdx : s.usedIdx = s.used_idx + BitVec.ofNat 16 U.length
  nodup : (Q ++ s.taken ++ s.done ++ U).Nodup
  sent : ∀ i, i ∈ Q ++ s.taken ++ s.done ++ U →
    ∃ p b x, (s.pc p).sent = some (b, x) ∧ x.i0 = i ∧ s.disk b = true
  flying : ∀ p b x, (s.pc p).sent = some (b, x) → s.disk b = true → x.i0 ∈ Q ++ s.taken ++ s.done ++ U
  status : ∀ i, i ∈ s.done ++ U → (s.info i).status = 0
  ringed : ∀ p b w x, s.pc p = .bump b w x → s.availRing (Lib.place NUM s.availIdx) = x.i0
  read : ∀ h, s.intr h = .read → U ≠ []
  entry : ∀ h id, s.intr h = .entry id → U.head? = some id

/-- The requests of every buffer, counted. -/
structure Counts (s : State) (Q : List Idx) : Prop where
  completed : ∀ p b x, (s.pc p).sent = some (b, x) →
    s.published b = s.completed b + if s.disk b then 1 else 0
  performed : ∀ p b x, (s.pc p).sent = some (b, x) →
    s.published b = s.performed b + if x.i0 ∈ Q ++ s.taken then 1 else 0
  rest : ∀ b, (∀ p x, (s.pc p).sent ≠ some (b, x)) →
    s.published b = s.completed b ∧ s.published b = s.performed b

/-- The invariant of the driver and the device. -/
structure Inv (s : State) : Prop where
  locks : Locks s
  chains : Chains s
  requests : Requests s
  flight : ∃ Q U, Flight s Q U ∧ Counts s Q

section

variable {s s' : State} {p : ℕ} {x y : Pc} {b : ℕ} {w : Bool} {c : Chain} {Q U : List Idx}

theorem Pc.chain_of_ready (h : x.ready = some (b, w, c)) : x.chain = some c := by
  cases x <;> simp_all [Pc.ready, Pc.chain]

theorem Pc.ready_of_sent (h : x.sent = some (b, c)) : ∃ w, x.ready = some (b, w, c) := by
  cases x <;> simp_all [Pc.ready, Pc.sent]

theorem Pc.buf_of_ready (h : x.ready = some (b, w, c)) : x.buf = some b := by
  cases x <;> simp_all [Pc.ready, Pc.buf]

/-! ## Steps that leave the requests as they are -/

/-- A call is at another place with the same request. -/
structure Pc.Same (x y : Pc) : Prop where
  buf : x.buf = y.buf ∨ x.buf = none
  chain : x.chain = y.chain
  ready : x.ready = y.ready
  sent : x.sent = y.sent

theorem setPc_proj {β : Type} {f : Pc → β} (h : f x = f (s.pc p)) (q : ℕ) :
    f ((s.setPc p x).pc q) = f (s.pc q) := by
  by_cases hq : q = p
  · subst hq
    simpa [State.setPc] using h
  · simp [State.setPc, hq]

/-- Only the lock, the sleeping processes and the place of a call change. -/
def State.moved (s : State) (l : Option Holder) (a : ℕ → Option Chan) (p : ℕ) (x : Pc) : State :=
  { s with lock := l, asleep := a }.setPc p x

theorem Chains.move (h : Chains s) (l : Option Holder) (a : ℕ → Option Chan)
    (hx : x.chain = (s.pc p).chain) : Chains (s.moved l a p x) := by
  have hchain : ∀ q, ((s.moved l a p x).pc q).chain = (s.pc q).chain := setPc_proj hx
  refine ⟨fun q c hq => ?_, fun q c i hq => ?_, fun q r c d i hq hr => ?_, fun i hi => ?_⟩
  · rw [hchain] at hq
    exact h.nodup q c hq
  · rw [hchain] at hq
    exact h.busy q c i hq
  · rw [hchain] at hq hr
    exact h.disjoint q r c d i hq hr
  · obtain ⟨q, c, hq, hi⟩ := h.owned i hi
    exact ⟨q, c, by rw [hchain, hq], hi⟩

theorem Requests.move (h : Requests s) (l : Option Holder) (a : ℕ → Option Chan)
    (hb : x.buf = (s.pc p).buf ∨ x.buf = none) (hr : x.ready = (s.pc p).ready)
    (hring : ∀ b w c, x ≠ .ring b w c ∧ x ≠ .bump b w c)
    (hfinish : ∀ b w c, x = .finish b w c → s.disk b = false) : Requests (s.moved l a p x) := by
  refine ⟨fun q r b => ?_, fun q b w c hq => ?_, fun q b w c => ?_, fun q b w c => ?_⟩
  · have := h.bufs q r b
    simp only [State.moved, State.setPc, update_apply]
    grind
  · exact { h.formatted q b w c ((setPc_proj hr q).symm.trans hq) with }
  · have := h.armed q b w c
    simp only [State.moved, State.setPc, update_apply]
    grind
  · have := h.finished q b w c
    simp only [State.moved, State.setPc, update_apply]
    grind

theorem Flight.move (h : Flight s Q U) (l : Option Holder) (a : ℕ → Option Chan)
    (hs : x.sent = (s.pc p).sent) (hbump : ∀ b w c, x ≠ .bump b w c) : Flight (s.moved l a p x) Q U := by
  have hsent : ∀ q, ((s.moved l a p x).pc q).sent = (s.pc q).sent := setPc_proj hs
  refine ⟨h.avail, h.availIdx, h.used, h.usedIdx, h.nodup, fun i hi => ?_, fun q b c hq => ?_, h.status,
    fun q b w c hq => ?_, h.read, h.entry⟩
  · obtain ⟨q, b, c, hq, hi⟩ := h.sent i hi
    exact ⟨q, b, c, by rw [hsent, hq], hi⟩
  · rw [hsent] at hq
    exact h.flying q b c hq
  · have := h.ringed q b w c
    simp only [State.moved, State.setPc, update_apply] at hq ⊢
    grind

theorem Counts.move (h : Counts s Q) (l : Option Holder) (a : ℕ → Option Chan)
    (hs : x.sent = (s.pc p).sent) : Counts (s.moved l a p x) Q := by
  have hsent : ∀ q, ((s.moved l a p x).pc q).sent = (s.pc q).sent := setPc_proj hs
  refine ⟨fun q b c hq => ?_, fun q b c hq => ?_, fun b hb => h.rest b fun q c => ?_⟩
  · rw [hsent] at hq
    exact h.completed q b c hq
  · rw [hsent] at hq
    exact h.performed q b c hq
  · rw [← hsent]
    exact hb q c

theorem Inv.move (h : Inv s) (l : Option Holder) (a : ℕ → Option Chan) (hx : x.Same (s.pc p))
    (hring : ∀ b w c, x ≠ .ring b w c ∧ x ≠ .bump b w c)
    (hfinish : ∀ b w c, x = .finish b w c → s.disk b = false) (hlocks : Locks (s.moved l a p x)) :
    Inv (s.moved l a p x) := by
  obtain ⟨Q, U, hflight, hcounts⟩ := h.flight
  exact ⟨hlocks, h.chains.move l a hx.chain, h.requests.move l a hx.buf hx.ready hring hfinish, Q, U,
    hflight.move l a hx.sent fun b w c => (hring b w c).2, hcounts.move l a hx.sent⟩

/-! ## The lock -/

theorem Locks.move (h : Locks s) (hp : (s.pc p).locked = true) {t : State}
    (hpc : t.pc = update s.pc p x) (hintr : t.intr = s.intr)
    (hlock : x.locked = true ∧ t.lock = s.lock ∨ x.locked = false ∧ t.lock = none) : Locks t := by
  have hlk := h.proc p hp
  refine ⟨fun q => ?_, fun i => ?_⟩
  · have := h.proc q
    rw [hpc, update_apply]
    grind
  · have := h.intr i
    grind

theorem Locks.acquire (h : Locks s) (hfree : s.lock = none) {t : State}
    (hpc : t.pc = update s.pc p x) (hintr : t.intr = s.intr)
    (hlock : t.lock = some (.proc p)) : Locks t := by
  refine ⟨fun q => ?_, fun i => ?_⟩
  · have := h.proc q
    rw [hpc, update_apply]
    grind
  · have := h.intr i
    grind

theorem Locks.unlocked (h : Locks s) {t : State} (hpc : t.pc = update s.pc p x)
    (hintr : t.intr = s.intr) (hlock : t.lock = s.lock) (hx : x.locked = false) : Locks t := by
  refine ⟨fun q => ?_, fun i => ?_⟩
  · have := h.proc q
    rw [hpc, update_apply]
    grind
  · have := h.intr i
    grind

theorem Locks.setIntr (h : Locks s) {i : ℕ} {z : IntrPc} {t : State} (hpc : t.pc = s.pc)
    (hintr : t.intr = update s.intr i z)
    (hlock : (s.lock = none ∨ s.lock = some (.intr i)) ∧ (z ≠ .idle ∧ t.lock = some (.intr i) ∨
      z = .idle ∧ t.lock = none)) : Locks t := by
  refine ⟨fun q => ?_, fun j => ?_⟩
  · have := h.proc q
    grind
  · have := h.intr j
    rw [hintr, update_apply]
    grind

/-! ## Descriptors -/

theorem freeDesc_of_busy {i : Idx} (h : s.free i = false) : s.freeDesc i = .ok (s.clearDesc i) := by
  rw [State.freeDesc, dif_pos i.isLt]
  simp [h]

theorem allocDesc_cases (s : State) :
    (∃ i, s.free i = true ∧ s.allocDesc = (some i, { s with free := update s.free i false })) ∨
      s.allocDesc = (none, s) := by
  cases hfind : s.findFree with
  | none => exact .inr (by rw [State.allocDesc, hfind])
  | some i =>
    have hfree : s.free i = true := by
      have := List.find?_some hfind
      simpa using this
    exact .inl ⟨i, hfree, by rw [State.allocDesc, hfind]⟩

/-- The descriptors of a chain are taken. -/
def State.allocated (s : State) (c : Chain) : State :=
  { s with
    free := update (update (update s.free c.i0 false) c.i1 false)
      c.i2 false }

/-- `alloc3_desc` takes three descriptors that were free, or fails and leaves those that are in use as
they are. -/
theorem alloc3Desc_spec (s : State) :
    (∃ c : Chain, (c.i0 ≠ c.i1 ∧ c.i0 ≠ c.i2 ∧ c.i1 ≠ c.i2) ∧ (∀ i, c.Has i → s.free i = true) ∧
      s.alloc3Desc = .ok (some c, s.allocated c)) ∨
    ∃ d a, (∀ i, s.free i = false → d i = s.desc i) ∧
      s.alloc3Desc = .ok (none, { s with desc := d, asleep := a }) := by
  rw [State.alloc3Desc]
  rcases allocDesc_cases s with ⟨i0, h0, heq0⟩ | heq0
  swap
  · exact .inr ⟨s.desc, s.asleep, fun _ _ => rfl, by rw [heq0]⟩
  rw [heq0]
  rcases allocDesc_cases { s with free := update s.free i0 false } with
    ⟨i1, h1, heq1⟩ | heq1
  swap
  · -- The first one is given back.
    have hbusy : ({ s with free := update s.free i0 false } : State).free i0 = false := by simp
    have hfree : update (update s.free i0 false) i0 true = s.free := by
      rw [update_idem, ← h0, update_eq_self]
    refine .inr ⟨update s.desc i0 ⟨.null, 0, 0, 0⟩,
      fun p => if s.asleep p = some .free then none else s.asleep p, fun i hi => ?_, ?_⟩
    · have : i ≠ i0 := by
        rintro rfl
        rw [h0] at hi
        cases hi
      simp [this]
    · simp only [heq1, freeDesc_of_busy hbusy]
      simp only [State.clearDesc, State.wakeup, hfree]
      rfl
  have h01 : i1 ≠ i0 := by
    rintro rfl
    simp at h1
  have h1 : s.free i1 = true := by simpa [h01] using h1
  simp only [heq1]
  rcases allocDesc_cases ({ s with free := update (update s.free i0 false) i1 false } :
    State) with ⟨i2, h2, heq2⟩ | heq2
  swap
  · -- Both are given back.
    have hbusy0 : ({ s with free := update (update s.free i0 false) i1 false } :
        State).free i0 = false := by simp [h01.symm]
    have hbusy1 : (State.clearDesc { s with
        free := update (update s.free i0 false) i1 false } i0).free i1 = false := by
      simp [State.clearDesc, State.wakeup, h01]
    have hfree : update (update (update (update s.free i0 false) i1
        false) i0 true) i1 true = s.free := by
      funext j
      simp only [update_apply]
      grind
    refine .inr ⟨update (update s.desc i0 ⟨.null, 0, 0, 0⟩) i1 ⟨.null, 0, 0, 0⟩,
      ((s.wakeup .free).wakeup .free).asleep, fun i hi => ?_, ?_⟩
    rotate_left
    · simp only [heq2, freeDesc_of_busy hbusy0, bind, Except.bind, freeDesc_of_busy hbusy1]
      simp only [State.clearDesc, State.wakeup, hfree]
      rfl
    · have hi0 : i ≠ i0 := by
        rintro rfl
        rw [h0] at hi
        cases hi
      have hi1 : i ≠ i1 := by
        rintro rfl
        rw [h1] at hi
        cases hi
      simp [hi0, hi1]
  have h12 : i2 ≠ i1 := by
    rintro rfl
    simp at h2
  have h02 : i2 ≠ i0 := by
    rintro rfl
    simp [h01.symm] at h2
  have h2 : s.free i2 = true := by simpa [h12, h02] using h2
  refine .inl ⟨⟨i0, i1, i2⟩, ⟨h01.symm, h02.symm, h12.symm⟩, fun i hi => ?_,
    by simp only [heq2, State.allocated]⟩
  rcases hi with rfl | rfl | rfl
  · exact h0
  · exact h1
  · exact h2

/-- The descriptors of a chain are given back. -/
def State.cleared (s : State) (c : Chain) : State :=
  ((s.clearDesc c.i0).clearDesc c.i1).clearDesc c.i2

/-- `free_chain` frees the three descriptors of a request. -/
theorem freeChain_spec (hf : Formatted s b w c) (hne : c.i0 ≠ c.i1 ∧ c.i0 ≠ c.i2 ∧ c.i1 ≠ c.i2)
    (hbusy : ∀ i, c.Has i → s.free i = false) (info : Idx → Info) :
    State.freeChain (NUM + 1) { s with info := info } c.i0 =
      .ok ({ s with info := info }.cleared c) := by
  obtain ⟨h01, h02, h12⟩ := hne
  have hfin : ∀ i : Idx, Fin.ofNat NUM i.val = i := fun i => Fin.ext (Nat.mod_eq_of_lt i.isLt)
  have hb0 : ({ s with info := info } : State).free c.i0 = false := hbusy _ (.inl rfl)
  have hb1 : (State.clearDesc { s with info := info } c.i0).free c.i1 = false := by
    simpa [State.clearDesc, State.wakeup, h01.symm] using hbusy _ (.inr (.inl rfl))
  have hb2 : ((State.clearDesc { s with info := info } c.i0).clearDesc c.i1).free c.i2 = false := by
    simpa [State.clearDesc, State.wakeup, h02.symm, h12.symm] using hbusy _ (.inr (.inr rfl))
  have hd1 : (State.clearDesc { s with info := info } c.i0).desc c.i1 = s.desc c.i1 := by
    simp [State.clearDesc, State.wakeup, h01.symm]
  have hd2 : ((State.clearDesc { s with info := info } c.i0).clearDesc c.i1).desc c.i2 =
      s.desc c.i2 := by
    simp [State.clearDesc, State.wakeup, h02.symm, h12.symm]
  have hflag0 : VRING_DESC_F_NEXT &&& VRING_DESC_F_NEXT ≠ 0 := by decide
  have hflag1 : ((if w then 0 else VRING_DESC_F_WRITE) ||| VRING_DESC_F_NEXT) &&& VRING_DESC_F_NEXT ≠ 0 := by
    cases w <;> decide
  have hflag2 : ¬(VRING_DESC_F_WRITE &&& VRING_DESC_F_NEXT ≠ 0) := by decide
  change State.freeChain 9 _ _ = _
  simp only [State.freeChain, hfin, hf.head, freeDesc_of_busy hb0, bind, Except.bind, if_pos hflag0, hd1,
    hf.data, freeDesc_of_busy hb1, if_pos hflag1, hd2, hf.status, freeDesc_of_busy hb2, if_neg hflag2]
  rfl

end

end Xv6.Virtio
