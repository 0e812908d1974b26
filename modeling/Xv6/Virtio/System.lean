import Xv6.Virtio.Protocol

/-!
# Runs of the driver and the device

Every step keeps the invariant of the protocol, and none of them panics.
-/

namespace Xv6.Virtio

open Function Lib

section

variable {s s' : State} {p : ℕ} {b : ℕ} {w : Bool} {c : Chain} {Q U : List Idx} {i : Idx}

/-! ## Heads -/

theorem mem_heads (h : i ∈ s.done ++ U) : i ∈ Q ++ s.taken ++ s.done ++ U := by
  rw [List.append_assoc]
  exact List.mem_append_right _ h

theorem Flight.not_mem (h : Flight s Q U) (hc : Chains s) (hp : (s.pc p).chain = some c)
    (hsent : ∀ b c, (s.pc p).sent = some (b, c) → s.disk b = false) :
    c.i0 ∉ Q ++ s.taken ++ s.done ++ U := by
  intro hmem
  obtain ⟨q, b', d, hq, hd, hdisk⟩ := h.sent _ hmem
  obtain ⟨w', hready⟩ := Pc.ready_of_sent hq
  obtain rfl : q = p := hc.disjoint q p d c c.i0 (Pc.chain_of_ready hready) hp (.inl hd.symm) (.inl rfl)
  rw [hsent b' d hq] at hdisk
  cases hdisk

theorem Flight.availIdx_ne (h : Flight s Q U) (hi : i ∉ Q ++ s.taken ++ s.done ++ U) :
    Q.length < NUM := by
  have hnodup : (i :: Q).Nodup := by
    have hQ : Q.Nodup := ((h.nodup.of_append_left).of_append_left).of_append_left
    exact List.nodup_cons.mpr ⟨fun hmem => hi (by simp [hmem]), hQ⟩
  have hle := hnodup.length_le_card
  simp only [List.length_cons, Fintype.card_fin] at hle
  omega

theorem Flight.owner (h : Flight s Q U) (hr : Requests s)
    (hi : i ∈ Q ++ s.taken ++ s.done ++ U) : ∃ p b w c, (s.pc p).sent = some (b, c) ∧
      (s.pc p).ready = some (b, w, c) ∧ c.i0 = i ∧ s.disk b = true ∧ Formatted s b w c := by
  obtain ⟨p, b, c, hp, hc, hdisk⟩ := h.sent i hi
  obtain ⟨w, hready⟩ := Pc.ready_of_sent hp
  exact ⟨p, b, w, c, hp, hready, hc, hdisk, hr.formatted p b w c hready⟩

theorem Inv.head_inj (h : Inv s) {q : ℕ} {b' : ℕ} {d : Chain} (hp : (s.pc p).sent = some (b, c))
    (hq : (s.pc q).sent = some (b', d)) (hhead : c.i0 = d.i0) : p = q := by
  obtain ⟨w, hp⟩ := Pc.ready_of_sent hp
  obtain ⟨w', hq⟩ := Pc.ready_of_sent hq
  exact h.chains.disjoint p q c d c.i0 (Pc.chain_of_ready hp) (Pc.chain_of_ready hq) (.inl rfl)
    (.inl hhead)

theorem Inv.buf_inj (h : Inv s) {q : ℕ} {d : Chain} (hp : (s.pc p).sent = some (b, c))
    (hq : (s.pc q).sent = some (b, d)) : p = q := by
  obtain ⟨w, hp⟩ := Pc.ready_of_sent hp
  obtain ⟨w', hq⟩ := Pc.ready_of_sent hq
  exact h.requests.bufs p q b (Pc.buf_of_ready hp) (Pc.buf_of_ready hq)

theorem Locks.unique (h : Locks s) {q : ℕ} (hq : (s.pc q).locked = true) (hp : (s.pc p).locked = true) :
    q = p := by
  have hlock := h.proc q hq
  rw [h.proc p hp] at hlock
  cases hlock
  rfl

/-- The requests of two calls have different buffers and no descriptor in common. -/
theorem Inv.apart (h : Inv s) (hb : (s.pc p).buf = some b) (hc : (s.pc p).chain = some c) {q b' : ℕ}
    {w' : Bool} {d : Chain} (hq : (s.pc q).ready = some (b', w', d)) (hqp : q ≠ p) :
    b' ≠ b ∧ ¬c.Has d.i0 ∧ ¬c.Has d.i1 ∧ ¬c.Has d.i2 := by
  have hdis : ∀ i, d.Has i → ¬c.Has i := fun i hd hi =>
    hqp (h.chains.disjoint q p d c i (Pc.chain_of_ready hq) hc hd hi)
  refine ⟨?_, hdis _ (.inl rfl), hdis _ (.inr (.inl rfl)), hdis _ (.inr (.inr rfl))⟩
  rintro rfl
  exact hqp (h.requests.bufs q p b' (Pc.buf_of_ready hq) hb)

/-! ## `virtio_disk_rw` -/

attribute [local grind =] Pc.chain Pc.buf Pc.ready Pc.sent Pc.locked Chain.Has
attribute [local grind →] Pc.chain_of_ready Pc.buf_of_ready Pc.ready_of_sent

theorem Inv.setDesc (h : Inv s) {d : Idx → Desc} (hd : ∀ i, s.free i = false → d i = s.desc i) :
    Inv { s with desc := d } := by
  obtain ⟨Q, U, hflight, hcounts⟩ := h.flight
  refine ⟨⟨h.locks.proc, h.locks.intr⟩, { h.chains with },
    ⟨h.requests.bufs, fun p b w c hp => ?_, h.requests.armed, h.requests.finished⟩,
    Q, U, ?_, ?_⟩
  · obtain ⟨h0, h1, h2, h3⟩ := h.requests.formatted p b w c hp
    have hbusy : ∀ i, c.Has i → s.free i = false := fun i =>
      h.chains.busy p c i (Pc.chain_of_ready hp)
    refine ⟨?_, ?_, ?_, h3⟩
    · exact (hd _ (hbusy _ (.inl rfl))).trans h0
    · exact (hd _ (hbusy _ (.inr (.inl rfl)))).trans h1
    · exact (hd _ (hbusy _ (.inr (.inr rfl)))).trans h2
  · exact { hflight with }
  · exact { hcounts with }

theorem Inv.alloc (h : Inv s) (hpc : s.pc p = .alloc b w)
    (hne : c.i0 ≠ c.i1 ∧ c.i0 ≠ c.i2 ∧ c.i1 ≠ c.i2) (hfree : ∀ i, c.Has i → s.free i = true) :
    Inv ((s.allocated c).setPc p (.format b w c)) := by
  obtain ⟨Q, U, hflight, hcounts⟩ := h.flight
  have hreq := h.requests.move (p := p) (x := .format b w c) s.lock s.asleep (.inl (by rw [hpc]; rfl))
    (by rw [hpc]; rfl) (by simp) (by simp)
  have hfl := hflight.move (p := p) (x := .format b w c) s.lock s.asleep (by rw [hpc]; rfl) (by simp)
  have hco := hcounts.move (p := p) (x := .format b w c) s.lock s.asleep (by rw [hpc]; rfl)
  refine ⟨?_, ⟨fun q d => ?_, fun q d i => ?_, fun q r d e i => ?_, fun i hi => ?_⟩,
    ⟨hreq.bufs, fun q b' w' d hq => { hreq.formatted q b' w' d hq with }, hreq.armed, hreq.finished⟩, Q, U,
    { hfl with }, { hco with }⟩
  · exact h.locks.move (p := p) (by rw [hpc]; rfl) rfl rfl (.inl ⟨rfl, rfl⟩)
  · have := h.chains.nodup q d
    simp only [State.setPc, State.allocated, update_apply]
    grind
  · have := h.chains.busy q d i
    simp only [State.setPc, State.allocated, update_apply]
    grind
  · -- What was free belonged to nobody.
    have := h.chains.disjoint q r d e i
    have := h.chains.busy q d i
    have := h.chains.busy r e i
    have := hfree i
    simp only [State.setPc, State.allocated, update_apply]
    grind
  · by_cases hc : c.Has i
    · exact ⟨p, c, by simp [State.setPc, Pc.chain], hc⟩
    · obtain ⟨q, d, hq, hd⟩ := h.chains.owned i (by
        simp only [State.setPc, State.allocated, update_apply] at hi
        grind)
      refine ⟨q, d, ?_, hd⟩
      simp only [State.setPc, State.allocated, update_apply]
      grind

theorem Inv.format (h : Inv s) (hpc : s.pc p = .format b w c) :
    Inv ((s.format b w c).setPc p (.ring b w c)) := by
  obtain ⟨Q, U, hflight, hcounts⟩ := h.flight
  have hchain : (s.pc p).chain = some c := by rw [hpc]; rfl
  have hne := h.chains.nodup p c hchain
  have hother : ∀ q b' w' d, (s.pc q).ready = some (b', w', d) → q ≠ p → _ := fun q b' w' d =>
    h.apart (b := b) (by rw [hpc]; rfl) hchain
  have hsent : ∀ q b' d, (s.pc q).sent = some (b', d) → q ≠ p ∧ b' ≠ b ∧ d.i0 ≠ c.i0 := by
    intro q b' d hq
    obtain ⟨w', hready⟩ := Pc.ready_of_sent hq
    have := hother q b' w' d hready
    grind
  refine ⟨h.locks.move (p := p) (by rw [hpc]; rfl) rfl rfl (.inl ⟨rfl, rfl⟩), ?_,
    ⟨fun q r b' => ?_, fun q b' w' d hq => ?_, fun q b' w' d => ?_, fun q b' w' d => ?_⟩, Q, U,
    { hflight with
      sent := fun i hi => ?_
      flying := fun q b' d => ?_
      status := fun i hi => ?_
      ringed := fun q b' w' d => ?_ },
    ⟨fun q b' d => ?_, fun q b' d => ?_, fun b' hb' => hcounts.rest b' fun q d hq => hb' q d ?_⟩⟩
  · exact { h.chains.move (p := p) (x := .ring b w c) s.lock s.asleep (by rw [hpc]; rfl) with }
  · have := h.requests.bufs q r b'
    simp only [State.setPc, State.format, update_apply]
    grind
  · -- The requests of others are not touched.
    have := h.requests.formatted q b' w' d
    have := hother q b' w' d
    simp only [State.setPc, State.format, update_apply] at hq
    refine ⟨?_, ?_, ?_, ?_⟩ <;> simp only [State.setPc, State.format, update_apply] <;> grind [Formatted]
  · have := h.requests.armed q b' w' d
    simp only [State.setPc, State.format, update_apply]
    grind
  · have := h.requests.finished q b' w' d
    have := hother q b' w' d
    simp only [State.setPc, State.format, update_apply]
    grind
  · obtain ⟨q, b', d, hq, hd, hb⟩ := hflight.sent i hi
    refine ⟨q, b', d, ?_, hd, ?_⟩ <;> simp only [State.setPc, State.format, update_apply] <;> grind
  · have := hflight.flying q b' d
    simp only [State.setPc, State.format, update_apply]
    grind
  · obtain ⟨q, b', d, hq, rfl, -⟩ := hflight.sent i (mem_heads hi)
    have := hflight.status _ hi
    simp only [State.setPc, State.format, update_apply]
    grind
  · have := hflight.ringed q b' w' d
    simp only [State.setPc, State.format, update_apply]
    grind
  · have := hcounts.completed q b' d
    simp only [State.setPc, State.format, update_apply]
    grind
  · have := hcounts.performed q b' d
    simp only [State.setPc, State.format, update_apply]
    grind
  · simp only [State.setPc, State.format, update_apply]
    grind

theorem Inv.ring (h : Inv s) (hpc : s.pc p = .ring b w c) :
    Inv ({ s with availRing := update s.availRing (place NUM s.availIdx) c.i0 }.setPc p
      (.bump b w c)) := by
  obtain ⟨Q, U, hflight, hcounts⟩ := h.flight
  have hlocked : (s.pc p).locked = true := by rw [hpc]; rfl
  have hlen := hflight.availIdx_ne (hflight.not_mem h.chains (p := p) (c := c) (by rw [hpc]; rfl)
    (by rw [hpc]; rintro b d ⟨⟩))
  have hready : ∀ q, ((s.moved s.lock s.asleep p (.bump b w c)).pc q).ready = (s.pc q).ready :=
    setPc_proj (by rw [hpc]; rfl)
  refine ⟨h.locks.move hlocked rfl rfl (.inl ⟨rfl, rfl⟩),
    { h.chains.move (p := p) (x := .bump b w c) s.lock s.asleep (by rw [hpc]; rfl) with },
    ⟨fun q r b' => ?_, fun q b' w' d hq => ?_, fun q b' w' d => ?_, fun q b' w' d => ?_⟩, Q, U,
    ⟨?_, hflight.availIdx, hflight.used, hflight.usedIdx, hflight.nodup, fun i hi => ?_,
      fun q b' d => ?_, hflight.status, fun q b' w' d => ?_, hflight.read, hflight.entry⟩,
    { hcounts.move (p := p) (x := .bump b w c) s.lock s.asleep (by rw [hpc]; rfl) with }⟩
  · have := h.requests.bufs q r b'
    simp only [State.setPc, update_apply]
    grind
  · exact { h.requests.formatted q b' w' d ((hready q).symm.trans hq) with }
  · have := h.requests.armed q b' w' d
    simp only [State.setPc, update_apply]
    grind
  · have := h.requests.finished q b' w' d
    simp only [State.setPc, update_apply]
    grind
  · -- The place is behind all entries that the device has not taken.
    have := hflight.avail.write (by decide) hlen c.i0
    rwa [← hflight.availIdx] at this
  · obtain ⟨q, b', d, hq, hd⟩ := hflight.sent i hi
    refine ⟨q, b', d, ?_, hd⟩
    simp only [State.setPc, update_apply]
    grind
  · have := hflight.flying q b' d
    simp only [State.setPc, update_apply]
    grind
  · have := fun hq => h.locks.unique (q := q) hq hlocked
    simp only [State.setPc, update_apply]
    grind

theorem Inv.bump (h : Inv s) (hpc : s.pc p = .bump b w c) :
    Inv ({ s with
      availIdx := s.availIdx + 1
      published := update s.published b (s.published b + 1) }.setPc p (.check b w c)) := by
  obtain ⟨Q, U, hflight, hcounts⟩ := h.flight
  have hlocked : (s.pc p).locked = true := by rw [hpc]; rfl
  have hchain : (s.pc p).chain = some c := by rw [hpc]; rfl
  have hnot := hflight.not_mem h.chains hchain (by rw [hpc]; rintro b d ⟨⟩)
  have hdisk : s.disk b = true := h.requests.armed p b w c (.inr hpc)
  have hreq := h.requests.move (p := p) (x := .check b w c) s.lock s.asleep (.inl (by rw [hpc]; rfl))
    (by rw [hpc]; rfl) (by simp) (by simp)
  -- The requests that the device knew of have other heads and buffers.
  have hother : ∀ q b' d, (s.pc q).sent = some (b', d) → q ≠ p ∧ b' ≠ b ∧ d.i0 ≠ c.i0 := by
    intro q b' d hq
    obtain ⟨w', hready⟩ := Pc.ready_of_sent hq
    have := h.apart (p := p) (b := b) (by rw [hpc]; rfl) hchain hready
    grind
  -- Before, all requests for this buffer were completed.
  have hrest := hcounts.rest b fun q d hq => (hother q b d hq).2.1 rfl
  have hperm : (Q ++ [c.i0] ++ s.taken ++ s.done ++ U).Perm (c.i0 :: (Q ++ s.taken ++ s.done ++ U)) := by
    simp only [List.append_assoc, List.singleton_append]
    exact List.perm_middle
  refine ⟨h.locks.move hlocked rfl rfl (.inl ⟨rfl, rfl⟩),
    { h.chains.move (p := p) (x := .check b w c) s.lock s.asleep (by rw [hpc]; rfl) with },
    ⟨hreq.bufs, fun q b' w' d hq => { hreq.formatted q b' w' d hq with }, hreq.armed, hreq.finished⟩,
    Q ++ [c.i0], U,
    ⟨?_, ?_, hflight.used, hflight.usedIdx, ?_, fun i hi => ?_, fun q b' d => ?_, hflight.status,
      fun q b' w' d => ?_, hflight.read, hflight.entry⟩,
    ⟨fun q b' d => ?_, fun q b' d => ?_, fun b' hb' => ?_⟩⟩
  · refine hflight.avail.push ?_
    rw [← hflight.availIdx]
    exact hflight.ringed p b w c hpc
  · change s.availIdx + 1 = s.lastAvail + BitVec.ofNat 16 (Q ++ [c.i0]).length
    rw [hflight.availIdx, List.length_append, List.length_singleton, BitVec.ofNat_add, BitVec.add_assoc]
    rfl
  · exact hperm.nodup_iff.mpr (List.nodup_cons.mpr ⟨hnot, hflight.nodup⟩)
  · rcases List.mem_cons.mp (hperm.mem_iff.mp hi) with rfl | hi
    · exact ⟨p, b, c, by simp [State.setPc, Pc.sent], rfl, hdisk⟩
    · obtain ⟨q, b', d, hq, hd⟩ := hflight.sent i hi
      exact ⟨q, b', d, by simp [State.setPc, (hother q b' d hq).1, hq], hd⟩
  · have := hflight.flying q b' d
    simp only [State.setPc, update_apply]
    rw [hperm.mem_iff, List.mem_cons]
    grind
  · have := fun hq => h.locks.unique (q := q) (p := p) hq hlocked
    simp only [State.setPc, update_apply]
    grind
  · have := hcounts.completed q b' d
    simp only [State.setPc, update_apply]
    grind
  · have := hcounts.performed q b' d
    simp only [State.setPc, update_apply]
    grind
  · have := hb' p c
    have := hcounts.rest b' fun q d hq => hb' q d (by simp [State.setPc, (hother q b' d hq).1, hq])
    simp only [State.setPc, update_apply] at *
    grind

theorem Inv.finish (h : Inv s) (hpc : s.pc p = .finish b w c) :
    Inv (({ s with info := update s.info c.i0 { s.info c.i0 with b := none } }.cleared c).setPc p
      (.leave b w)) := by
  obtain ⟨Q, U, hflight, hcounts⟩ := h.flight
  have hchain : (s.pc p).chain = some c := by rw [hpc]; rfl
  have hself : (s.pc p).sent = some (b, c) := by rw [hpc]; rfl
  have hdisk : s.disk b = false := h.requests.finished p b w c hpc
  have hnot := hflight.not_mem h.chains hchain (by rw [hpc]; rintro b' d ⟨⟩; exact hdisk)
  have hother : ∀ q b' w' d, (s.pc q).ready = some (b', w', d) → q ≠ p → _ := fun q b' w' d =>
    h.apart (b := b) (by rw [hpc]; rfl) hchain
  refine ⟨h.locks.move (p := p) (x := .leave b w) (by rw [hpc]; rfl) rfl rfl (.inl ⟨rfl, rfl⟩),
    ⟨fun q d => ?_, fun q d i => ?_, fun q r d e i => ?_, fun i hi => ?_⟩,
    ⟨fun q r b' => ?_, fun q b' w' d hq => ?_, fun q b' w' d => ?_, fun q b' w' d => ?_⟩, Q, U,
    { hflight with
      sent := fun i hi => ?_
      flying := fun q b' d => ?_
      status := fun i hi => ?_
      ringed := fun q b' w' d => ?_ },
    ⟨fun q b' d => ?_, fun q b' d => ?_, fun b' hb' => ?_⟩⟩
  · have := h.chains.nodup q d
    simp only [State.setPc, State.cleared, State.clearDesc, State.wakeup, update_apply]
    grind
  · have := h.chains.busy q d i
    have := h.chains.disjoint q p d c i
    simp only [State.setPc, State.cleared, State.clearDesc, State.wakeup, update_apply]
    grind
  · have := h.chains.disjoint q r d e i
    simp only [State.setPc, State.cleared, State.clearDesc, State.wakeup, update_apply]
    grind
  · simp only [State.setPc, State.cleared, State.clearDesc, State.wakeup, update_apply] at hi ⊢
    obtain ⟨q, d, hq, hd⟩ := h.chains.owned i (by grind)
    exact ⟨q, d, by grind, hd⟩
  · have := h.requests.bufs q r b'
    simp only [State.setPc, State.cleared, State.clearDesc, State.wakeup, update_apply]
    grind
  · have := h.requests.formatted q b' w' d
    have := hother q b' w' d
    simp only [State.setPc, State.cleared, State.clearDesc, State.wakeup, update_apply] at hq
    refine ⟨?_, ?_, ?_, ?_⟩ <;>
      simp only [State.setPc, State.cleared, State.clearDesc, State.wakeup, update_apply] <;> grind [Formatted]
  · have := h.requests.armed q b' w' d
    simp only [State.setPc, State.cleared, State.clearDesc, State.wakeup, update_apply]
    grind
  · have := h.requests.finished q b' w' d
    simp only [State.setPc, State.cleared, State.clearDesc, State.wakeup, update_apply]
    grind
  · obtain ⟨q, b', d, hq, hd, hb⟩ := hflight.sent i hi
    refine ⟨q, b', d, ?_, hd, hb⟩
    simp only [State.setPc, State.cleared, State.clearDesc, State.wakeup, update_apply]
    grind
  · have := hflight.flying q b' d
    simp only [State.setPc, State.cleared, State.clearDesc, State.wakeup, update_apply]
    grind
  · have := hflight.status i hi
    simp only [State.setPc, State.cleared, State.clearDesc, State.wakeup, update_apply]
    grind
  · have := hflight.ringed q b' w' d
    simp only [State.setPc, State.cleared, State.clearDesc, State.wakeup, update_apply]
    grind
  · have := hcounts.completed q b' d
    simp only [State.setPc, State.cleared, State.clearDesc, State.wakeup, update_apply]
    grind
  · have := hcounts.performed q b' d
    simp only [State.setPc, State.cleared, State.clearDesc, State.wakeup, update_apply]
    grind
  · -- The request of this call is completed.
    have := hcounts.completed p b c hself
    have := hcounts.performed p b c hself
    have := hcounts.rest b'
    simp only [State.setPc, State.cleared, State.clearDesc, State.wakeup, update_apply] at hb' ⊢
    grind

/-! ## `virtio_disk_intr` -/

theorem Inv.setIntr (h : Inv s) {k : ℕ} {z : IntrPc} {l : Option Holder}
    (hlocks : Locks ({ s with lock := l }.setIntr k z))
    (hz : ∀ Q U, Flight s Q U → (z = .read → U ≠ []) ∧ ∀ id, z = .entry id → U.head? = some id) :
    Inv ({ s with lock := l }.setIntr k z) := by
  obtain ⟨Q, U, hflight, hcounts⟩ := h.flight
  obtain ⟨hread, hentry⟩ := hz Q U hflight
  have hintr : ∀ j, ({ s with lock := l }.setIntr k z).intr j = if j = k then z else s.intr j :=
    update_apply _ _ _
  refine ⟨hlocks, { h.chains with },
    ⟨h.requests.bufs, fun q b w c hq => ?_, h.requests.armed, h.requests.finished⟩, Q, U,
    { hflight with read := fun j hj => ?_, entry := fun j id hj => ?_ },
    { hcounts with }⟩
  · exact { h.requests.formatted q b w c hq with }
  · rw [hintr] at hj
    split_ifs at hj
    · exact hread hj
    · exact hflight.read j hj
  · rw [hintr] at hj
    split_ifs at hj
    · exact hentry id hj
    · exact hflight.entry j id hj

/-- The entry of the used ring belongs to a request that the device has performed. -/
theorem Inv.entry (h : Inv s) {k : ℕ} {id : Idx} (hk : s.intr k = .entry id) :
    ∃ p b c, (s.pc p).sent = some (b, c) ∧ c.i0 = id ∧ s.disk b = true ∧ s.info id = ⟨some b, 0⟩ ∧
      s.published b = s.performed b := by
  obtain ⟨Q, U, hflight, hcounts⟩ := h.flight
  obtain ⟨V, rfl⟩ := List.head?_eq_some_iff.mp (hflight.entry k id hk)
  have hmem : id ∈ s.done ++ id :: V := by simp
  obtain ⟨p, b, w, c, hp, hready, hc, hdisk, hf⟩ := hflight.owner h.requests (mem_heads hmem)
  have hstatus := hflight.status id hmem
  have hinfo := hf.info
  rw [hc] at hinfo
  refine ⟨p, b, c, hp, hc, hdisk, ?_, ?_⟩
  · rw [← hinfo, ← hstatus]
  · -- It is not before the device any more.
    have hnot : c.i0 ∉ Q ++ s.taken := by
      intro hm
      have hnodup := hflight.nodup
      rw [List.append_assoc] at hnodup
      rw [hc] at hm
      exact (List.nodup_append.mp hnodup).2.2 id hm id hmem rfl
    have := hcounts.performed p b c hp
    rwa [if_neg hnot, Nat.add_zero] at this

/-- What `virtio_disk_intr` does with an entry. -/
def State.completeBuf (s : State) (b : ℕ) : State :=
  { { s with
      disk := update s.disk b false
      completed := update s.completed b (s.completed b + 1) }.wakeup (.buf b) with
    used_idx := s.used_idx + 1 }

theorem complete_eq {id : Idx} (h : s.info id = ⟨some b, 0⟩) : s.complete id = .ok (s.completeBuf b) := by
  rw [State.complete, h]
  simp [State.completeBuf]

theorem Inv.complete (h : Inv s) {k : ℕ} {id : Idx} (hk : s.intr k = .entry id)
    (hp : (s.pc p).sent = some (b, c)) (hc : c.i0 = id) (hdisk : s.disk b = true) :
    Inv ((s.completeBuf b).setIntr k .look) := by
  obtain ⟨Q, U, hflight, hcounts⟩ := h.flight
  obtain ⟨V, rfl⟩ := List.head?_eq_some_iff.mp (hflight.entry k id hk)
  have hlk := h.locks.intr k (by rw [hk]; simp)
  have hidle : ∀ j, s.intr j ≠ .idle → j = k := fun j hj => by
    have := h.locks.intr j hj
    grind
  -- Other requests have other buffers and heads.
  have hhead : ∀ q b' d, (s.pc q).sent = some (b', d) → d.i0 = c.i0 → q = p := fun q b' d hq => h.head_inj hq hp
  have hbuf : ∀ q, (s.pc q).buf = some b → q = p := fun q hq => by
    obtain ⟨w, hr⟩ := Pc.ready_of_sent hp
    exact h.requests.bufs q p b hq (Pc.buf_of_ready hr)
  have hperm : (Q ++ s.taken ++ s.done ++ id :: V).Perm (id :: (Q ++ s.taken ++ s.done ++ V)) :=
    List.perm_middle
  have hnodup := List.nodup_cons.mp (hperm.nodup_iff.mp hflight.nodup)
  obtain ⟨-, hpop⟩ := hflight.used.pop
  refine ⟨h.locks.setIntr (i := k) (z := .look) rfl rfl ⟨.inr hlk, .inl ⟨by simp, hlk⟩⟩,
    { h.chains with },
    ⟨h.requests.bufs, fun q b' w' d hq => ?_, fun q b' w' d hq => ?_, fun q b' w' d hq => ?_⟩, Q, V,
    ⟨hflight.avail, hflight.availIdx, hpop, ?_, hnodup.2, fun i hi => ?_, fun q b' d hq => ?_,
      fun i hi => ?_, hflight.ringed, fun j => ?_, fun j e => ?_⟩,
    ⟨fun q b' d hq => ?_, hcounts.performed, fun b' hb' => ?_⟩⟩
  · exact { h.requests.formatted q b' w' d hq with }
  · have := h.requests.armed q b' w' d hq
    have := hbuf q
    change s.pc q = _ ∨ s.pc q = _ at hq
    simp only [State.completeBuf, State.wakeup, State.setIntr, update_apply]
    grind
  · have := h.requests.finished q b' w' d hq
    simp only [State.completeBuf, State.wakeup, State.setIntr, update_apply]
    grind
  · change s.usedIdx = s.used_idx + 1 + BitVec.ofNat 16 V.length
    rw [hflight.usedIdx, List.length_cons, Nat.add_comm V.length 1, BitVec.ofNat_add, BitVec.add_assoc]
    rfl
  · obtain ⟨q, b', d, hq, hi', hb⟩ := hflight.sent i (hperm.mem_iff.mpr (List.mem_cons_of_mem _ hi))
    have := hbuf q
    refine ⟨q, b', d, hq, hi', ?_⟩
    change i ∈ Q ++ s.taken ++ s.done ++ V at hi
    simp only [State.completeBuf, State.wakeup, State.setIntr, update_apply]
    grind
  · have := hhead q b' d hq
    have := hflight.flying q b' d hq
    rw [hperm.mem_iff, List.mem_cons] at this
    change (s.pc q).sent = _ at hq
    simp only [State.completeBuf, State.wakeup, State.setIntr, update_apply]
    grind
  · refine hflight.status i ?_
    rw [List.mem_append, List.mem_cons]
    exact (List.mem_append.mp hi).imp_right .inr
  · have := hidle j
    simp only [State.setIntr, State.completeBuf, State.wakeup, update_apply]
    grind
  · have := hidle j
    simp only [State.setIntr, State.completeBuf, State.wakeup, update_apply]
    grind
  · have := hcounts.completed q b' d hq
    simp only [State.completeBuf, State.wakeup, State.setIntr, update_apply]
    grind
  · have : (s.pc p).sent ≠ some (b', c) := hb' p c
    have := hcounts.rest b' hb'
    simp only [State.completeBuf, State.wakeup, State.setIntr, update_apply]
    grind

/-! ## The device -/

theorem Inv.ofDevice (h : Inv s) {t : State} (hpc : t.pc = s.pc) (hintr : t.intr = s.intr)
    (hlock : t.lock = s.lock) (hfree : t.free = s.free) (hdesc : t.desc = s.desc)
    (hinfo : ∀ i, (t.info i).b = (s.info i).b) (hdisk : t.disk = s.disk)
    (hflight : ∃ Q U, Flight t Q U ∧ Counts t Q) : Inv t := by
  refine ⟨⟨?_, ?_⟩, ⟨?_, ?_, ?_, ?_⟩, ⟨?_, fun q b w c hq => ?_, ?_, ?_⟩, hflight⟩
  · rw [hpc, hlock]
    exact h.locks.proc
  · rw [hintr, hlock]
    exact h.locks.intr
  · rw [hpc]
    exact h.chains.nodup
  · rw [hpc, hfree]
    exact h.chains.busy
  · rw [hpc]
    exact h.chains.disjoint
  · rw [hpc, hfree]
    exact h.chains.owned
  · rw [hpc]
    exact h.requests.bufs
  · rw [hpc] at hq
    obtain ⟨h0, h1, h2, h3⟩ := h.requests.formatted q b w c hq
    exact ⟨by rw [hdesc, h0], by rw [hdesc, h1], by rw [hdesc, h2], by rw [hinfo, h3]⟩
  · rw [hpc, hdisk]
    exact h.requests.armed
  · rw [hpc, hdisk]
    exact h.requests.finished

theorem Inv.take (h : Inv s) (hne : s.lastAvail ≠ s.availIdx) :
    Inv { s with
      taken := s.availRing (place NUM s.lastAvail) :: s.taken
      lastAvail := s.lastAvail + 1 } := by
  obtain ⟨Q, U, hflight, hcounts⟩ := h.flight
  obtain ⟨i, R, rfl⟩ : ∃ i R, Q = i :: R := by
    cases Q with
    | nil => exact absurd (by simpa using hflight.availIdx.symm) hne
    | cons i R => exact ⟨i, R, rfl⟩
  obtain ⟨hi, hpop⟩ := hflight.avail.pop
  have hperm : (R ++ i :: s.taken).Perm (i :: R ++ s.taken) := List.perm_middle
  have hall : (R ++ i :: s.taken ++ s.done ++ U).Perm (i :: R ++ s.taken ++ s.done ++ U) :=
    (hperm.append_right _).append_right _
  rw [hi]
  refine h.ofDevice rfl rfl rfl rfl rfl (fun _ => rfl) rfl ⟨R, U, { hflight with
    avail := hpop
    availIdx := ?_
    nodup := hall.nodup_iff.mpr hflight.nodup
    sent := fun j hj => hflight.sent j (hall.mem_iff.mp hj)
    flying := fun q b c hq hb => hall.mem_iff.mpr (hflight.flying q b c hq hb) },
    { hcounts with performed := fun q b c hq => ?_ }⟩
  · change s.availIdx = s.lastAvail + 1 + BitVec.ofNat 16 R.length
    rw [hflight.availIdx, List.length_cons, Nat.add_comm R.length 1, BitVec.ofNat_add, BitVec.add_assoc]
    rfl
  · have := hcounts.performed q b c hq
    rwa [← if_congr (hperm.mem_iff (a := c.i0)) rfl rfl] at this

theorem Inv.perform (h : Inv s) (hi : i ∈ s.taken) : Inv (s.perform i) := by
  obtain ⟨Q, U, hflight, hcounts⟩ := h.flight
  have hmem : i ∈ Q ++ s.taken ++ s.done ++ U := by simp [hi]
  obtain ⟨p, b, w, c, hp, hready, hc, hdisk, hf⟩ := hflight.owner h.requests hmem
  subst hc
  have hfin : ∀ j : Idx, Fin.ofNat NUM j.val = j := fun j => Fin.ext (Nat.mod_eq_of_lt j.isLt)
  have hsecond : s.second c.i0 = s.desc c.i1 := by rw [State.second, hf.head, hfin]
  have hthird : s.third c.i0 = s.desc c.i2 := by rw [State.third, hsecond, hf.data, hfin]
  have heq : s.perform c.i0 = { s with
      taken := s.taken.erase c.i0
      done := c.i0 :: s.done
      performed := update s.performed b (s.performed b + 1)
      info := update s.info c.i0 { s.info c.i0 with status := 0 } } := by
    rw [State.perform, hsecond, hthird, hf.data, hf.status]
  rw [heq]
  have hperm : (Q ++ s.taken.erase c.i0 ++ c.i0 :: s.done ++ U).Perm
      (Q ++ s.taken ++ s.done ++ U) := by
    refine List.Perm.append_right _ ?_
    have h1 : (s.taken.erase c.i0 ++ c.i0 :: s.done).Perm (s.taken ++ s.done) :=
      List.perm_middle.trans ((List.perm_cons_erase hi).symm.append_right _)
    simpa only [List.append_assoc] using h1.append_left Q
  -- The head is in one place only.
  have hnot : c.i0 ∉ Q ++ s.taken.erase c.i0 := by
    have hnodup := hperm.nodup_iff.mpr hflight.nodup
    rw [List.append_assoc] at hnodup
    intro hm
    exact (List.nodup_append.mp hnodup).2.2 c.i0 hm c.i0 (by simp) rfl
  have hold := hcounts.performed p b c hp
  rw [if_pos (List.mem_append_right _ hi)] at hold
  refine h.ofDevice rfl rfl rfl rfl rfl (fun j => ?_) rfl ⟨Q, U, ⟨hflight.avail, hflight.availIdx,
    hflight.used, hflight.usedIdx, hperm.nodup_iff.mpr hflight.nodup,
    fun j hj => hflight.sent j (hperm.mem_iff.mp hj),
    fun q b c hq hb => hperm.mem_iff.mpr (hflight.flying q b c hq hb), fun j hj => ?_, hflight.ringed,
    hflight.read, hflight.entry⟩, ⟨hcounts.completed, fun q b' d hq => ?_, fun b' hb' => ?_⟩⟩
  · simp only [update_apply]
    grind
  · have := hflight.status j
    change j ∈ c.i0 :: s.done ++ U at hj
    simp only [update_apply]
    grind
  · have := hcounts.performed q b' d hq
    have := h.head_inj (p := q) (b := b') (c := d) hq hp
    have := fun hb => h.buf_inj (p := q) (q := p) (b := b) (c := d) hb hp
    change (s.pc q).sent = _ at hq
    have hmem : d.i0 ≠ c.i0 → (d.i0 ∈ s.taken.erase c.i0 ↔ d.i0 ∈ s.taken) := List.mem_erase_of_ne
    simp only [update_apply]
    grind
  · have := hb' p c
    have := hcounts.rest b' hb'
    simp only [update_apply]
    grind

theorem Inv.append (h : Inv s) (hi : i ∈ s.done) :
    Inv { s with
      done := s.done.erase i
      usedRing := update s.usedRing (place NUM s.usedIdx) i
      usedIdx := s.usedIdx + 1 } := by
  obtain ⟨Q, U, hflight, hcounts⟩ := h.flight
  have hperm : (Q ++ s.taken ++ s.done.erase i ++ (U ++ [i])).Perm (Q ++ s.taken ++ s.done ++ U) := by
    have h1 : (s.done.erase i ++ (U ++ [i])).Perm (s.done ++ U) := by
      have h2 : (s.done.erase i ++ (U ++ [i])).Perm (i :: (s.done.erase i ++ U)) := by
        rw [← List.append_assoc]
        exact List.perm_append_singleton _ _
      exact h2.trans ((List.perm_cons_erase hi).symm.append_right U)
    simpa only [List.append_assoc] using h1.append_left (Q ++ s.taken)
  have hlen : U.length < NUM := by
    have hnodup := hflight.nodup
    have hiU : i ∉ U := fun hm =>
      (List.nodup_append.mp hnodup).2.2 i (List.mem_append_right _ hi) i hm rfl
    have hcons : (i :: U).Nodup := List.nodup_cons.mpr ⟨hiU, hnodup.of_append_right⟩
    have hle := hcons.length_le_card
    simp only [List.length_cons, Fintype.card_fin] at hle
    omega
  refine h.ofDevice rfl rfl rfl rfl rfl (fun _ => rfl) rfl ⟨Q, U ++ [i], ⟨hflight.avail,
    hflight.availIdx, ?_, ?_, hperm.nodup_iff.mpr hflight.nodup,
    fun j hj => hflight.sent j (hperm.mem_iff.mp hj),
    fun q b c hq hb => hperm.mem_iff.mpr (hflight.flying q b c hq hb), fun j hj => ?_, hflight.ringed,
    fun k hk => by simp, fun k id hk => ?_⟩, { hcounts with }⟩
  · have hw := hflight.used.write (by decide) hlen i
    rw [← hflight.usedIdx] at hw
    refine hw.push ?_
    rw [← hflight.usedIdx, update_self]
  · change s.usedIdx + 1 = s.used_idx + BitVec.ofNat 16 (U ++ [i]).length
    rw [hflight.usedIdx, List.length_append, List.length_singleton, BitVec.ofNat_add, BitVec.add_assoc]
    rfl
  · have hj : j ∈ s.done.erase i ++ (U ++ [i]) := hj
    refine hflight.status j ?_
    rcases List.mem_append.mp hj with hj | hj
    · exact List.mem_append_left _ (List.mem_of_mem_erase hj)
    · rcases List.mem_append.mp hj with hj | hj
      · exact List.mem_append_right _ hj
      · rw [List.mem_singleton.mp hj]
        exact List.mem_append_left _ hi
  · have := hflight.entry k id hk
    cases U with
    | nil => cases this
    | cons a V => exact this

/-! ## Runs -/

theorem Inv.call (h : Inv s) (hpc : s.pc p = .idle) (hfresh : ∀ q, (s.pc q).buf ≠ some b) :
    Inv (s.setPc p (.enter b w)) := by
  obtain ⟨Q, U, hflight, hcounts⟩ := h.flight
  have hready : ∀ q, ((s.setPc p (.enter b w)).pc q).ready = (s.pc q).ready :=
    setPc_proj (by rw [hpc]; rfl)
  refine ⟨h.locks.unlocked (p := p) (x := .enter b w) rfl rfl rfl rfl,
    h.chains.move s.lock s.asleep (by rw [hpc]; rfl),
    ⟨fun q r b' => ?_, fun q b' w' d hq => ?_, fun q b' w' d => ?_, fun q b' w' d => ?_⟩,
    Q, U, hflight.move s.lock s.asleep (by rw [hpc]; rfl) (by simp),
    hcounts.move s.lock s.asleep (by rw [hpc]; rfl)⟩
  · have := h.requests.bufs q r b'
    have := hfresh q
    have := hfresh r
    simp only [State.setPc, update_apply]
    grind
  · rw [hready] at hq
    exact { h.requests.formatted q b' w' d hq with }
  · have := h.requests.armed q b' w' d
    simp only [State.setPc, update_apply]
    grind
  · have := h.requests.finished q b' w' d
    simp only [State.setPc, update_apply]
    grind

theorem Inv.rw (h : Inv s) {a : RwStep} {r : Except Panic State} (hs : a.next s p (s.pc p) = some r)
    (hok : (Label.rw p a).Locked s) : ∃ t, r = .ok t ∧ Inv t := by
  cases a with
  | call b w =>
    cases hpc : s.pc p <;> simp only [RwStep.next, hpc, reduceCtorEq, Option.some.injEq] at hs
    exact ⟨_, hs.symm, h.call hpc hok⟩
  | acquire =>
    cases hpc : s.pc p with
    | enter b w =>
      simp only [RwStep.next, hpc] at hs
      split_ifs at hs with hfree
      cases hs
      refine ⟨_, rfl, h.move (some (.proc p)) s.asleep ?_ (by simp) (by simp) ?_⟩
      · rw [hpc]
        exact ⟨.inl rfl, rfl, rfl, rfl⟩
      · exact h.locks.acquire (p := p) (x := .alloc b w) hfree rfl rfl rfl
    | _ => simp [RwStep.next, hpc] at hs
  | alloc =>
    cases hpc : s.pc p with
    | alloc b w =>
      simp only [RwStep.next, hpc, Option.some.injEq] at hs
      subst hs
      rcases alloc3Desc_spec s with ⟨c, hne, hfree, heq⟩ | ⟨d, a, hd, heq⟩
      · exact ⟨_, by rw [heq]; rfl, h.alloc hpc hne hfree⟩
      · refine ⟨_, by rw [heq]; rfl, ?_⟩
        refine (h.setDesc hd).move (p := p) none (update a p (some .free)) ?_ (by simp)
          (by simp) ?_
        · change Pc.Same _ (s.pc p)
          rw [hpc]
          exact ⟨.inl rfl, rfl, rfl, rfl⟩
        · exact h.locks.move (p := p) (x := .sleepFree b w) (by rw [hpc]; rfl) rfl rfl (.inr ⟨rfl, rfl⟩)
    | _ => simp [RwStep.next, hpc] at hs
  | wakeFree =>
    cases hpc : s.pc p with
    | sleepFree b w =>
      simp only [RwStep.next, hpc] at hs
      split_ifs at hs with hfree
      cases hs
      refine ⟨_, rfl, h.move (some (.proc p)) s.asleep ?_ (by simp) (by simp) ?_⟩
      · rw [hpc]
        exact ⟨.inl rfl, rfl, rfl, rfl⟩
      · exact h.locks.acquire (p := p) (x := .alloc b w) hfree.2 rfl rfl rfl
    | _ => simp [RwStep.next, hpc] at hs
  | format =>
    cases hpc : s.pc p <;> simp only [RwStep.next, hpc, reduceCtorEq, Option.some.injEq] at hs
    exact ⟨_, hs.symm, h.format hpc⟩
  | ring =>
    cases hpc : s.pc p <;> simp only [RwStep.next, hpc, reduceCtorEq, Option.some.injEq] at hs
    exact ⟨_, hs.symm, h.ring hpc⟩
  | bump =>
    cases hpc : s.pc p <;> simp only [RwStep.next, hpc, reduceCtorEq, Option.some.injEq] at hs
    exact ⟨_, hs.symm, h.bump hpc⟩
  | check =>
    cases hpc : s.pc p with
    | check b w c =>
      simp only [RwStep.next, hpc, Option.some.injEq] at hs
      subst hs
      split_ifs with hdisk
      · refine ⟨_, rfl, h.move none (update s.asleep p (some (.buf b))) ?_ (by simp) (by simp)
          ?_⟩
        · rw [hpc]
          exact ⟨.inl rfl, rfl, rfl, rfl⟩
        · exact h.locks.move (p := p) (x := .sleepBuf b w c) (by rw [hpc]; rfl) rfl rfl (.inr ⟨rfl, rfl⟩)
      · refine ⟨_, rfl, h.move s.lock s.asleep ?_ (by simp) ?_ ?_⟩
        · rw [hpc]
          exact ⟨.inl rfl, rfl, rfl, rfl⟩
        · rintro b' w' d ⟨⟩
          simpa using hdisk
        · exact h.locks.move (p := p) (x := .finish b w c) (by rw [hpc]; rfl) rfl rfl (.inl ⟨rfl, rfl⟩)
    | _ => simp [RwStep.next, hpc] at hs
  | wakeBuf =>
    cases hpc : s.pc p with
    | sleepBuf b w c =>
      simp only [RwStep.next, hpc] at hs
      split_ifs at hs with hfree
      cases hs
      refine ⟨_, rfl, h.move (some (.proc p)) s.asleep ?_ (by simp) (by simp) ?_⟩
      · rw [hpc]
        exact ⟨.inl rfl, rfl, rfl, rfl⟩
      · exact h.locks.acquire (p := p) (x := .check b w c) hfree.2 rfl rfl rfl
    | _ => simp [RwStep.next, hpc] at hs
  | finish =>
    cases hpc : s.pc p with
    | finish b w c =>
      simp only [RwStep.next, hpc, Option.some.injEq] at hs
      subst hs
      have hchain : (s.pc p).chain = some c := by rw [hpc]; rfl
      have hfree := freeChain_spec (h.requests.formatted p b w c (by rw [hpc]; rfl))
        (h.chains.nodup p c hchain) (fun i => h.chains.busy p c i hchain)
        (update s.info c.i0 { s.info c.i0 with b := none })
      exact ⟨_, by rw [hfree]; rfl, h.finish hpc⟩
    | _ => simp [RwStep.next, hpc] at hs
  | release =>
    cases hpc : s.pc p with
    | leave b w =>
      simp only [RwStep.next, hpc, Option.some.injEq] at hs
      subst hs
      refine ⟨_, rfl, h.move none s.asleep ?_ (by simp) (by simp) ?_⟩
      · rw [hpc]
        exact ⟨.inr rfl, rfl, rfl, rfl⟩
      · exact h.locks.move (p := p) (x := .idle) (by rw [hpc]; rfl) rfl rfl (.inr ⟨rfl, rfl⟩)
    | _ => simp [RwStep.next, hpc] at hs

theorem Inv.intr (h : Inv s) {k : ℕ} {a : IntrStep} {r : Except Panic State}
    (hs : a.next s k (s.intr k) = some r) : ∃ t, r = .ok t ∧ Inv t := by
  cases a with
  | acquire =>
    cases hpc : s.intr k with
    | idle =>
      simp only [IntrStep.next, hpc] at hs
      split_ifs at hs with hfree
      cases hs
      refine ⟨_, rfl, h.setIntr ?_ fun Q U _ => ⟨by simp, by simp⟩⟩
      exact h.locks.setIntr rfl rfl ⟨.inl hfree, .inl ⟨by simp, rfl⟩⟩
    | _ => simp [IntrStep.next, hpc] at hs
  | look =>
    cases hpc : s.intr k with
    | look =>
      have hlk := h.locks.intr k (by rw [hpc]; simp)
      simp only [IntrStep.next, hpc, Option.some.injEq] at hs
      subst hs
      refine ⟨_, rfl, h.setIntr (l := s.lock) ?_ fun Q U hf => ⟨fun hread hU => ?_, fun id hid => ?_⟩⟩
      · refine h.locks.setIntr rfl rfl ⟨.inr hlk, .inl ⟨?_, hlk⟩⟩
        split_ifs <;> simp
      · split_ifs at hread with heq
        exact heq (by simpa [hU] using hf.usedIdx.symm)
      · split_ifs at hid
    | _ => simp [IntrStep.next, hpc] at hs
  | read =>
    cases hpc : s.intr k with
    | read =>
      have hlk := h.locks.intr k (by rw [hpc]; simp)
      simp only [IntrStep.next, hpc, Option.some.injEq] at hs
      subst hs
      refine ⟨_, rfl, h.setIntr (l := s.lock) ?_ fun Q U hf => ⟨by simp, fun id hid => ?_⟩⟩
      · exact h.locks.setIntr rfl rfl ⟨.inr hlk, .inl ⟨by simp, hlk⟩⟩
      · cases hU : U with
        | nil => exact absurd hU (hf.read k hpc)
        | cons a V =>
          cases hid
          have hused := hf.used
          rw [hU] at hused
          rw [hused.pop.1]
          rfl
    | _ => simp [IntrStep.next, hpc] at hs
  | entry =>
    cases hpc : s.intr k with
    | entry id =>
      simp only [IntrStep.next, hpc, Option.some.injEq] at hs
      subst hs
      obtain ⟨p, b, c, hp, hc, hdisk, hinfo, -⟩ := h.entry hpc
      exact ⟨_, by rw [complete_eq hinfo]; rfl, h.complete hpc hp hc hdisk⟩
    | _ => simp [IntrStep.next, hpc] at hs
  | release =>
    cases hpc : s.intr k with
    | leave =>
      have hlk := h.locks.intr k (by rw [hpc]; simp)
      simp only [IntrStep.next, hpc, Option.some.injEq] at hs
      subst hs
      refine ⟨_, rfl, h.setIntr ?_ fun Q U _ => ⟨by simp, by simp⟩⟩
      exact h.locks.setIntr rfl rfl ⟨.inr hlk, .inr ⟨rfl, rfl⟩⟩
    | _ => simp [IntrStep.next, hpc] at hs

theorem Inv.dev (h : Inv s) {a : DevStep} {t : State} (hs : a.next s = some t) : Inv t := by
  cases a with
  | take =>
    rw [DevStep.next] at hs
    split_ifs at hs with hne
    cases hs
    exact h.take hne
  | perform i =>
    rw [DevStep.next] at hs
    split_ifs at hs with hi
    cases hs
    exact h.perform hi
  | append i =>
    rw [DevStep.next] at hs
    split_ifs at hs with hi
    cases hs
    exact h.append hi

theorem Inv.next (h : Inv s) {l : Label} {r : Except Panic State} (hs : l.next s = some r)
    (hok : l.Locked s) : ∃ t, r = .ok t ∧ Inv t := by
  cases l with
  | rw p a => exact h.rw hs hok
  | intr k a => exact h.intr hs
  | dev a =>
    obtain ⟨t, ht, rfl⟩ := Option.map_eq_some_iff.mp hs
    exact ⟨t, rfl, h.dev ht⟩

theorem init_inv (blockno : ℕ → BitVec 32) : Inv (State.init blockno) := by
  refine ⟨⟨?_, ?_⟩, ⟨?_, ?_, ?_, ?_⟩, ⟨?_, ?_, ?_, ?_⟩, [], [], ⟨?_, ?_, ?_, ?_, ?_, ?_, ?_, ?_, ?_, ?_, ?_⟩,
    ⟨?_, ?_, ?_⟩⟩
  all_goals
    simp [State.init, Pc.locked, Pc.chain, Pc.buf, Pc.ready, Pc.sent, Entries]

theorem Run.inv {blockno : ℕ → BitVec 32} (h : Run blockno s) : Inv s := by
  refine h.invariant (P := Inv) (init_inv blockno) ?_
  intro s l t hi hok hs
  obtain ⟨t', heq, ht⟩ := hi.next hs hok
  cases heq
  exact ht

theorem Inv.availRing_eq (h : Inv s) {l : Label} {t : State} (hs : Step s l t)
    (hring : ∀ p, l ≠ .rw p .ring) : t.availRing = s.availRing := by
  cases l with
  | rw p a =>
    cases a with
    | ring => exact absurd rfl (hring p)
    | alloc =>
      cases hpc : s.pc p with
      | alloc b w =>
        simp only [Step, Label.next, RwStep.next, hpc, Option.some.injEq] at hs
        rcases alloc3Desc_spec s with ⟨c, -, -, heq⟩ | ⟨d, a, -, heq⟩
        · rw [heq] at hs
          cases hs
          rfl
        · rw [heq] at hs
          cases hs
          rfl
      | _ => simp [Step, Label.next, RwStep.next, hpc] at hs
    | finish =>
      cases hpc : s.pc p with
      | finish b w c =>
        simp only [Step, Label.next, RwStep.next, hpc, Option.some.injEq] at hs
        have hchain : (s.pc p).chain = some c := by rw [hpc]; rfl
        rw [freeChain_spec (h.requests.formatted p b w c (by rw [hpc]; rfl))
          (h.chains.nodup p c hchain) fun i => h.chains.busy p c i hchain] at hs
        cases hs
        rfl
      | _ => simp [Step, Label.next, RwStep.next, hpc] at hs
    | check =>
      cases hpc : s.pc p with
      | check b w c =>
        simp only [Step, Label.next, RwStep.next, hpc, Option.some.injEq, Except.ok.injEq] at hs
        subst hs
        split_ifs <;> rfl
      | _ => simp [Step, Label.next, RwStep.next, hpc] at hs
    | _ =>
      cases hpc : s.pc p <;> simp only [Step, Label.next, RwStep.next, hpc, reduceCtorEq,
        Option.ite_none_right_eq_some, Option.some.injEq, Except.ok.injEq] at hs
      first
        | (subst hs; rfl)
        | (obtain ⟨-, rfl⟩ := hs; rfl)
  | intr k a =>
    cases a with
    | entry =>
      cases hpc : s.intr k with
      | entry id =>
        simp only [Step, Label.next, IntrStep.next, hpc, Option.some.injEq] at hs
        obtain ⟨p, b, c, -, -, -, hinfo, -⟩ := h.entry hpc
        rw [complete_eq hinfo] at hs
        cases hs
        rfl
      | _ => simp [Step, Label.next, IntrStep.next, hpc] at hs
    | _ =>
      cases hpc : s.intr k <;> simp only [Step, Label.next, IntrStep.next, hpc, reduceCtorEq,
        Option.ite_none_right_eq_some, Option.some.injEq, Except.ok.injEq] at hs
      first
        | (subst hs; rfl)
        | (obtain ⟨-, rfl⟩ := hs; rfl)
  | dev a =>
    cases a <;> simp only [Step, Label.next, DevStep.next, Option.map_eq_some_iff,
      Except.ok.injEq, Option.ite_none_left_eq_some, Option.ite_none_right_eq_some,
      Option.some.injEq] at hs <;>
    · obtain ⟨_, ⟨-, rfl⟩, rfl⟩ := hs
      rfl

/-- An entry of the avail ring that the device has not taken stays as it is. -/
theorem Inv.avail_kept (h : Inv s) {l : Label} {t : State} (hs : Step s l t) {k : ℕ}
    (hk : k < (s.availIdx - s.lastAvail).toNat) :
    t.availRing (place NUM (s.lastAvail + BitVec.ofNat 16 k)) =
      s.availRing (place NUM (s.lastAvail + BitVec.ofNat 16 k)) := by
  by_cases hring : ∃ p, l = .rw p .ring
  · obtain ⟨p, rfl⟩ := hring
    obtain ⟨Q, U, hflight, -⟩ := h.flight
    cases hpc : s.pc p with
    | ring b w c =>
      simp only [Step, Label.next, RwStep.next, hpc, Option.some.injEq, Except.ok.injEq] at hs
      subst hs
      have hnot := hflight.not_mem h.chains (p := p) (c := c) (by rw [hpc]; rfl)
        (by rw [hpc]; rintro b d ⟨⟩)
      have hlen := hflight.availIdx_ne hnot
      have hkQ : k < Q.length := by
        have hsub : s.availIdx - s.lastAvail = BitVec.ofNat 16 Q.length := by
          rw [hflight.availIdx, BitVec.add_comm, BitVec.add_sub_cancel]
        rw [hsub, BitVec.toNat_ofNat] at hk
        exact hk.trans_le (Nat.mod_le _ _)
      have hne := place_ne (n := NUM) (w := 16) (by decide) s.lastAvail hkQ (by omega)
      change update s.availRing (place NUM s.availIdx) c.i0 _ = _
      rw [hflight.availIdx, update_of_ne hne]
    | _ => simp [Step, Label.next, RwStep.next, hpc] at hs
  · rw [h.availRing_eq hs fun p hl => hring ⟨p, hl⟩]

theorem Inv.returned (h : Inv s) (hp : (∃ x, s.pc p = .finish b w x) ∨ s.pc p = .leave b w) :
    s.performed b = s.published b ∧ s.completed b = s.published b := by
  obtain ⟨Q, U, hflight, hcounts⟩ := h.flight
  rcases hp with ⟨x, hp⟩ | hp
  · have hsent : (s.pc p).sent = some (b, x) := by rw [hp]; rfl
    have hdisk := h.requests.finished p b w x hp
    have hnot := hflight.not_mem h.chains (p := p) (c := x) (by rw [hp]; rfl)
      (by rw [hp]; rintro b' d ⟨⟩; exact hdisk)
    have hmem : x.i0 ∉ Q ++ s.taken := fun hm => hnot (by
      rw [List.append_assoc]
      exact List.mem_append_left _ hm)
    have h1 := hcounts.completed p b x hsent
    have h2 := hcounts.performed p b x hsent
    rw [hdisk] at h1
    rw [if_neg hmem] at h2
    exact ⟨by simpa using h2.symm, by simpa using h1.symm⟩
  · -- No other call has the buffer.
    have hnone : ∀ q x, (s.pc q).sent ≠ some (b, x) := by
      intro q x hq
      obtain ⟨w', hr⟩ := Pc.ready_of_sent hq
      obtain rfl := h.requests.bufs q p b (Pc.buf_of_ready hr) (by rw [hp]; rfl)
      rw [hp] at hq
      cases hq
    obtain ⟨h1, h2⟩ := hcounts.rest b hnone
    exact ⟨h2.symm, h1.symm⟩

/-- The protocol of the driver and the device. Chains of different calls are disjoint, and none of their
descriptors is marked free. An entry of the avail ring that the device has not taken is not overwritten.
A completion clears `b->disk` of the buffer whose request the device has performed, and of no other. A
call comes to the end only when its request was performed and completed. With no chain in use all
descriptors are free. No step panics. -/
theorem virtio_protocol {blockno : ℕ → BitVec 32} (h : Run blockno s) :
    ((∀ p x i, (s.pc p).chain = some x → x.Has i → s.free i = false) ∧
      ∀ p q x y i, p ≠ q → (s.pc p).chain = some x → (s.pc q).chain = some y → x.Has i → ¬y.Has i) ∧
    (∀ l t k, Step s l t → k < (s.availIdx - s.lastAvail).toNat →
      t.availRing (place NUM (s.lastAvail + BitVec.ofNat 16 k)) =
        s.availRing (place NUM (s.lastAvail + BitVec.ofNat 16 k))) ∧
    (∀ k t id, s.intr k = .entry id → Step s (.intr k .entry) t →
      ∃ p b x, (s.pc p).sent = some (b, x) ∧ x.i0 = id ∧ (s.info id).b = some b ∧ s.disk b = true ∧
        s.performed b = s.published b ∧ t.disk = update s.disk b false) ∧
    (∀ p b w, (∃ x, s.pc p = .finish b w x) ∨ s.pc p = .leave b w →
      s.performed b = s.published b ∧ s.completed b = s.published b) ∧
    ((∀ p, (s.pc p).chain = none) → ∀ i, s.free i = true) ∧
    ∀ (l : Label) r, l.Locked s → l.next s = some r → ∃ t, r = .ok t := by
  have hinv := Run.inv h
  refine ⟨⟨hinv.chains.busy, fun p q x y i hpq hp hq hx hy => ?_⟩, fun l t k hs => hinv.avail_kept hs,
    fun k t id hk hs => ?_, fun p b w hp => hinv.returned hp, fun hnone i => ?_, fun l r hok hs => ?_⟩
  · exact hpq (hinv.chains.disjoint p q x y i hp hq hx hy)
  · obtain ⟨p, b, x, hp, hx, hdisk, hinfo, hperf⟩ := hinv.entry hk
    refine ⟨p, b, x, hp, hx, by rw [hinfo], hdisk, hperf.symm, ?_⟩
    simp only [Step, Label.next, IntrStep.next, hk, Option.some.injEq] at hs
    rw [complete_eq hinfo] at hs
    cases hs
    rfl
  · by_contra hbusy
    obtain ⟨p, x, hp, -⟩ := hinv.chains.owned i (by simpa using hbusy)
    rw [hnone p] at hp
    cases hp
  · obtain ⟨t, ht, -⟩ := hinv.next hs hok
    exact ⟨t, ht⟩

/-- The step, if it does not panic. -/
def next (s : State) (l : Label) : Option State :=
  match l.next s with
  | some (.ok t) => some t
  | _ => none

theorem next_eq {l : Label} {t : State} (h : next s l = some t) : Step s l t := by
  rw [next] at h
  split at h
  · rename_i heq
    cases h
    exact heq
  · cases h

/-- One process reads a block, up to where it frees the chain. -/
def readRun : List Label :=
  [.rw 0 .acquire, .rw 0 .alloc, .rw 0 .format, .rw 0 .ring, .rw 0 .bump, .dev .take, .rw 0 .check,
    .dev (.perform 0), .dev (.append 0), .intr 0 .acquire, .intr 0 .look, .intr 0 .read, .intr 0 .entry,
    .intr 0 .look, .intr 0 .release, .rw 0 .wakeBuf, .rw 0 .check]

/-- The label is not a call. -/
def notCall : Label → Bool
  | .rw _ (.call _ _) => false
  | _ => true

theorem readRun_run : ∃ s, Run (fun _ => 0) s ∧ s.pc 0 = .finish 5 false ⟨0, 1, 2⟩ := by
  have hcall : Run (fun _ => 0) ((State.init fun _ => 0).setPc 0 (.enter 5 false)) :=
    .step (.rw 0 (.call 5 false)) .init (fun q => by simp [State.init, Pc.buf]) rfl
  have hrun : (execute next (fun _ l => notCall l)
      ((State.init fun _ => 0).setPc 0 (.enter 5 false)) readRun).map (fun s => s.pc 0) =
      some (.finish 5 false ⟨0, 1, 2⟩) := by
    decide +kernel
  obtain ⟨s, hs, heq⟩ := Option.map_eq_some_iff.mp hrun
  refine ⟨s, Reach.execute (fun _ _ _ => next_eq) (fun s l hok => ?_) hcall hs, heq⟩
  cases l with
  | rw p a =>
    cases a with
    | call b w => cases hok
    | _ => trivial
  | _ => trivial

/-- The device has performed the request when the call is at its end. -/
theorem virtio_protocol_readRun : ∃ s, Run (fun _ => 0) s ∧ s.pc 0 = .finish 5 false ⟨0, 1, 2⟩ ∧
    s.performed 5 = s.published 5 := by
  obtain ⟨s, hrun, hpc⟩ := readRun_run
  exact ⟨s, hrun, hpc, ((virtio_protocol hrun).2.2.2.1 0 5 false (.inl ⟨_, hpc⟩)).1⟩

end

end Xv6.Virtio
