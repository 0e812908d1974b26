import Xv6.Bio.CommitSteps

/-!
# Buffer cache and log behave as a flat block store

The steps of the processes outside `commit` keep the relation to the store, so every step does. Over a
whole run, whatever the schedule, a `bread` returns the contents most recently given to its block:
only in the cache, in the log, or installed.
-/

namespace Xv6.Bio

open Function
open Log (Outside)

section Client

variable {g : Log.Geometry} {s s' : Sys} {store : Disk} {L : List ℕ} {p : ℕ} {o : Option Obs}

/-- A free process is inside no function and not in `commit`. -/
theorem free_spec (h : s.free p = true) :
    s.mem.call p = none ∧ ∀ pc, s.ops.phase p ≠ .commit pc := by
  unfold Sys.free at h
  rw [Bool.and_eq_true, Option.isNone_iff_eq_none] at h
  refine ⟨h.1, fun pc hp => ?_⟩
  simp [hp] at h

theorem Inv.congrOps (h : Inv g s store L) {ops : Ops.State} {a : Ops.Act}
    (hst : Ops.Step g.size s.ops a ops) (hlh : ops.log.lh = s.ops.log.lh)
    (hcom : ops.log.committing = false → s.ops.log.committing = false)
    (hphase : ∀ q pc, ops.phase q = .commit pc → s.ops.phase q = .commit pc ∨
      pc = .test ∧ s.ops.log.committing = false ∧ s.mem.call q = none) :
    Inv g { s with ops := ops } store L := by
  refine ⟨h.control.step hst, h.history.step h.control hst, h.mem, ?_, ?_, fun hc => ?_,
    fun q pc hq => ?_⟩
  · simpa only [hlh] using h.outside
  · simpa only [hlh] using h.size
  · simpa only [hlh] using h.idle (hcom hc)
  · rcases hphase q pc hq with hold | ⟨rfl, hc, hnone⟩
    · obtain ⟨hL, hat, hcall⟩ := h.commit q pc hold
      refine ⟨by simpa only [hlh] using hL, ?_, ?_⟩
      · exact hat.frame h.size hlh rfl rfl (fun j _ => ⟨rfl, rfl, rfl, rfl, rfl, rfl⟩)
          (fun _ _ => rfl) fun _ _ => rfl
      · simpa only [CallAt, hlh] using hcall
    · exact ⟨by simpa only [hlh, toInstall] using h.idle hc, trivial, callAt_of_none hnone⟩

theorem Inv.opsStep (h : Inv g s store L) {a : Ops.Act} (hst : s.opsStep g a = some (.ok (s', o)))
    (ha : (∃ q, a = .enter q ∨ a = .begin q ∨ a = .kill q) ∨
      a = .endOp p ∧ s.mem.call p = none) : Good g s' store o := by
  unfold Sys.opsStep at hst
  split at hst
  · cases hst
  · cases hst
  · next ops hstep =>
    cases hst
    have hstep : Ops.Step g.size s.ops a ops := hstep
    have hset : ∀ (q : ℕ) (ph : Ops.Phase) (r : ℕ) (pc : Ops.CommitPc),
        (∀ pc, ph ≠ .commit pc) → update s.ops.phase q ph r = .commit pc →
        s.ops.phase r = .commit pc := by
      intro q ph r pc hph hr
      by_cases hrq : r = q
      · subst hrq
        rw [update_self] at hr
        exact absurd hr (hph pc)
      · rwa [update_of_ne hrq] at hr
    refine ⟨by simp, L, ?_⟩
    cases hstep.trans with
    | enter q hq => exact h.congrOps hstep rfl id fun r pc hr => .inl (hset q _ r pc (by simp) hr)
    | sleep q hq => exact h.congrOps hstep rfl id fun r pc hr => .inl (hset q _ r pc (by simp) hr)
    | kill q hq => exact h.congrOps hstep rfl id fun r pc hr => .inl (hset q _ r pc (by simp) hr)
    | proceed q hq hcom hr => exact h.congrOps hstep rfl id fun r pc hr => .inl (hset q _ r pc (by simp) hr)
    | logWrite q b op lh hq hn hlh | commit q pc hq => simp at ha
    | last q op hq hcom hout =>
      have hqp : q = p ∧ s.mem.call p = none := by simpa using ha
      refine h.congrOps hstep rfl (fun _ => hcom) fun r pc hr => ?_
      by_cases hrq : r = q
      · subst hrq
        simp only [Ops.State.setPhase, update_self, Ops.Phase.commit.injEq] at hr
        exact .inr ⟨hr.symm, hcom, hqp.1 ▸ hqp.2⟩
      · simp only [Ops.State.setPhase, update_of_ne hrq] at hr
        exact .inl hr
    | leave q op hq hcom hout =>
      refine h.congrOps hstep rfl id fun r pc hr => .inl (hset q .idle r pc (by simp) ?_)
      simpa using hr

theorem Inv.bread (h : Inv g s store L) {dev b : ℕ} (hst : Step g s (.bread p dev b) o s') :
    Good g s' store o := by
  simp only [Step, step] at hst
  split_ifs at hst with hfree
  obtain ⟨hc, hp⟩ := free_spec hfree
  split at hst
  · cases hst
  · next m hget =>
    cases hst
    obtain ⟨hmem, hsame, hdisk, i, hcall⟩ := h.mem.bget hc hget
    refine ⟨by simp, L, h.byClient hp rfl rfl rfl hmem (fun q hq => ?_) (fun q j _ hj => ?_)
      (fun _ _ _ => rfl) fun _ b _ => by rw [hdisk]⟩
    · simp only [hcall, update_of_ne hq]
    · exact hsame j (by simp [hj])

theorem toInstall_bread {lh : List ℕ} {n b : ℕ} {r : Reg} {pc : Ops.CommitPc}
    (hins : (program g lh pc)[n]? = some (.bread r b)) :
    toInstall lh (n + 1) pc = toInstall lh n pc := by
  cases pc with
  | install tail =>
    cases hb : lh[tail]? with
    | none => simp [program, hb] at hins
    | some b' =>
      rw [program_install hb] at hins
      rcases stage_cases hins (by simp) with
        rfl | rfl | rfl | rfl | rfl | rfl | rfl <;> simp at hins <;> rfl
  | _ => rfl

/-- What a `bread` of the file system returns is observed, and the store stays as it is. -/
theorem readObs_spec {dev b : ℕ} {data : Block} (hd : dev = ROOTDEV → data = store b) :
    (∀ b' data', readObs dev b data = some (.read b' data') → data' = store b') ∧
      Obs.apply store (readObs dev b data) = store := by
  unfold readObs
  split_ifs with hdev
  · refine ⟨fun b' data' heq => ?_, rfl⟩
    cases heq
    exact hd hdev
  · simp

theorem Inv.returned (h : Inv g s store L) {dev b : ℕ} {i : BufId} {m : Mem} {data : Block}
    (hcall : s.mem.call p = some (.lock dev b i) ∨ s.mem.call p = some (.fill dev b i))
    (hmem : MemInv m store L) (hcall' : m.call = update s.mem.call p none)
    (hdisk : m.disk = s.mem.disk)
    (hsame : ∀ j, j ≠ i → SameBuf s.mem m j)
    (hfree : ∀ q, q ≠ p → (s.mem.cache.buf i).lock ≠ some q)
    (hcar : (s.mem.cache.buf i).dev = dev ∧ (s.mem.cache.buf i).blockno = b)
    (hcar' : (m.cache.buf i).dev = dev ∧ (m.cache.buf i).blockno = b)
    (hlock : (m.cache.buf i).lock = some p) (hvalid : (m.cache.buf i).valid = true)
    (hdirty : m.dirty i = false) (hdata : dev = ROOTDEV → data = store b) :
    Good g (Sys.returned g { s with mem := m } p i) store (readObs dev b data) := by
  obtain ⟨hread, happly⟩ := readObs_spec hdata
  refine ⟨hread, L, happly.symm ▸ ?_⟩
  by_cases hp : ∃ pc, s.ops.phase p = .commit pc
  · obtain ⟨pc, hp⟩ := hp
    obtain ⟨hL, hat, hcallAt⟩ := h.commit p pc hp
    obtain ⟨rfl, r, hins⟩ := hcallAt dev b i hcall
    simp only [Sys.returned, hp, hins]
    refine h.byCommit hp rfl hmem (hL.trans (toInstall_bread hins).symm) ?_
      (callAt_of_none (by simp [hcall']))
    exact hat.returned h hins rfl rfl rfl (fun j hj _ => hsame j hj) hcar hcar' hlock hvalid hdirty
  · push Not at hp
    have hret : Sys.returned g { s with mem := m } p i = { s with mem := m } := by
      unfold Sys.returned
      split
      · next pc hpc => exact absurd hpc (hp pc)
      · rfl
    rw [hret]
    refine h.byClient hp rfl rfl rfl hmem (fun q hq => ?_) (fun q j hq hj => hsame j ?_)
      (fun _ _ _ => rfl) fun _ b _ => by rw [hdisk]
    · simp only [hcall', update_of_ne hq]
    · rintro rfl
      exact hfree q hq hj

theorem Inv.lock (h : Inv g s store L) (hst : Step g s (.lock p) o s') : Good g s' store o := by
  simp only [Step, step] at hst
  split at hst
  · next dev b i hcall =>
    split_ifs at hst with hfree hv
    · cases hst
      obtain ⟨hmem, hdirty, hdata⟩ := h.mem.acquire hcall hfree
      have hcar := h.mem.cache.lockCall p dev b i hcall
      refine h.returned (.inl hcall) hmem (by simp [Mem.acquire, hv]) rfl
        (fun j hj => .of_ne rfl rfl hj) (by simp [hfree]) hcar (by simpa [Mem.acquire] using hcar)
        (by simp [Mem.acquire]) (by simpa [Mem.acquire] using hv) hdirty fun hd => hdata hd hv
    · cases hst
      obtain ⟨hmem, -, -⟩ := h.mem.acquire hcall hfree
      have hcall' : ∀ q, q ≠ p → (s.mem.acquire p dev b i).call q = s.mem.call q :=
        fun q hq => by simp [Mem.acquire, hq]
      have hsame : ∀ q j, (s.mem.cache.buf j).lock = some q →
          SameBuf s.mem (s.mem.acquire p dev b i) j := by
        intro q j hj
        refine .of_ne rfl rfl ?_
        rintro rfl
        simp [hfree] at hj
      refine ⟨by simp, L, ?_⟩
      by_cases hp : ∃ pc, s.ops.phase p = .commit pc
      · obtain ⟨pc, hp⟩ := hp
        obtain ⟨hL, hat, hcallAt⟩ := h.commit p pc hp
        refine h.byCommit hp rfl hmem hL ?_ fun dev' b' i' hc => ?_
        · exact hat.frame h.size rfl rfl rfl (fun j => hsame p j) (fun _ _ => rfl) fun _ _ => rfl
        · have hc' : dev = dev' ∧ b = b' ∧ i = i' := by simpa [Mem.acquire, hv] using hc
          obtain ⟨rfl, rfl, rfl⟩ := hc'
          exact hcallAt dev b i (.inl hcall)
      · push Not at hp
        exact h.byClient hp rfl rfl rfl hmem hcall' (fun q j _ => hsame q j) (fun _ _ _ => rfl)
          fun _ _ _ => rfl
  · cases hst

theorem Inv.fill (h : Inv g s store L) (hst : Step g s (.fill p) o s') : Good g s' store o := by
  simp only [Step, step] at hst
  split at hst
  · next dev b i hcall =>
    cases hst
    obtain ⟨hmem, hdirty, hdata⟩ := h.mem.fill hcall
    obtain ⟨h1, h2, hl, -⟩ := h.mem.cache.fillCall p dev b i hcall
    refine h.returned (.inr hcall) hmem rfl rfl (fun j hj => .of_ne rfl rfl hj)
      (fun q hq hq' => hq (Option.some.inj (hl.symm.trans hq')).symm) ⟨h1, h2⟩
      (by simpa [Mem.fill] using ⟨h1, h2⟩) (by simpa [Mem.fill] using hl) (by simp [Mem.fill])
      hdirty hdata
  · cases hst

theorem Inv.modify (h : Inv g s store L) {i : BufId} {data : Block}
    (hst : Step g s (.modify p i data) o s') : Good g s' store o := by
  simp only [Step, step] at hst
  split_ifs at hst with hpre
  obtain ⟨hfree, hl⟩ := hpre
  obtain ⟨hc, hp⟩ := free_spec hfree
  cases hst
  refine ⟨by simp, L, h.byClient hp rfl rfl rfl (h.mem.put hl hc data) (fun _ _ => rfl)
    (fun q j hq hj => .put ?_) (fun _ _ _ => rfl) fun _ _ _ => rfl⟩
  rintro rfl
  exact hq (Option.some.inj (hl.symm.trans hj)).symm

theorem Inv.bwrite (h : Inv g s store L) {i : BufId} (hd : Disciplined g s (.bwrite p i))
    (hst : Step g s (.bwrite p i) o s') : Good g s' store o := by
  simp only [Step, step] at hst
  split_ifs at hst with hfree hl
  · obtain ⟨hc, hp⟩ := free_spec hfree
    obtain ⟨hdev, hcommit⟩ := hd
    cases hst
    refine ⟨by simp, L, h.byClient hp rfl rfl rfl (h.mem.bwrite ⟨hdev, rfl⟩) (fun _ _ => rfl)
      (fun q j hq hj => .bwrite ?_) (fun hcom b hb => ?_) fun hcom b hb => ?_⟩
    · rintro rfl
      exact hq (Option.some.inj (hl.symm.trans hj)).symm
    · -- The discipline keeps the block away from those of a running commit.
      obtain ⟨hnl, hout⟩ := hcommit hcom
      refine update_of_ne ?_ _ _
      rintro rfl
      rcases hb with hb | hb
      · exact hnl hb
      · exact hb hout
    · refine update_of_ne ?_ _ _
      rintro rfl
      exact (hcommit hcom).1 hb
  · simp at hst

theorem Inv.logWrite (h : Inv g s store L) {i : BufId} (hd : Disciplined g s (.logWrite p i))
    (hst : Step g s (.logWrite p i) o s') : Good g s' store o := by
  simp only [Step, step] at hst
  by_cases hpre : s.free p = true ∧ (s.mem.cache.buf i).lock = some p
  swap
  · simp [hpre] at hst
  rw [if_pos hpre] at hst
  obtain ⟨hfree, hl⟩ := hpre
  obtain ⟨hc, -⟩ := free_spec hfree
  obtain ⟨hdev, hout⟩ := hd
  have hvalid : (s.mem.cache.buf i).valid = true := by
    rcases h.mem.cache.valid i p hl with hv | ⟨dev, b, hfill⟩
    · exact hv
    · simp [hc] at hfill
  split at hst
  · cases hst
  · cases hst
  · next ops hstep =>
    cases hst
    have hstep : Ops.Step g.size s.ops (.logWrite p (s.mem.cache.buf i).blockno) ops := hstep
    have hcontrol := h.control.step hstep
    have hhist := h.history.step h.control hstep
    refine ⟨by simp, ops.log.lh, ?_⟩
    cases hstep.trans with
    | logWrite _ _ op lh hop hn hlh =>
      have hcom : s.ops.log.committing = false := h.control.not_committing hop
      have hL : L = s.ops.log.lh := h.idle hcom
      have hnone : ∀ q pc, s.ops.phase q ≠ .commit pc := fun q pc hq => by
        have := h.control.committing_iff.mpr ⟨q, pc, hq⟩
        simp [hcom] at this
      refine ⟨hcontrol, hhist, ?_, fun b hb => ?_, ?_, fun _ => rfl, fun q pc hq =>
        absurd hq (hnone q pc)⟩
      · simp only [hlh]
        split_ifs with hb
        · exact hL ▸ h.mem.absorb ⟨hdev, rfl⟩ (hL ▸ hb)
        · exact hL ▸ h.mem.pin ⟨hdev, rfl⟩ hvalid (hL ▸ hb)
      · simp only [hlh] at hb
        split_ifs at hb with hmem
        · exact h.outside b hb
        · rcases List.mem_append.mp hb with hb | hb
          · exact h.outside b hb
          · rw [List.mem_singleton.mp hb]
            exact hout
      · have hsize := h.size
        simp only [hlh]
        split_ifs
        · exact hsize
        · rw [List.length_append, List.length_singleton]
          omega

theorem Inv.brelse (h : Inv g s store L) {i : BufId} (hd : Disciplined g s (.brelse p i))
    (hst : Step g s (.brelse p i) o s') : Good g s' store o := by
  simp only [Step, step] at hst
  split_ifs at hst with hfree hl
  · obtain ⟨hc, hp⟩ := free_spec hfree
    cases hst
    refine ⟨by simp, L, h.byClient hp rfl rfl rfl (h.mem.release hc hl hd) (fun q hq => ?_)
      (fun q j hq hj => .release ?_) (fun _ _ _ => rfl) fun _ _ _ => rfl⟩
    · simp [Mem.release, hq]
    · rintro rfl
      exact hq (Option.some.inj (hl.symm.trans hj)).symm
  · simp at hst

theorem Inv.rel (h : Inv g s store L) (hst : Step g s (.rel p) o s') : Good g s' store o := by
  simp only [Step, step] at hst
  split at hst
  · next i hcall =>
    cases hst
    obtain ⟨hmem, hsame⟩ := h.mem.rel hcall
    refine ⟨by simp, L, ?_⟩
    by_cases hp : ∃ pc, s.ops.phase p = .commit pc
    · obtain ⟨pc, hp⟩ := hp
      obtain ⟨hL, hat, -⟩ := h.commit p pc hp
      refine h.byCommit hp rfl hmem hL ?_ (callAt_of_none (by simp [Mem.rel]))
      exact hat.frame h.size rfl rfl rfl (fun j _ => hsame j) (fun _ _ => rfl) fun _ _ => rfl
    · push Not at hp
      exact h.byClient hp rfl rfl rfl hmem (fun q hq => by simp [Mem.rel, hq])
        (fun _ j _ _ => hsame j) (fun _ _ _ => rfl) fun _ _ _ => rfl
  · cases hst

/-- Every disciplined step keeps the relation, and a `bread` returns what the store has. -/
theorem Inv.step (h : Inv g s store L) {a : Act} (hd : Disciplined g s a)
    (hst : Step g s a o s') : Good g s' store o := by
  cases a with
  | enter q =>
    simp only [Step, Bio.step] at hst
    split_ifs at hst
    exact h.opsStep (p := q) hst (.inl ⟨q, .inl rfl⟩)
  | begin q => exact h.opsStep (p := q) hst (.inl ⟨q, .inr (.inl rfl)⟩)
  | kill q => exact h.opsStep (p := q) hst (.inl ⟨q, .inr (.inr rfl)⟩)
  | endOp q =>
    simp only [Step, Bio.step] at hst
    split_ifs at hst with hc
    exact h.opsStep hst (.inr ⟨rfl, by simpa using hc⟩)
  | bread q dev b => exact h.bread hst
  | lock q => exact h.lock hst
  | fill q => exact h.fill hst
  | modify q i data => exact h.modify hst
  | logWrite q i => exact h.logWrite hd hst
  | bwrite q i => exact h.bwrite hd hst
  | brelse q i => exact h.brelse hd hst
  | rel q => exact h.rel hst
  | commit q => exact h.commitStep hst

end Client

/-! ## Runs -/

/-- The contents that an observation gives to block `b`. -/
def Obs.writeOf (b : ℕ) : Obs → Option Block
  | .write b' data => if b' = b then some data else none
  | .read _ _ => none

/-- The contents most recently given to block `b` in a trace, or those on the initial disk `d`. -/
def latest (d : Disk) (tr : List Obs) (b : ℕ) : Block :=
  (tr.reverse.findSome? (Obs.writeOf b)).getD (d b)

theorem latest_append (d : Disk) (tr : List Obs) (o : Option Obs) :
    latest d (tr ++ o.toList) = Obs.apply (latest d tr) o := by
  funext b
  rcases o with _ | ⟨b', data⟩ | ⟨b', data⟩
  · simp
  · simp [latest, Obs.apply, Obs.writeOf, List.findSome?_cons]
  · by_cases hb : b' = b
    · simp [latest, Obs.apply, Obs.writeOf, hb]
    · simp [latest, Obs.apply, Obs.writeOf, hb, update_of_ne (Ne.symm hb)]

/-- A state of the system and what has been observed on the way to it, oldest first. -/
structure Traced where
  sys : Sys
  trace : List Obs

/-- A step of the system, with its observation recorded. -/
def Traced.Step (g : Log.Geometry) (t : Traced) (a : Act) (t' : Traced) : Prop :=
  ∃ o, Bio.Step g t.sys a o t'.sys ∧ t'.trace = t.trace ++ o.toList

/-- The states of the disciplined runs from disk `d`. -/
def Reachable (g : Log.Geometry) (d : Disk) (t : Traced) : Prop :=
  Lib.Reach ⟨.boot d, []⟩ (Traced.Step g) (fun t a => Disciplined g t.sys a) t

/-- The system implements the store of the latest contents, and every read of the trace returned the
contents that were the latest then. -/
theorem Reachable.inv {g : Log.Geometry} {d : Disk} {t : Traced} (h : Reachable g d t) :
    (∃ L, Inv g t.sys (latest d t.trace) L) ∧
      ∀ tr1 b data tr2, t.trace = tr1 ++ .read b data :: tr2 → data = latest d tr1 b := by
  refine Lib.Reach.invariant (P := fun t => (∃ L, Inv g t.sys (latest d t.trace) L) ∧
    ∀ tr1 b data tr2, t.trace = tr1 ++ .read b data :: tr2 → data = latest d tr1 b) ?_ ?_ h
  · exact ⟨⟨[], Inv.boot g d⟩, by simp⟩
  · rintro t a t' ⟨⟨L, hinv⟩, hreads⟩ hd ⟨o, hst, htr⟩
    obtain ⟨hread, hinv'⟩ := hinv.step hd hst
    refine ⟨by rw [htr, latest_append]; exact hinv', fun tr1 b data tr2 heq => ?_⟩
    rw [htr] at heq
    cases o with
    | none => exact hreads tr1 b data tr2 (by simpa using heq)
    | some x =>
      -- The read is the new observation, or an older one.
      rcases List.eq_nil_or_concat tr2 with rfl | ⟨tr, y, rfl⟩
      · obtain ⟨rfl, hx⟩ := List.append_inj' heq rfl
        cases hx
        exact hread b data rfl
      · rw [List.concat_eq_append, ← List.cons_append, ← List.append_assoc] at heq
        exact hreads tr1 b data tr (List.append_inj' heq rfl).1

/-- Buffer cache and log behave as a flat block store. In every run of any number of processes, from any
disk, in which buffers are logged or written before they are released, blocks of the log area are not
logged, and nobody but `commit` writes a block of the log area or of the running commit, a `bread` of a
block of `ROOTDEV` returns the contents most recently given to the block by a modification that was logged
or written, or the initial contents if there is none. -/
theorem bread_returns_latest (g : Log.Geometry) (d : Disk) (t : Traced) (h : Reachable g d t)
    (tr₁ tr₂ : List Obs) (b : ℕ) (data : Block) (htr : t.trace = tr₁ ++ .read b data :: tr₂) :
    data = latest d tr₁ b :=
  h.inv.2 tr₁ b data tr₂ htr

/-- The state after a step that does not panic. -/
def Traced.next (g : Log.Geometry) (t : Traced) (a : Act) : Option Traced :=
  match step g t.sys a with
  | some (.ok (s, o)) => some ⟨s, t.trace ++ o.toList⟩
  | _ => none

theorem Traced.Step.of_next {g : Log.Geometry} {t t' : Traced} {a : Act}
    (h : t.next g a = some t') : t.Step g a t' := by
  unfold Traced.next at h
  split at h
  · next s o hs =>
    cases h
    exact ⟨o, hs, rfl⟩
  · cases h

instance (g : Log.Geometry) (b : ℕ) : Decidable (Outside g b) :=
  inferInstanceAs (Decidable (b < g.start ∨ g.start + g.size ≤ b))

/-- `Disciplined` as a test. -/
def disciplined (g : Log.Geometry) (s : Sys) : Act → Bool
  | .brelse _ i => !s.mem.dirty i
  | .logWrite _ i => (s.mem.cache.buf i).dev == ROOTDEV &&
      decide (Outside g (s.mem.cache.buf i).blockno)
  | .bwrite _ i => (s.mem.cache.buf i).dev == ROOTDEV && (!s.ops.log.committing ||
      decide ((s.mem.cache.buf i).blockno ∉ s.ops.log.lh ∧ Outside g (s.mem.cache.buf i).blockno))
  | _ => true

theorem disciplined_sound {g : Log.Geometry} {s : Sys} {a : Act} (h : disciplined g s a = true) :
    Disciplined g s a := by
  cases a with
  | bwrite p i =>
    simp only [disciplined, Bool.and_eq_true, beq_iff_eq, Bool.or_eq_true, Bool.not_eq_true',
      decide_eq_true_eq] at h
    exact ⟨h.1, fun hc => h.2.resolve_left (by simp [hc])⟩
  | _ => simp_all [disciplined, Disciplined]

/-- A process logs or writes a buffer before it releases it. -/
def clean (s : Sys) : Act → Bool
  | .brelse _ i => !s.mem.dirty i
  | _ => true

/-- A disk of zeros. -/
def zeros : Disk := fun _ => .fill BSIZE 0

/-- The first buffer, and the one that is recycled after two others have been used. -/
def buf0 : BufId := ⟨0, zero_lt_nbuf⟩
/-- The third buffer. -/
def buf2 : BufId := ⟨2, by decide⟩

/-- Process 0 logs block 50 with new contents, ends its operation, and copies the block to the log. -/
def logFifty : List Act :=
  [.enter 0, .begin 0, .bread 0 1 50, .lock 0, .fill 0, .modify 0 buf0 (.fill BSIZE 7), .logWrite 0 buf0,
    .brelse 0 buf0, .rel 0, .endOp 0, .commit 0, .commit 0, .lock 0, .fill 0, .commit 0, .lock 0, .commit 0,
    .commit 0, .commit 0, .rel 0, .commit 0, .rel 0, .commit 0]

/-- Process 1 gives other contents to the block that it has read into buffer `i`, and writes it. -/
def writeBlock (i : BufId) : List Act := [.modify 1 i (.fill BSIZE 9), .bwrite 1 i, .brelse 1 i, .rel 1]

/-- Process 0 writes the header of the log and installs the block; then process 1 reads block 50. -/
def installFifty : List Act :=
  [.commit 0, .commit 0, .lock 0, .fill 0, .commit 0, .commit 0, .commit 0, .rel 0, .commit 0, .commit 0,
    .lock 0, .commit 0, .lock 0, .commit 0, .commit 0, .commit 0, .commit 0, .rel 0, .commit 0, .rel 0,
    .bread 1 1 50, .lock 1]

/-- The block of a read, and the first byte of its contents. -/
def lastRead : Option Obs → ℕ × UInt8
  | some (.read b data) => (b, data.get 0)
  | _ => (0, 0)

theorem of_lastRead {tr : List Obs} {b : ℕ} {v : UInt8} (hb : b ≠ 0) (h : lastRead tr.getLast? = (b, v)) :
    ∃ data, tr = tr.dropLast ++ [.read b data] ∧ data.get 0 = v := by
  unfold lastRead at h
  split at h
  · next b' data hget =>
    obtain ⟨rfl, rfl⟩ := Prod.mk.inj h
    obtain ⟨tr', rfl⟩ := List.getLast?_eq_some_iff.mp hget
    exact ⟨data, by simp, rfl⟩
  · cases h
    exact absurd rfl hb

/-- During the commit process 1 writes block 60. The read of block 50 returns the contents that were logged
and then installed. -/
theorem bread_returns_latest_commit : ∃ t tr data, Reachable ⟨2, 30⟩ zeros t ∧
    t.trace = tr ++ [.read 50 data] ∧ data.get 0 = 7 ∧ data = latest zeros tr 50 := by
  have hrun : ((Lib.execute (Traced.next ⟨2, 30⟩) (fun t a => disciplined ⟨2, 30⟩ t.sys a)
      ⟨.boot zeros, []⟩ (logFifty ++ [.bread 1 1 60, .lock 1, .fill 1] ++ writeBlock buf2 ++
        installFifty)).map fun t => lastRead t.trace.getLast?) = some (50, 7) := by decide +kernel
  obtain ⟨t, ht, hlast⟩ := Option.map_eq_some_iff.mp hrun
  have hreach : Reachable ⟨2, 30⟩ zeros t :=
    Lib.Reach.init.execute (fun _ _ _ => Traced.Step.of_next) (fun _ _ => disciplined_sound) ht
  obtain ⟨data, htr, hbyte⟩ := of_lastRead (by decide) hlast
  exact ⟨t, _, data, hreach, htr, hbyte, bread_returns_latest _ _ t hreach _ [] 50 data htr⟩

/-- If process 1 instead writes block 50, which is being committed, `install_trans` overwrites its contents
with those in the log: a read then returns 7, though the contents most recently given to the block are 9. -/
theorem bread_after_install : ∃ t tr data, Lib.execute (Traced.next ⟨2, 30⟩) (fun t a => clean t.sys a)
      ⟨.boot zeros, []⟩ (logFifty ++ [.bread 1 1 50, .lock 1] ++ writeBlock buf0 ++ installFifty) = some t ∧
    t.trace = tr ++ [.read 50 data] ∧ data.get 0 = 7 ∧ (latest zeros tr 50).get 0 = 9 := by
  have hrun : ((Lib.execute (Traced.next ⟨2, 30⟩) (fun t a => clean t.sys a) ⟨.boot zeros, []⟩
      (logFifty ++ [.bread 1 1 50, .lock 1] ++ writeBlock buf0 ++ installFifty)).map fun t =>
        (lastRead t.trace.getLast?, (latest zeros t.trace.dropLast 50).get 0)) = some ((50, 7), 9) := by
    decide +kernel
  obtain ⟨t, ht, heq⟩ := Option.map_eq_some_iff.mp hrun
  obtain ⟨hlast, hlatest⟩ := Prod.mk.inj heq
  obtain ⟨data, htr, hbyte⟩ := of_lastRead (by decide) hlast
  exact ⟨t, _, data, ht, htr, hbyte, hlatest⟩

end Xv6.Bio
