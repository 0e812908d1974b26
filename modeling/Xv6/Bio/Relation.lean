import Xv6.Bio.MemInv

/-!
# The system and the flat store

The flat store is a map from block numbers to blocks: a write observation sets a block, a read
observation returns it. `Inv` relates a state of the system to the store. Besides `MemInv` it says how
far a running commit has come: which of its buffers it holds, that the log blocks written so far hold
what the store has for their home blocks, and which home blocks are still only in the cache. The last
two make installing a block invisible: what `install_trans` copies out of the log is what the store has
already.
-/

namespace Xv6.Bio

open Log (Outside)

/-- The store after an observation. -/
def Obs.apply (store : Disk) : Option Obs → Disk
  | some (.write b data) => Function.update store b data
  | _ => store

/-- A step without an observation leaves the store alone. -/
@[simp]
theorem Obs.apply_none (store : Disk) : Obs.apply store none = store := rfl

/-- The blocks of the header `lh` that a commit at the given point has not unpinned yet. -/
def toInstall (lh : List ℕ) (stage : ℕ) : Ops.CommitPc → List ℕ
  | .test | .writeLog _ | .writeHead => lh
  | .install tail => if stage ≤ 4 then lh.drop tail else lh.drop (tail + 1)
  | .clear | .eraseHead | .done => []

/-- The committing process `p` holds the buffer of block `b` in its variable `r`. -/
structure Holds (s : Sys) (p : ℕ) (r : Reg) (b : ℕ) : Prop where
  carries : Carries s.mem.cache (s.reg r) b
  lock : (s.mem.cache.buf (s.reg r)).lock = some p
  valid : (s.mem.cache.buf (s.reg r)).valid = true

/-- The first `n` log blocks hold what the store has for their home blocks. -/
def Slots (g : Log.Geometry) (store : Disk) (lh : List ℕ) (n : ℕ) : Prop :=
  ∀ j b, j < n → lh[j]? = some b → store (g.start + j + 1) = store b

/-- The header block's buffer, as `write_head` uses it: held from its first to its last call, and
written back before the last. -/
structure HeadAt (g : Log.Geometry) (s : Sys) (p : ℕ) : Prop where
  holds : 1 ≤ s.stage → s.stage ≤ 3 → Holds s p .log g.start
  written : s.stage = 3 → s.mem.dirty (s.reg .log) = false

/-- What `write_log` has done to block `tail`, whose home is `b`. -/
structure WriteLogAt (g : Log.Geometry) (s : Sys) (store : Disk) (p tail b : ℕ) : Prop where
  log : 1 ≤ s.stage → s.stage ≤ 5 → Holds s p .log (g.start + tail + 1)
  home : 2 ≤ s.stage → s.stage ≤ 4 → Holds s p .home b ∧ s.mem.dirty (s.reg .home) = false
  copied : s.stage = 3 → (s.mem.cache.buf (s.reg .log)).data = store b
  written : 4 ≤ s.stage → store (g.start + tail + 1) = store b
  clean : 4 ≤ s.stage → s.stage ≤ 5 → s.mem.dirty (s.reg .log) = false

/-- What `install_trans` has done to block `tail`, whose home is `b`. -/
structure InstallAt (g : Log.Geometry) (s : Sys) (store : Disk) (p tail b : ℕ) : Prop where
  log : 1 ≤ s.stage → s.stage ≤ 5 →
    Holds s p .log (g.start + tail + 1) ∧ s.mem.dirty (s.reg .log) = false
  home : 2 ≤ s.stage → s.stage ≤ 6 → Holds s p .home b
  copied : s.stage = 3 → (s.mem.cache.buf (s.reg .home)).data = store b
  written : s.stage = 4 → s.mem.disk b = store b
  clean : 4 ≤ s.stage → s.stage ≤ 6 → s.mem.dirty (s.reg .home) = false

/-- How far the commit of process `p` has come. -/
def CommitAt (g : Log.Geometry) (s : Sys) (store : Disk) (p : ℕ) : Ops.CommitPc → Prop
  | .writeLog tail => Slots g store s.ops.log.lh tail ∧
      ∀ b, s.ops.log.lh[tail]? = some b → WriteLogAt g s store p tail b
  | .writeHead => Slots g store s.ops.log.lh s.ops.log.lh.length ∧ HeadAt g s p
  | .install tail => Slots g store s.ops.log.lh s.ops.log.lh.length ∧
      ∀ b, s.ops.log.lh[tail]? = some b → InstallAt g s store p tail b
  | .eraseHead => HeadAt g s p
  | .test | .clear | .done => True

/-- A `bread` in progress in `commit` is the one that its program is at. -/
def CallAt (g : Log.Geometry) (s : Sys) (p : ℕ) (pc : Ops.CommitPc) : Prop :=
  ∀ dev b i, s.mem.call p = some (.lock dev b i) ∨ s.mem.call p = some (.fill dev b i) →
    dev = ROOTDEV ∧ ∃ r, (program g s.ops.log.lh pc)[s.stage]? = some (.bread r b)

/-- The relation between the system and the store. `L` lists the blocks that are only in the cache. -/
structure Inv (g : Log.Geometry) (s : Sys) (store : Disk) (L : List ℕ) : Prop where
  control : Ops.Control s.ops
  history : Ops.History s.ops
  mem : MemInv s.mem store L
  outside : ∀ b ∈ s.ops.log.lh, Outside g b
  size : s.ops.log.lh.length ≤ g.size - 1
  idle : s.ops.log.committing = false → L = s.ops.log.lh
  commit : ∀ p pc, s.ops.phase p = .commit pc →
    L = toInstall s.ops.log.lh s.stage pc ∧ CommitAt g s store p pc ∧ CallAt g s p pc

theorem Inv.boot (g : Log.Geometry) (d : Disk) : Inv g (.boot d) d [] :=
  ⟨.init, .init, .boot d, by simp [Sys.boot, Ops.init], by simp [Sys.boot, Ops.init],
    fun _ => rfl, by simp [Sys.boot, Ops.init]⟩

/-! ## What other processes leave alone -/

section Frame

variable {g : Log.Geometry} {s s' : Sys} {store store' : Disk} {L : List ℕ} {p : ℕ}
  {pc : Ops.CommitPc}

theorem not_outside_slot {lh : List ℕ} (hsize : lh.length ≤ g.size - 1) {j b : ℕ}
    (hj : lh[j]? = some b) : ¬ Outside g (g.start + j + 1) := by
  have hlt : j < lh.length := (List.getElem?_eq_some_iff.mp hj).1
  unfold Outside
  omega

theorem not_outside_start {lh : List ℕ} (hsize : lh.length ≤ g.size - 1) {j b : ℕ}
    (hj : lh[j]? = some b) : ¬ Outside g g.start := by
  have hlt : j < lh.length := (List.getElem?_eq_some_iff.mp hj).1
  unfold Outside
  omega

theorem Inv.home_ne_slot (h : Inv g s store L) {j k b b' : ℕ}
    (hj : s.ops.log.lh[j]? = some b) (hk : s.ops.log.lh[k]? = some b') : b ≠ g.start + k + 1 := by
  intro e
  exact not_outside_slot h.size hk (e ▸ h.outside b (List.mem_of_getElem? hj))

theorem Holds.congr {r : Reg} {b : ℕ} (h : Holds s p r b) (hreg : s'.reg r = s.reg r)
    (hsame : SameBuf s.mem s'.mem (s.reg r)) : Holds s' p r b := by
  refine ⟨⟨?_, ?_⟩, ?_, ?_⟩ <;> rw [hreg]
  · exact hsame.dev.trans h.carries.1
  · exact hsame.blockno.trans h.carries.2
  · exact hsame.lock.trans h.lock
  · exact hsame.valid.trans h.valid

theorem Slots.congr {lh : List ℕ} {n : ℕ} (h : Slots g store lh n)
    (hsize : lh.length ≤ g.size - 1) (hstore : ∀ b, b ∈ lh ∨ ¬ Outside g b → store' b = store b) :
    Slots g store' lh n := by
  intro j b hj hb
  rw [hstore _ (.inr (not_outside_slot hsize hb)), hstore b (.inl (List.mem_of_getElem? hb))]
  exact h j b hj hb

/-- A step of another process does not change how far a commit has come: it leaves the buffers that
the commit holds alone, and the blocks of the commit, in the store and on the disk. -/
theorem CommitAt.frame (h : CommitAt g s store p pc)
    (hsize : s.ops.log.lh.length ≤ g.size - 1) (hlh : s'.ops.log.lh = s.ops.log.lh)
    (hstage : s'.stage = s.stage) (hreg : s'.reg = s.reg)
    (hsame : ∀ j, (s.mem.cache.buf j).lock = some p → SameBuf s.mem s'.mem j)
    (hstore : ∀ b, b ∈ s.ops.log.lh ∨ ¬ Outside g b → store' b = store b)
    (hdisk : ∀ b ∈ s.ops.log.lh, s'.mem.disk b = s.mem.disk b) : CommitAt g s' store' p pc := by
  have hholds : ∀ {r b}, Holds s p r b → Holds s' p r b :=
    fun hr => hr.congr (by rw [hreg]) (hsame _ hr.lock)
  have hdirty : ∀ {r b}, Holds s p r b → s'.mem.dirty (s'.reg r) = s.mem.dirty (s.reg r) :=
    fun {r b} hr => by rw [hreg, (hsame _ hr.lock).dirty]
  have hdata : ∀ {r b}, Holds s p r b →
      (s'.mem.cache.buf (s'.reg r)).data = (s.mem.cache.buf (s.reg r)).data :=
    fun {r b} hr => by rw [hreg, (hsame _ hr.lock).data]
  have hhead : HeadAt g s p → HeadAt g s' p := fun hh =>
    ⟨fun h1 h3 => hholds (hh.holds (hstage ▸ h1) (hstage ▸ h3)),
      fun h3 => by
        rw [hstage] at h3
        rw [hdirty (hh.holds (by omega) (by omega))]
        exact hh.written h3⟩
  cases pc with
  | writeLog tail =>
    obtain ⟨hslots, hat⟩ := h
    refine ⟨hlh ▸ hslots.congr hsize hstore, fun b hb => ?_⟩
    rw [hlh] at hb
    have hat := hat b hb
    have hb' := hstore b (.inl (List.mem_of_getElem? hb))
    have hs' := hstore _ (.inr (not_outside_slot hsize hb))
    constructor <;> rw [hstage]
    · exact fun h1 h5 => hholds (hat.log h1 h5)
    · intro h2 h4
      obtain ⟨hh, hd⟩ := hat.home h2 h4
      exact ⟨hholds hh, (hdirty hh).trans hd⟩
    · intro h3
      rw [hdata (hat.log (by omega) (by omega)), hb']
      exact hat.copied h3
    · intro h4
      rw [hs', hb']
      exact hat.written h4
    · intro h4 h5
      exact (hdirty (hat.log (by omega) h5)).trans (hat.clean h4 h5)
  | writeHead => exact ⟨hlh ▸ h.1.congr hsize hstore, hhead h.2⟩
  | install tail =>
    obtain ⟨hslots, hat⟩ := h
    refine ⟨hlh ▸ hslots.congr hsize hstore, fun b hb => ?_⟩
    rw [hlh] at hb
    have hat := hat b hb
    have hb' := hstore b (.inl (List.mem_of_getElem? hb))
    constructor <;> rw [hstage]
    · intro h1 h5
      obtain ⟨hh, hd⟩ := hat.log h1 h5
      exact ⟨hholds hh, (hdirty hh).trans hd⟩
    · exact fun h2 h6 => hholds (hat.home h2 h6)
    · intro h3
      rw [hdata (hat.home (by omega) (by omega)), hb']
      exact hat.copied h3
    · intro h4
      rw [hdisk b (List.mem_of_getElem? hb), hb']
      exact hat.written h4
    · intro h4 h6
      exact (hdirty (hat.home (by omega) h6)).trans (hat.clean h4 h6)
  | eraseHead => exact hhead h
  | test | clear | done => trivial

/-- A step of a process that is not in `commit` keeps the relation, if it keeps it for the memory and
leaves alone the buffers of other processes and, while a commit is running, the blocks of the
commit. -/
theorem Inv.byClient (h : Inv g s store L) (hp : ∀ pc, s.ops.phase p ≠ .commit pc)
    (hops : s'.ops = s.ops) (hstage : s'.stage = s.stage) (hreg : s'.reg = s.reg)
    (hmem : MemInv s'.mem store' L) (hcall : ∀ q, q ≠ p → s'.mem.call q = s.mem.call q)
    (hsame : ∀ q j, q ≠ p → (s.mem.cache.buf j).lock = some q → SameBuf s.mem s'.mem j)
    (hstore : s.ops.log.committing = true →
      ∀ b, b ∈ s.ops.log.lh ∨ ¬ Outside g b → store' b = store b)
    (hdisk : s.ops.log.committing = true →
      ∀ b ∈ s.ops.log.lh, s'.mem.disk b = s.mem.disk b) : Inv g s' store' L := by
  refine ⟨hops ▸ h.control, hops ▸ h.history, hmem, hops ▸ h.outside, hops ▸ h.size, hops ▸ h.idle,
    fun q pc hq => ?_⟩
  rw [hops] at hq
  have hqp : q ≠ p := by
    rintro rfl
    exact hp pc hq
  have hcom : s.ops.log.committing = true := h.control.committing_iff.mpr ⟨q, pc, hq⟩
  obtain ⟨hL, hat, hcallAt⟩ := h.commit q pc hq
  refine ⟨by rw [hops, hstage]; exact hL, ?_, ?_⟩
  · exact hat.frame h.size (by rw [hops]) hstage hreg (fun j => hsame q j hqp) (hstore hcom)
      (hdisk hcom)
  · unfold CallAt
    rw [hcall q hqp, hops, hstage]
    exact hcallAt

theorem Inv.byCommit {L' : List ℕ} (h : Inv g s store L) (hp : s.ops.phase p = .commit pc)
    (hops : s'.ops = s.ops) (hmem : MemInv s'.mem store' L')
    (hL : L' = toInstall s.ops.log.lh s'.stage pc) (hat : CommitAt g s' store' p pc)
    (hcall : CallAt g s' p pc) : Inv g s' store' L' := by
  have hcom : s.ops.log.committing = true := h.control.committing_iff.mpr ⟨p, pc, hp⟩
  refine ⟨hops ▸ h.control, hops ▸ h.history, hmem, hops ▸ h.outside, hops ▸ h.size, ?_,
    fun q pc' hq => ?_⟩
  · rw [hops, hcom]
    simp
  · rw [hops] at hq
    obtain rfl := h.control.commit_unique q p pc' pc hq hp
    obtain rfl : pc' = pc := by simpa [hp] using hq.symm
    exact ⟨by rw [hops]; exact hL, hat, hcall⟩

end Frame

end Xv6.Bio
