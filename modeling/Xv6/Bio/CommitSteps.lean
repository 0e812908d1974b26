import Xv6.Bio.Relation

/-!
# The steps of `commit` keep the relation to the flat store

One lemma for each of `write_log`, `write_head` and `install_trans`, with a case for each of their
calls, and one for `commit` going on to its next point.
-/

namespace Xv6.Bio

open Function
open Log (Outside)

section Commit

variable {g : Log.Geometry} {s s' : Sys} {store : Disk} {L : List ℕ} {p : ℕ} {pc : Ops.CommitPc}

theorem program_writeLog {lh : List ℕ} {tail b : ℕ} (h : lh[tail]? = some b) :
    program g lh (.writeLog tail) = [.bread .log (g.start + tail + 1), .bread .home b,
      .move .log .home, .bwrite .log, .brelse .home, .brelse .log] := by
  simp only [program, h]

theorem program_install {lh : List ℕ} {tail b : ℕ} (h : lh[tail]? = some b) :
    program g lh (.install tail) = [.bread .log (g.start + tail + 1), .bread .home b,
      .move .home .log, .bwrite .home, .bunpin .home, .brelse .log, .brelse .home] := by
  simp only [program, h]

/-- A phase of the commit has at most seven instructions. -/
theorem stage_cases {l : List Instr} {n : ℕ} {i : Instr} (h : l[n]? = some i) (hl : l.length ≤ 7) :
    n = 0 ∨ n = 1 ∨ n = 2 ∨ n = 3 ∨ n = 4 ∨ n = 5 ∨ n = 6 := by
  have := (List.getElem?_eq_some_iff.mp h).1
  omega

theorem CommitAt.returned (h : Inv g s store L) (hat : CommitAt g s store p pc) {r : Reg} {b : ℕ}
    {i : BufId} (hins : (program g s.ops.log.lh pc)[s.stage]? = some (.bread r b))
    (hops : s'.ops = s.ops) (hstage : s'.stage = s.stage + 1)
    (hreg : s'.reg = update s.reg r i)
    (hsame : ∀ j, j ≠ i → (s.mem.cache.buf j).lock = some p → SameBuf s.mem s'.mem j)
    (hcar : Carries s.mem.cache i b) (hcar' : Carries s'.mem.cache i b)
    (hlock : (s'.mem.cache.buf i).lock = some p) (hvalid : (s'.mem.cache.buf i).valid = true)
    (hdirty : s'.mem.dirty i = false) : CommitAt g s' store p pc := by
  -- The new buffer is held, and a buffer of another block stays held.
  have hself : s'.reg r = i := by rw [hreg, update_self]
  have hnew : Holds s' p r b := ⟨by rw [hself]; exact hcar', by rw [hself]; exact hlock,
    by rw [hself]; exact hvalid⟩
  have hclean : s'.mem.dirty (s'.reg r) = false := by rw [hself]; exact hdirty
  have hold : ∀ {r' b'}, r' ≠ r → b' ≠ b → Holds s p r' b' →
      Holds s' p r' b' ∧ s'.mem.dirty (s'.reg r') = s.mem.dirty (s.reg r') := by
    intro r' b' hr hb hh
    have hne : s.reg r' ≠ i := fun e => hb (hh.carries.2.symm.trans (e ▸ hcar.2))
    have hreg' : s'.reg r' = s.reg r' := by rw [hreg, update_of_ne hr]
    have hs := hsame _ hne hh.lock
    exact ⟨hh.congr hreg' hs, by rw [hreg', hs.dirty]⟩
  have hhead : [Instr.bread .log g.start, .header .log, .bwrite .log, .brelse .log][s.stage]? =
      some (.bread r b) → HeadAt g s' p := by
    intro hins
    rcases stage_cases hins (by simp) with h0 | h0 | h0 | h0 | h0 | h0 | h0 <;>
      rw [h0] at hins <;> simp only [List.getElem?_cons_succ, List.getElem?_cons_zero, List.getElem?_nil,
        Option.some.injEq, Instr.bread.injEq, reduceCtorEq] at hins
    obtain ⟨rfl, rfl⟩ := hins
    constructor <;> intros <;> first | exact hnew | omega
  cases pc with
  | writeLog tail =>
    obtain ⟨hslots, hat⟩ := hat
    refine ⟨hops ▸ hslots, fun b' hb' => ?_⟩
    rw [hops] at hb'
    have hat := hat b' hb'
    rw [program_writeLog hb'] at hins
    rcases stage_cases hins (by simp) with h0 | h0 | h0 | h0 | h0 | h0 | h0 <;>
      rw [h0] at hins <;> simp only [List.getElem?_cons_succ, List.getElem?_cons_zero, List.getElem?_nil,
        Option.some.injEq, Instr.bread.injEq, reduceCtorEq] at hins
    · obtain ⟨rfl, rfl⟩ := hins
      constructor <;> intros <;> first | exact hnew | omega
    · obtain ⟨rfl, rfl⟩ := hins
      obtain ⟨hlog, -⟩ := hold (by decide) (Ne.symm (h.home_ne_slot hb' hb'))
        (hat.log (by omega) (by omega))
      constructor <;> intros <;> first | exact hlog | exact ⟨hnew, hclean⟩ | omega
  | writeHead => exact ⟨hops ▸ hat.1, hhead hins⟩
  | install tail =>
    obtain ⟨hslots, hat⟩ := hat
    refine ⟨hops ▸ hslots, fun b' hb' => ?_⟩
    rw [hops] at hb'
    have hat := hat b' hb'
    rw [program_install hb'] at hins
    rcases stage_cases hins (by simp) with h0 | h0 | h0 | h0 | h0 | h0 | h0 <;>
      rw [h0] at hins <;> simp only [List.getElem?_cons_succ, List.getElem?_cons_zero,
        Option.some.injEq, Instr.bread.injEq, reduceCtorEq] at hins
    · obtain ⟨rfl, rfl⟩ := hins
      constructor <;> intros <;> first | exact ⟨hnew, hclean⟩ | omega
    · obtain ⟨rfl, rfl⟩ := hins
      obtain ⟨hh, hd⟩ := hat.log (by omega) (by omega)
      obtain ⟨hlog, hd'⟩ := hold (by decide) (Ne.symm (h.home_ne_slot hb' hb')) hh
      constructor <;> intros <;> first | exact ⟨hlog, hd'.trans hd⟩ | exact hnew | omega
  | eraseHead => exact hhead hins
  | _ => trivial

theorem Holds.put {r : Reg} {b n : ℕ} {data : Block} (h : Holds s p r b) :
    Holds { s with mem := s.mem.put (s.reg r) data, stage := n } p r b :=
  ⟨⟨by simpa [Mem.put] using h.carries.1, by simpa [Mem.put] using h.carries.2⟩,
    by simpa [Mem.put] using h.lock, by simpa [Mem.put] using h.valid⟩

theorem Holds.bwrite {r : Reg} {b n : ℕ} {i : BufId} (h : Holds s p r b) :
    Holds { s with mem := s.mem.bwrite i, stage := n } p r b :=
  ⟨h.carries, h.lock, h.valid⟩

theorem Holds.reg_ne {r r' : Reg} {b b' : ℕ} (h : Holds s p r b) (h' : Holds s p r' b')
    (hb : b ≠ b') : s.reg r ≠ s.reg r' :=
  fun e => hb (h.carries.2.symm.trans (e ▸ h'.carries.2))

theorem callAt_of_none (hc : s.mem.call p = none) : CallAt g s p pc := by
  intro dev b i hcall
  simp [hc] at hcall

/-- What a step of `commit` has to show: its observation is no read, and the relation holds again. -/
def Good (g : Log.Geometry) (s' : Sys) (store : Disk) (o : Option Obs) : Prop :=
  (∀ b data, o = some (.read b data) → data = store b) ∧ ∃ L, Inv g s' (Obs.apply store o) L

theorem exec_bwrite_ok {r : Reg} {o : Option Obs}
    (he : s.exec p pc (.bwrite r) = some (.ok (s', o))) :
    (s.mem.cache.buf (s.reg r)).lock = some p ∧
      s' = { s with mem := s.mem.bwrite (s.reg r), stage := s.stage + 1 } ∧
      o = commitObs (s.mem.cache.buf (s.reg r)) pc := by
  simp only [Sys.exec] at he
  split_ifs at he with hl
  · cases he
    exact ⟨hl, rfl, rfl⟩
  · simp at he

theorem exec_brelse_ok {r : Reg} {o : Option Obs}
    (he : s.exec p pc (.brelse r) = some (.ok (s', o))) :
    (s.mem.cache.buf (s.reg r)).lock = some p ∧
      s' = { s with mem := s.mem.release p (s.reg r), stage := s.stage + 1 } ∧ o = none := by
  simp only [Sys.exec] at he
  split_ifs at he with hl
  · cases he
    exact ⟨hl, rfl, rfl⟩
  · simp at he

theorem callAt_release {r : Reg} {n : ℕ} :
    CallAt g { s with mem := s.mem.release p (s.reg r), stage := n } p pc := by
  intro dev b i hcall
  simp [Mem.release] at hcall

theorem Inv.exec_bread (h : Inv g s store L) (hp : s.ops.phase p = .commit pc)
    (hc : s.mem.call p = none) {r : Reg} {b : ℕ} {o : Option Obs}
    (hins : (program g s.ops.log.lh pc)[s.stage]? = some (.bread r b))
    (he : s.exec p pc (.bread r b) = some (.ok (s', o))) : Good g s' store o := by
  simp only [Sys.exec] at he
  split at he
  · cases he
  · next m hget =>
    cases he
    obtain ⟨hmem, hsame, hdisk, i, hcall⟩ := h.mem.bget hc hget
    obtain ⟨hL, hat, -⟩ := h.commit p pc hp
    refine ⟨by simp, L, h.byCommit hp rfl hmem hL ?_ ?_⟩
    · exact hat.frame h.size rfl rfl rfl (fun j hj => hsame j (by simp [hj])) (fun _ _ => rfl)
        fun b _ => by rw [hdisk]
    · intro dev b' i' hcall'
      simp only [hcall, update_self, Option.some.injEq, Call.lock.injEq, reduceCtorEq,
        or_false] at hcall'
      obtain ⟨rfl, rfl, -⟩ := hcall'
      exact ⟨rfl, r, hins⟩

theorem only_of_some {o : Option ℕ} {b : ℕ} {P : ℕ → Prop} (hb : o = some b) (h : P b) :
    ∀ b', o = some b' → P b' := fun _ hb' => Option.some.inj (hb.symm.trans hb') ▸ h

theorem Inv.exec_writeLog (h : Inv g s store L) {tail b : ℕ}
    (hp : s.ops.phase p = .commit (.writeLog tail)) (hb : s.ops.log.lh[tail]? = some b)
    (hc : s.mem.call p = none) {ins : Instr} {o : Option Obs}
    (hins : (program g s.ops.log.lh (.writeLog tail))[s.stage]? = some ins)
    (he : s.exec p (.writeLog tail) ins = some (.ok (s', o))) : Good g s' store o := by
  obtain ⟨hL, ⟨hslots, hat⟩, -⟩ := h.commit p _ hp
  have hat := hat b hb
  have hne : b ≠ g.start + tail + 1 := h.home_ne_slot hb hb
  have hins' := hins
  rw [program_writeLog hb] at hins'
  rcases stage_cases hins' (by simp) with h0 | h0 | h0 | h0 | h0 | h0 | h0 <;>
    rw [h0] at hins' <;> simp only [List.getElem?_cons_succ, List.getElem?_cons_zero, List.getElem?_nil,
      Option.some.injEq, reduceCtorEq] at hins' <;> subst hins'
  · exact h.exec_bread hp hc hins he
  · exact h.exec_bread hp hc hins he
  · -- `memmove`: the log buffer gets what the store has for the home block.
    cases he
    have hlog := hat.log (by omega) (by omega)
    obtain ⟨hhome, hd⟩ := hat.home (by omega) (by omega)
    have hregs : s.reg .home ≠ s.reg .log := hhome.reg_ne hlog hne
    have hdata := h.mem.clean _ hhome.carries.1 hhome.valid hd
    rw [hhome.carries.2] at hdata
    refine ⟨by simp, L, h.byCommit hp rfl (h.mem.put hlog.lock hc _) hL ⟨hslots, only_of_some hb ?_⟩
      (callAt_of_none hc)⟩
    constructor <;> intros <;> simp only at *
    · exact hlog.put
    · exact ⟨hhome.congr rfl (.put hregs), (SameBuf.put hregs).dirty.trans hd⟩
    · simpa [Mem.put] using hdata
    · omega
    · omega
  · -- `bwrite(to)`: the store takes the contents over.
    obtain ⟨-, rfl, rfl⟩ := exec_bwrite_ok he
    have hlog := hat.log (by omega) (by omega)
    obtain ⟨hhome, hd⟩ := hat.home (by omega) (by omega)
    have hregs : s.reg .home ≠ s.reg .log := hhome.reg_ne hlog hne
    have hcop := hat.copied h0
    have hmem := h.mem.bwrite hlog.carries
    refine ⟨by simp [commitObs], L, ?_⟩
    simp only [commitObs, Obs.apply]
    rw [hlog.carries.2]
    refine h.byCommit hp rfl hmem hL ⟨fun j b' hj hb' => ?_, only_of_some hb ?_⟩ (callAt_of_none hc)
    · have h1 : g.start + j + 1 ≠ g.start + tail + 1 := by omega
      rw [update_of_ne h1, update_of_ne (h.home_ne_slot hb' hb)]
      exact hslots j b' hj hb'
    · constructor <;> intros <;> simp only at *
      · exact hlog.bwrite
      · exact ⟨hhome.bwrite, (SameBuf.bwrite hregs).dirty.trans hd⟩
      · omega
      · rw [update_self, update_of_ne hne]
        exact hcop
      · simp [Mem.bwrite]
  · -- `brelse(from)`
    obtain ⟨hl, rfl, rfl⟩ := exec_brelse_ok he
    have hlog := hat.log (by omega) (by omega)
    obtain ⟨hhome, hd⟩ := hat.home (by omega) (by omega)
    have hregs : s.reg .log ≠ s.reg .home := Ne.symm (hhome.reg_ne hlog hne)
    refine ⟨by simp, L, h.byCommit hp rfl (h.mem.release hc hl hd) hL ⟨hslots, only_of_some hb ?_⟩
      callAt_release⟩
    have hwritten := hat.written (by omega)
    have hclean := hat.clean (by omega) (by omega)
    constructor <;> intros <;> simp only at *
    · exact hlog.congr rfl (.release hregs)
    · omega
    · omega
    · exact hwritten
    · exact hclean
  · -- `brelse(to)`
    obtain ⟨hl, rfl, rfl⟩ := exec_brelse_ok he
    refine ⟨by simp, L, h.byCommit hp rfl
      (h.mem.release hc hl (hat.clean (by omega) (by omega))) hL ⟨hslots, only_of_some hb ?_⟩
      callAt_release⟩
    have hwritten := hat.written (by omega)
    constructor <;> intros <;> simp only at * <;> first | omega | exact hwritten

theorem Inv.exec_head (h : Inv g s store L) (hp : s.ops.phase p = .commit pc)
    (hprog : program g s.ops.log.lh pc =
      [.bread .log g.start, .header .log, .bwrite .log, .brelse .log])
    (hpc : pc = .writeHead ∨ pc = .eraseHead) (hc : s.mem.call p = none) {ins : Instr}
    {o : Option Obs} (hins : (program g s.ops.log.lh pc)[s.stage]? = some ins)
    (he : s.exec p pc ins = some (.ok (s', o))) : Good g s' store o := by
  obtain ⟨hL, hat, -⟩ := h.commit p _ hp
  -- Both points ask for the same of the header's buffer; the slots do not see the header block.
  have hhead : HeadAt g s p := by
    rcases hpc with rfl | rfl
    · exact hat.2
    · exact hat
  have hmk : ∀ {s' : Sys} {store' : Disk}, s'.ops = s.ops →
      (∀ b, b ≠ g.start → store' b = store b) → HeadAt g s' p → CommitAt g s' store' p pc := by
    intro s' store' hops hstore hh
    rcases hpc with rfl | rfl
    · refine ⟨fun j b hj hb => ?_, hh⟩
      rw [hops] at hb
      have hbs : b ≠ g.start := fun e =>
        not_outside_start h.size hb (e ▸ h.outside b (List.mem_of_getElem? hb))
      rw [hstore _ (by omega), hstore b hbs]
      exact hat.1 j b (hops ▸ hj) hb
    · exact hh
  have hL' : ∀ n, L = toInstall s.ops.log.lh n pc := by
    intro n
    rcases hpc with rfl | rfl <;> exact hL
  have hins' := hins
  rw [hprog] at hins'
  rcases stage_cases hins' (by simp) with h0 | h0 | h0 | h0 | h0 | h0 | h0 <;>
    rw [h0] at hins' <;> simp only [List.getElem?_cons_succ, List.getElem?_cons_zero, List.getElem?_nil,
      Option.some.injEq, reduceCtorEq] at hins' <;> subst hins'
  · exact h.exec_bread hp hc hins he
  · cases he
    have hlog := hhead.holds (by omega) (by omega)
    refine ⟨by simp, L, h.byCommit hp rfl (h.mem.put hlog.lock hc _) (hL' _) ?_
      (callAt_of_none hc)⟩
    refine hmk rfl (fun _ _ => rfl) ⟨fun _ _ => hlog.put, fun h3 => ?_⟩
    simp only at h3
    omega
  · obtain ⟨-, rfl, rfl⟩ := exec_bwrite_ok he
    have hlog := hhead.holds (by omega) (by omega)
    have hobs : commitObs (s.mem.cache.buf (s.reg .log)) pc =
        some (.write g.start (s.mem.cache.buf (s.reg .log)).data) := by
      rcases hpc with rfl | rfl <;> simp [commitObs, hlog.carries.2]
    rw [hobs]
    refine ⟨by simp, L, h.byCommit hp rfl (h.mem.bwrite hlog.carries) (hL' _) ?_
      (callAt_of_none hc)⟩
    refine hmk rfl (fun b hb => update_of_ne hb _ _)
      ⟨fun _ _ => hlog.bwrite, fun _ => ?_⟩
    simp [Mem.bwrite]
  · obtain ⟨hl, rfl, rfl⟩ := exec_brelse_ok he
    refine ⟨by simp, L, h.byCommit hp rfl (h.mem.release hc hl (hhead.written h0)) (hL' _) ?_
      callAt_release⟩
    refine hmk rfl (fun _ _ => rfl) ⟨fun _ h3 => ?_, fun h3 => ?_⟩ <;> simp only at h3 <;> omega

theorem Inv.exec_install (h : Inv g s store L) {tail b : ℕ}
    (hp : s.ops.phase p = .commit (.install tail)) (hb : s.ops.log.lh[tail]? = some b)
    (hc : s.mem.call p = none) {ins : Instr} {o : Option Obs}
    (hins : (program g s.ops.log.lh (.install tail))[s.stage]? = some ins)
    (he : s.exec p (.install tail) ins = some (.ok (s', o))) : Good g s' store o := by
  obtain ⟨hL, ⟨hslots, hat⟩, -⟩ := h.commit p _ hp
  have hat := hat b hb
  have hne : b ≠ g.start + tail + 1 := h.home_ne_slot hb hb
  have hlt : tail < s.ops.log.lh.length := (List.getElem?_eq_some_iff.mp hb).1
  have hins' := hins
  rw [program_install hb] at hins'
  rcases stage_cases hins' (by simp) with h0 | h0 | h0 | h0 | h0 | h0 | h0 <;>
    rw [h0] at hins' <;> simp only [List.getElem?_cons_succ, List.getElem?_cons_zero,
      Option.some.injEq] at hins' <;> subst hins'
  · exact h.exec_bread hp hc hins he
  · exact h.exec_bread hp hc hins he
  · -- `memmove`: the log block is what the store has for the home block.
    cases he
    obtain ⟨hlog, hd⟩ := hat.log (by omega) (by omega)
    have hhome := hat.home (by omega) (by omega)
    have hregs : s.reg .log ≠ s.reg .home := hlog.reg_ne hhome hne.symm
    have hdata := h.mem.clean _ hlog.carries.1 hlog.valid hd
    rw [hlog.carries.2, hslots tail b hlt hb] at hdata
    refine ⟨by simp, L, h.byCommit hp rfl (h.mem.put hhome.lock hc _) ?_ ⟨hslots, only_of_some hb ?_⟩
      (callAt_of_none hc)⟩
    · simpa [toInstall, h0] using hL
    · constructor <;> intros <;> simp only at *
      · exact ⟨hlog.congr rfl (.put hregs), (SameBuf.put hregs).dirty.trans hd⟩
      · exact hhome.put
      · simpa [Mem.put] using hdata
      · omega
      · omega
  · -- `bwrite(dbuf)`: the disk catches up with the store.
    obtain ⟨-, rfl, rfl⟩ := exec_bwrite_ok he
    obtain ⟨hlog, hd⟩ := hat.log (by omega) (by omega)
    have hhome := hat.home (by omega) (by omega)
    have hregs : s.reg .log ≠ s.reg .home := hlog.reg_ne hhome hne.symm
    have hcop := hat.copied h0
    have hmem := h.mem.bwrite hhome.carries
    rw [hcop, update_eq_self] at hmem
    refine ⟨by simp [commitObs], L, h.byCommit hp rfl hmem ?_ ⟨hslots, only_of_some hb ?_⟩
      (callAt_of_none hc)⟩
    · simpa [toInstall, h0] using hL
    · constructor <;> intros <;> simp only at *
      · exact ⟨hlog.bwrite, (SameBuf.bwrite hregs).dirty.trans hd⟩
      · exact hhome.bwrite
      · omega
      · simp [Mem.bwrite, hhome.carries.2, hcop, commitObs]
      · simp [Mem.bwrite]
  · -- `bunpin(dbuf)`: the block is on the disk and leaves the list.
    cases he
    obtain ⟨hlog, hd⟩ := hat.log (by omega) (by omega)
    have hhome := hat.home (by omega) (by omega)
    have hLdrop : L = b :: s.ops.log.lh.drop (tail + 1) := by
      rw [hL, toInstall, if_pos (by omega), List.drop_eq_getElem_cons hlt]
      rw [List.getElem?_eq_getElem hlt] at hb
      rw [Option.some.inj hb]
    have hnd : L.Nodup := by
      rw [hL, toInstall, if_pos (by omega)]
      exact h.history.nodup.sublist (List.drop_sublist _ _)
    have hmem := h.mem.unpin hhome.carries (by simp [hLdrop]) hnd (hat.written h0)
    have hclean := hat.clean (by omega) (by omega)
    have hsame : ∀ j, SameBuf s.mem { s.mem with cache := bunpin s.mem.cache (s.reg .home) } j :=
      SameBuf.of_refcnt rfl rfl
    refine ⟨by simp, L.erase b, h.byCommit hp rfl hmem ?_ ⟨hslots, only_of_some hb ?_⟩
      (callAt_of_none hc)⟩
    · simp [toInstall, h0, hLdrop]
    · constructor <;> intros <;> simp only at *
      · exact ⟨hlog.congr rfl (hsame _), hd⟩
      · exact hhome.congr rfl (hsame _)
      · omega
      · omega
      · exact hclean
  · -- `brelse(lbuf)`
    obtain ⟨hl, rfl, rfl⟩ := exec_brelse_ok he
    obtain ⟨hlog, hd⟩ := hat.log (by omega) (by omega)
    have hhome := hat.home (by omega) (by omega)
    have hregs : s.reg .home ≠ s.reg .log := hhome.reg_ne hlog hne
    have hclean := hat.clean (by omega) (by omega)
    refine ⟨by simp, L, h.byCommit hp rfl (h.mem.release hc hl hd) ?_ ⟨hslots, only_of_some hb ?_⟩
      callAt_release⟩
    · simpa [toInstall, h0] using hL
    · constructor <;> intros <;> simp only at *
      · omega
      · exact hhome.congr rfl (.release hregs)
      · omega
      · omega
      · exact hclean
  · -- `brelse(dbuf)`
    obtain ⟨hl, rfl, rfl⟩ := exec_brelse_ok he
    refine ⟨by simp, L, h.byCommit hp rfl
      (h.mem.release hc hl (hat.clean (by omega) (by omega))) ?_ ⟨hslots, only_of_some hb ?_⟩
      callAt_release⟩
    · simpa [toInstall, h0] using hL
    · constructor <;> intros <;> simp only at * <;> omega

theorem headAt_zero (h : s.stage = 0) : HeadAt g s p :=
  ⟨fun h1 => absurd h1 (by omega), fun h3 => absurd h3 (by omega)⟩

theorem Inv.moveCommit (h : Inv g s store L) {ops : Ops.State} {pc' : Ops.CommitPc}
    (hp : s.ops.phase p = .commit pc) (hc : s.mem.call p = none)
    (hst : Ops.Step g.size s.ops (.commit p) ops) (hlog : ops.log.committing = true)
    (hlh : ops.log.lh = s.ops.log.lh ∨ ops.log.lh = [])
    (hphase : ops.phase = update s.ops.phase p (.commit pc'))
    (hL : L = toInstall ops.log.lh 0 pc')
    (hat : CommitAt g { s with ops := ops, stage := 0 } store p pc') :
    Inv g { s with ops := ops, stage := 0 } store L := by
  have hcontrol := h.control.step hst
  refine ⟨hcontrol, h.history.step h.control hst, h.mem, ?_, ?_, ?_, fun q pc'' hq => ?_⟩
  · rcases hlh with e | e <;> simp only [e]
    · exact h.outside
    · simp
  · rcases hlh with e | e <;> simp only [e]
    · exact h.size
    · simp
  · simp [hlog]
  · have hp' : ops.phase p = .commit pc' := by rw [hphase, update_self]
    obtain rfl := hcontrol.commit_unique q p pc'' pc' hq hp'
    obtain rfl : pc' = pc'' := by simpa [hp'] using hq
    exact ⟨hL, hat, callAt_of_none hc⟩

theorem Inv.nextPoint (h : Inv g s store L) (hp : s.ops.phase p = .commit pc)
    (hc : s.mem.call p = none) (hend : (program g s.ops.log.lh pc)[s.stage]? = none) :
    Inv g { s with ops := Ops.commitStep s.ops p pc, stage := 0 } store L := by
  have hst : Ops.Step g.size s.ops (.commit p) (Ops.commitStep s.ops p pc) := by
    simp [Ops.Step, Ops.step, hp]
  have hcom : s.ops.log.committing = true := h.control.committing_iff.mpr ⟨p, pc, hp⟩
  obtain ⟨hL, hat, -⟩ := h.commit p pc hp
  cases pc with
  | test =>
    refine h.moveCommit hp hc hst hcom (.inl rfl) rfl ?_ ?_
    · split_ifs with hn
      · exact hL
      · have : s.ops.log.lh = [] := List.length_eq_zero_iff.mp (by omega)
        rw [hL]
        exact this
    · split_ifs with hn
      · refine ⟨fun j b hj => absurd hj (by omega), fun b hb => ?_⟩
        constructor <;> intros <;> simp only at * <;> omega
      · trivial
  | writeLog tail =>
    obtain ⟨hslots, hat⟩ := hat
    refine h.moveCommit hp hc hst hcom (.inl rfl) rfl ?_ ?_
    · split_ifs <;> exact hL
    · split_ifs with hn
      · obtain ⟨b, hb⟩ : ∃ b, s.ops.log.lh[tail]? = some b := ⟨_, List.getElem?_eq_getElem hn⟩
        rw [program_writeLog hb, List.getElem?_eq_none_iff] at hend
        simp only [List.length_cons, List.length_nil] at hend
        refine ⟨fun j b' hj hb' => ?_, fun b' hb' => ?_⟩
        · rcases Nat.lt_succ_iff_lt_or_eq.mp hj with hj | rfl
          · exact hslots j b' hj hb'
          · exact (hat b' hb').written (by omega)
        · constructor <;> intros <;> simp only at * <;> omega
      · refine ⟨fun j b hj => hslots j b ?_, headAt_zero rfl⟩
        have hj' : j < s.ops.log.lh.length := hj
        omega
  | writeHead =>
    refine h.moveCommit hp hc hst hcom (.inl rfl) rfl ?_ ⟨hat.1, fun b hb => ?_⟩
    · simpa [toInstall, Ops.commitStep, Ops.State.setPhase] using hL
    · constructor <;> intros <;> simp only at * <;> omega
  | install tail =>
    obtain ⟨hslots, hat⟩ := hat
    refine h.moveCommit hp hc hst hcom (.inl rfl) rfl ?_ ?_
    · split_ifs with hn
      · obtain ⟨b, hb⟩ : ∃ b, s.ops.log.lh[tail]? = some b := ⟨_, List.getElem?_eq_getElem hn⟩
        rw [program_install hb, List.getElem?_eq_none_iff] at hend
        simp only [List.length_cons, List.length_nil] at hend
        rw [hL, toInstall, if_neg (by omega)]
        rfl
      · rw [hL, toInstall, List.drop_eq_nil_of_le (by omega), List.drop_eq_nil_of_le (by omega),
          ite_self]
        rfl
    · split_ifs with hn
      · refine ⟨hslots, fun b hb => ?_⟩
        constructor <;> intros <;> simp only at * <;> omega
      · trivial
  | clear => exact h.moveCommit hp hc hst hcom (.inr rfl) rfl hL (headAt_zero rfl)
  | eraseHead => exact h.moveCommit hp hc hst hcom (.inl rfl) rfl hL trivial
  | done =>
    refine ⟨h.control.step hst, h.history.step h.control hst, h.mem, h.outside, h.size, fun _ => ?_,
      fun q pc hq => ?_⟩
    · rw [hL]
      exact (h.history.cleared p (.inr hp)).symm
    · have := (h.control.step hst).committing_iff.mpr ⟨q, pc, hq⟩
      simp [Ops.commitStep] at this

theorem Inv.commitStep (h : Inv g s store L) {o : Option Obs}
    (hst : Step g s (.commit p) o s') : Good g s' store o := by
  simp only [Step, step] at hst
  split_ifs at hst with hc
  have hc' : s.mem.call p = none := by simpa using hc
  split at hst
  · next pc hp =>
    split at hst
    · next ins hins =>
      cases pc with
      | writeLog tail =>
        cases hb : s.ops.log.lh[tail]? with
        | none => simp [program, hb] at hins
        | some b => exact h.exec_writeLog hp hb hc' hins hst
      | install tail =>
        cases hb : s.ops.log.lh[tail]? with
        | none => simp [program, hb] at hins
        | some b => exact h.exec_install hp hb hc' hins hst
      | writeHead => exact h.exec_head hp rfl (.inl rfl) hc' hins hst
      | eraseHead => exact h.exec_head hp rfl (.inr rfl) hc' hins hst
      | _ => simp [program] at hins
    · next hend =>
      cases hst
      exact ⟨by simp, L, h.nextPoint hp hc' hend⟩
  · cases hst

end Commit

end Xv6.Bio
