import Xv6.Process.Fault

/-!
# `copyout`, byte by byte

`copyout` stores a whole range, or the part of it before the first page that is not to be written or
cannot be copied; in both cases it changes no other byte of the process and none of another page table
(`copyout_exact`).
-/

namespace Xv6.Vm

open Lib

/-- The byte of the process at `va`. -/
def Image.get (img : Image) (va : ℕ) : Option UInt8 :=
  (img (va / PGSIZE)).map fun pg => pg.bytes.get (va % PGSIZE)

section

variable {img img' : Image} {L : Layout} {s s' : Phys} {T : Tree} {n v off m k fuel dstva a : ℕ}
  {top f : ℕ → ℕ} {src : ℕ → UInt8}

theorem Image.get_setBytes : (img.setBytes v off m src).get a =
    if a / PGSIZE = v ∧ off ≤ a % PGSIZE ∧ a % PGSIZE < off + m then
      (img.get a).map fun _ => src (a % PGSIZE - off) else img.get a := by
  unfold Image.get Image.setBytes
  by_cases hv : a / PGSIZE = v
  · subst hv
    rw [Function.update_self]
    cases img (a / PGSIZE) with
    | none => simp
    | some pg =>
      have hlt : a % PGSIZE < PGSIZE := Nat.mod_lt _ pgsize_pos
      simp only [Option.map_some, Bytes.get_splice _ _ _ _ hlt, true_and]
      split_ifs <;> rfl
  · rw [Function.update_of_ne hv, if_neg fun h => hv h.1]

theorem Image.storePage_setBytes : ((img.setBytes v off m src).userPage a).filter (·.writable) ≠ none →
    (img.userPage a).filter (·.writable) ≠ none := by
  unfold Image.userPage Image.setBytes
  by_cases hv : a / PGSIZE = v
  · subst hv
    rw [Function.update_self]
    cases img (a / PGSIZE) with
    | none => exact id
    | some pg => cases hu : pg.user <;> cases hw : pg.writable <;> simp [Option.filter, hu, hw]
  · rw [Function.update_of_ne hv]
    exact id

theorem Image.copyout_get (hk : k ≤ fuel) (h : img.copyout fuel dstva src k = (0, img')) (a : ℕ) :
    img'.get a = (if dstva ≤ a ∧ a < dstva + k then some (src (a - dstva)) else img.get a) ∧
      (dstva ≤ a → a < dstva + k → (img.userPage a).filter (·.writable) ≠ none) := by
  induction fuel generalizing img dstva src k with
  | zero =>
    obtain rfl : k = 0 := by omega
    cases h
    exact ⟨(if_neg (by omega)).symm, by omega⟩
  | succ fuel ih =>
    rw [Image.copyout] at h
    by_cases h0 : k = 0
    · subst h0
      cases h
      exact ⟨(if_neg (by omega)).symm, by omega⟩
    rw [if_neg h0] at h
    cases hpage : (img.userPage dstva).filter (·.writable) with
    | none =>
      rw [hpage] at h
      cases h
    | some pg =>
    rw [hpage] at h
    dsimp only at h
    have hmod : dstva % PGSIZE < PGSIZE := Nat.mod_lt _ pgsize_pos
    have hsplit := Nat.div_add_mod dstva PGSIZE
    have hsplita := Nat.div_add_mod a PGSIZE
    have hmoda : a % PGSIZE < PGSIZE := Nat.mod_lt _ pgsize_pos
    generalize hm : min (PGSIZE - dstva % PGSIZE) k = m at h
    obtain ⟨hget, hok⟩ := ih (show k - m ≤ fuel by omega) h
    rw [Image.get_setBytes] at hget
    -- The rest starts at the next page.
    have hnext : 0 < k - m → dstva / PGSIZE * PGSIZE + PGSIZE = dstva + m := fun hpos => by
      rw [Nat.mul_comm]
      omega
    by_cases hfirst : dstva ≤ a ∧ a < dstva + m
    · -- The byte is in the first page.
      have hv : a / PGSIZE = dstva / PGSIZE := by
        refine Nat.div_eq_of_lt_le ?_ ?_
        · rw [Nat.mul_comm]
          omega
        · rw [Nat.add_mul, Nat.one_mul, Nat.mul_comm]
          omega
      have hsame : img.userPage a = img.userPage dstva := by
        unfold Image.userPage
        rw [hv]
      have hsome : ∃ b, img.get a = some b := by
        unfold Image.userPage at hpage
        unfold Image.get
        rw [hv]
        cases himg : img (dstva / PGSIZE) with
        | none =>
          rw [himg] at hpage
          cases hpage
        | some pg => exact ⟨_, rfl⟩
      obtain ⟨b, hb⟩ := hsome
      rw [hv] at hsplita
      refine ⟨?_, fun _ _ => by rw [hsame, hpage]; simp⟩
      rw [hget, if_neg, if_pos ⟨hv, by omega, by omega⟩, hb, if_pos ⟨hfirst.1, by omega⟩]
      · exact congrArg some (congrArg src (by omega))
      · intro hin
        have := hnext (by omega)
        omega
    · by_cases hin : dstva ≤ a ∧ a < dstva + k
      · have hstart := hnext (by omega)
        rw [hstart] at hget hok
        refine ⟨?_, fun _ _ => Image.storePage_setBytes (hok (by omega) (by omega))⟩
        rw [hget, if_pos ⟨by omega, by omega⟩, if_pos hin]
        exact congrArg some (congrArg src (by omega))
      · refine ⟨?_, fun h1 h2 => absurd ⟨h1, h2⟩ hin⟩
        rw [hget, if_neg, if_neg, if_neg hin]
        · rintro ⟨hv, h1, h2⟩
          rw [hv] at hsplita
          omega
        · intro hin'
          have := hnext (by omega)
          omega

/-- **What `copyout` does.** It returns 0 if and only if every byte of the range is in a page that the
user may store to, writable or copy-on-write, and `kalloc` has not failed. It has then stored the whole
range; otherwise the part before the first page for which that is not so, whose entry and reference count
are as before. Other bytes of the process, and what other page tables show, do not change. -/
theorem copyout_exact (h : Space L s T n top f) (htop : TopOk top) (hoom : s.oom = false)
    (dstva len : ℕ) (src : ℕ → UInt8) :
    wp (copyout L (T.root * PGSIZE) dstva src len) s fun r s' => ∃ T' k,
      Space L s' T' n top f ∧ T'.root = T.root ∧ (r = 0 ∨ r = -1) ∧
      (r = 0 ↔ (∀ a, dstva ≤ a → a < dstva + len → T.Accepts a) ∧ s'.oom = false) ∧
      (r = 0 → k = len) ∧
      (∀ a, (T'.image s'.mem).get a =
        if dstva ≤ a ∧ a < dstva + k then some (src (a - dstva)) else (T.image s.mem).get a) ∧
      (r = -1 → k < len ∧ (∀ a, dstva ≤ a → a < dstva + k → T.Accepts a) ∧ Stops s s' T T' dstva k ∧
        ((dstva + k) / PGSIZE < n → s'.refcnt (ppn (T.leaf ((dstva + k) / PGSIZE))) =
          s.refcnt (ppn (T.leaf ((dstva + k) / PGSIZE))))) ∧
      ∀ T₂ : Tree, (∀ q, T₂.user q ≠ 0 → f q ≠ 0) → T₂.image s'.mem = T₂.image s.mem := by
  refine (copyoutLoop_stops h htop le_rfl).mono ?_
  rintro r s' ⟨T', k, h', hl, hcopy, hcase⟩
  have hk : k ≤ len := by
    obtain ⟨-, rfl, -⟩ | ⟨-, hlt, -⟩ := hcase
    · exact le_rfl
    · exact hlt.le
  have hget := Image.copyout_get hk hcopy
  have hacc : ∀ a, dstva ≤ a → a < dstva + k → T.Accepts a := by
    intro a h1 h2
    obtain ⟨hacc, -⟩ | ⟨-, hnone⟩ := h.storePage htop a
    · exact hacc
    · exact absurd hnone ((hget a).2 h1 h2)
  have hothers : ∀ T₂ : Tree, (∀ q, T₂.user q ≠ 0 → f q ≠ 0) → T₂.image s'.mem = T₂.image s.mem :=
    fun T₂ hT2 => T₂.image_congr rfl fun q hq => hl.keeps q (hT2 q hq)
  refine ⟨T', k, h', hl.root, ?_⟩
  obtain ⟨rfl, rfl, hsame⟩ | ⟨rfl, hlt, hstop, -⟩ := hcase
  · exact ⟨.inl rfl, ⟨fun _ => ⟨hacc, hsame.trans hoom⟩, fun _ => rfl⟩, fun _ => rfl,
      fun a => (hget a).1, fun h0 => (by cases h0), hothers⟩
  · refine ⟨.inr rfl, ⟨fun h0 => (by cases h0), fun ⟨hall, hmem⟩ => ?_⟩, fun h0 => (by cases h0),
      fun a => (hget a).1, fun _ => ⟨hlt, hacc, hstop, fun hv => ?_⟩, hothers⟩
    · -- It has not stopped for one of the two reasons.
      obtain ⟨-, hnot⟩ | ⟨hfail, -⟩ := hstop.why
      · exact absurd (hall _ (Nat.le_add_right ..) (by omega)) hnot
      · rw [hmem] at hfail
        cases hfail
    · have hrefs := h'.refcnt_eq hv
      rw [hstop.leaf] at hrefs
      rw [hrefs, h.refcnt_eq hv]

end

end Xv6.Vm

namespace Xv6.Process

open Vm

/-- One byte is stored to the first page of the first process, which it shares since `fork`. -/
theorem copyout_exact_forkStore : ∃ (k : Kernel) (T : Tree), Run small blank forkStore k ∧
    (k.proc proc0).pagetable = T.root * PGSIZE ∧
    Lib.wp (copyout small (T.root * PGSIZE) 0 (fun _ => 65) 1) k.phys fun r s' => r = 0 ∧
      ∃ T' : Tree, T'.root = T.root ∧ (T'.image s'.mem).get 0 = some 65 := by
  have hex : ((Lib.execute (next small) (served small) (Kernel.boot small blank) forkStore).map
      fun k => ((k.proc proc0).state, k.phys.oom,
        ((copyout small (k.proc proc0).pagetable 0 (fun _ => 65) 1).run k.phys).toOption.map (·.1))) =
      some (.runnable, false, some 0) := by
    decide +kernel
  obtain ⟨k, hk, heq⟩ := Option.map_eq_some_iff.mp hex
  simp only [Prod.mk.injEq] at heq
  have hrun : Run small blank forkStore k := Run.boot.execute hk
  obtain ⟨T, Kt, hinv, -⟩ := hrun.inv
  have hok := hinv.ok (i := proc0) (by rw [heq.1]; decide)
  refine ⟨k, T proc0, hrun, hok.root, ?_⟩
  obtain ⟨r, s', hcall, T', j, -, hroot, -, -, hj, hget, -⟩ :=
    copyout_exact hok.space topOk_topEntries heq.2.1 0 1 fun _ => 65
  have hr : r = 0 := by
    have hres := heq.2.2
    rw [hok.root, hcall] at hres
    exact Option.some.inj hres
  refine ⟨r, s', hcall, hr, T', hroot, ?_⟩
  rw [hget 0, hj hr]
  rfl

end Xv6.Process
