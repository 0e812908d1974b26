import Mathlib

/-!
# Runs of labelled transition systems

States reached from an initial one by steps that a side condition admits, and the rule that an
invariant of the steps holds in all of them.
-/

namespace Lib

/-- The states reached from `init` by steps `step s a s'` whose label satisfies `ok s a`. -/
inductive Reach {σ α : Type*} (init : σ) (step : σ → α → σ → Prop) (ok : σ → α → Prop) : σ → Prop
  | init : Reach init step ok init
  | step {s s' : σ} (a : α) : Reach init step ok s → ok s a → step s a s' → Reach init step ok s'

namespace Reach

variable {σ α : Type*} {init : σ} {step : σ → α → σ → Prop} {ok : σ → α → Prop}

/-- A property of the initial state that every admitted step preserves holds in every state
reached. -/
theorem invariant {P : σ → Prop} (h0 : P init)
    (hstep : ∀ s a s', P s → ok s a → step s a s' → P s') {s : σ} (hs : Reach init step ok s) :
    P s := by
  induction hs with
  | init => exact h0
  | step a _ hok hst ih => exact hstep _ a _ ih hok hst

end Reach

/-- The state that the labels `as` lead to, by the step function `next`, from a state `s`: `none`
where a step is not possible or not admitted. -/
def execute {σ α : Type*} (next : σ → α → Option σ) (ok : σ → α → Bool) : σ → List α → Option σ
  | s, [] => some s
  | s, a :: as => if ok s a then (next s a).bind (execute next ok · as) else none

theorem Reach.execute {σ α : Type*} {init : σ} {step : σ → α → σ → Prop} {ok : σ → α → Prop}
    {next : σ → α → Option σ} {okb : σ → α → Bool}
    (hnext : ∀ s a s', next s a = some s' → step s a s') (hok : ∀ s a, okb s a = true → ok s a)
    {s s' : σ} {as : List α} (hs : Reach init step ok s)
    (he : Lib.execute next okb s as = some s') : Reach init step ok s' := by
  induction as generalizing s with
  | nil =>
    cases he
    exact hs
  | cons a as ih =>
    rw [Lib.execute] at he
    split_ifs at he with hb
    obtain ⟨t, ht, he⟩ := Option.bind_eq_some_iff.mp he
    exact ih (.step a hs (hok s a hb) (hnext s a t ht)) he

end Lib
