import Mathlib

/-!
# Weakest preconditions for state and failure

Programs that update a state and may fail, `StateT σ (Except ε)`. `wp x s Q` says that `x`, started in
`s`, returns and that its result and final state satisfy `Q`; it is false of a program that fails.
-/

namespace Lib

universe u v

variable {σ τ α β : Type u} {ε : Type v}

/-- `x` returns from `s`, with a result and a state that satisfy `Q`. -/
def wp (x : StateT σ (Except ε) α) (s : σ) (Q : α → σ → Prop) : Prop :=
  ∃ a s', x.run s = .ok (a, s') ∧ Q a s'

section Rules

variable {x : StateT σ (Except ε) α} {f : α → StateT σ (Except ε) β} {s : σ} {Q R : α → σ → Prop}
  {P : β → σ → Prop}

theorem wp.of_run (h : wp x s Q) {a : α} {s' : σ} (hr : x.run s = .ok (a, s')) : Q a s' := by
  obtain ⟨b, t, hb, hQ⟩ := h
  rw [hr] at hb
  cases hb
  exact hQ

theorem wp.mono (h : wp x s Q) (hQR : ∀ a s', Q a s' → R a s') : wp x s R := by
  obtain ⟨a, s', hr, hQ⟩ := h
  exact ⟨a, s', hr, hQR a s' hQ⟩

theorem wp.with_run (h : wp x s Q) (hr : ∀ a s', x.run s = .ok (a, s') → R a s') :
    wp x s fun a s' => Q a s' ∧ R a s' := by
  obtain ⟨a, s', hrun, hQ⟩ := h
  exact ⟨a, s', hrun, hQ, hr a s' hrun⟩

theorem wp.bind (h : wp x s Q) (hf : ∀ a s', Q a s' → wp (f a) s' P) : wp (x >>= f) s P := by
  obtain ⟨a, s', hr, hQ⟩ := h
  obtain ⟨b, t, hb, hP⟩ := hf a s' hQ
  refine ⟨b, t, ?_, hP⟩
  rw [StateT.run_bind, hr]
  exact hb

theorem run_bind_ok {b : β} {t : σ} :
    (x >>= f).run s = .ok (b, t) ↔ ∃ a s', x.run s = .ok (a, s') ∧ (f a).run s' = .ok (b, t) := by
  rw [StateT.run_bind]
  cases x.run s with
  | error e =>
    constructor
    · intro h
      cases h
    · rintro ⟨_, _, ⟨⟩, _⟩
  | ok r =>
    constructor
    · exact fun h => ⟨r.1, r.2, rfl, h⟩
    · rintro ⟨a, s', ⟨⟩, h⟩
      exact h

theorem run_bind_of_ok {a : α} {s' : σ} (h : x.run s = .ok (a, s')) :
    (x >>= f).run s = (f a).run s' := by
  rw [StateT.run_bind, h]
  rfl

theorem wp_bind : wp (x >>= f) s P ↔ wp x s fun a s' => wp (f a) s' P := by
  refine ⟨fun ⟨b, t, hb, hP⟩ => ?_, fun h => h.bind fun _ _ h => h⟩
  rw [StateT.run_bind] at hb
  cases hx : x.run s with
  | error e =>
    rw [hx] at hb
    cases hb
  | ok r =>
    rw [hx] at hb
    exact ⟨r.1, r.2, hx, b, t, hb, hP⟩

@[simp]
theorem wp_pure (a : α) : wp (pure a : StateT σ (Except ε) α) s Q ↔ Q a s :=
  ⟨fun h => h.of_run rfl, fun h => ⟨a, s, rfl, h⟩⟩

@[simp]
theorem wp_get {Q : σ → σ → Prop} : wp (get : StateT σ (Except ε) σ) s Q ↔ Q s s :=
  ⟨fun h => h.of_run rfl, fun h => ⟨s, s, rfl, h⟩⟩

@[simp]
theorem wp_set (t : σ) {Q : PUnit → σ → Prop} :
    wp (set t : StateT σ (Except ε) PUnit) s Q ↔ Q ⟨⟩ t :=
  ⟨fun h => h.of_run rfl, fun h => ⟨⟨⟩, t, rfl, h⟩⟩

@[simp]
theorem wp_modify (u : σ → σ) {Q : PUnit → σ → Prop} :
    wp (modify u : StateT σ (Except ε) PUnit) s Q ↔ Q ⟨⟩ (u s) :=
  ⟨fun h => h.of_run rfl, fun h => ⟨⟨⟩, u s, rfl, h⟩⟩

theorem wp_ite {c : Prop} [Decidable c] {y : StateT σ (Except ε) α} :
    wp (if c then x else y) s Q ↔ if c then wp x s Q else wp y s Q := by
  split_ifs <;> rfl

theorem wp.ite {c : Prop} [Decidable c] {y : StateT σ (Except ε) α} (ht : c → wp x s Q)
    (hf : ¬ c → wp y s Q) : wp (if c then x else y) s Q := by
  split_ifs with h
  · exact ht h
  · exact hf h

end Rules

/-- `x` started in `s` fails with an error that satisfies `E`, or returns with a result and a state
that satisfy `Q`. -/
def wpOr (E : ε → Prop) (x : StateT σ (Except ε) α) (s : σ) (Q : α → σ → Prop) : Prop :=
  match x.run s with
  | .ok (a, s') => Q a s'
  | .error e => E e

section OrRules

variable {E : ε → Prop} {x : StateT σ (Except ε) α} {f : α → StateT σ (Except ε) β} {s : σ}
  {Q R : α → σ → Prop} {P : β → σ → Prop}

theorem wp.or (h : wp x s Q) : wpOr E x s Q := by
  obtain ⟨a, s', hr, hQ⟩ := h
  rw [wpOr, hr]
  exact hQ

theorem wpOr.of_run (h : wpOr E x s Q) {a : α} {s' : σ} (hr : x.run s = .ok (a, s')) : Q a s' := by
  rw [wpOr, hr] at h
  exact h

theorem wpOr.of_error (h : wpOr E x s Q) {e : ε} (hr : x.run s = .error e) : E e := by
  rw [wpOr, hr] at h
  exact h

theorem wpOr.intro_ok {a : α} {s' : σ} (hr : x.run s = .ok (a, s')) (h : Q a s') : wpOr E x s Q := by
  rw [wpOr, hr]
  exact h

theorem wpOr.intro_error {e : ε} (hr : x.run s = .error e) (h : E e) : wpOr E x s Q := by
  rw [wpOr, hr]
  exact h

theorem wpOr.returns (h : wpOr (fun _ => False) x s Q) : wp x s Q := by
  unfold wpOr at h
  split at h
  next a s' hr => exact ⟨a, s', hr, h⟩
  next => exact h.elim

theorem wpOr.mono (h : wpOr E x s Q) (hQR : ∀ a s', Q a s' → R a s') : wpOr E x s R := by
  unfold wpOr at h ⊢
  split at h
  · exact hQR _ _ h
  · exact h

theorem wpOr.weaken {F : ε → Prop} (h : wpOr E x s Q) (hE : ∀ e, E e → F e) : wpOr F x s Q := by
  unfold wpOr at h ⊢
  split at h
  · exact h
  · exact hE _ h

theorem wpOr.bind (h : wpOr E x s Q) (hf : ∀ a s', Q a s' → wpOr E (f a) s' P) :
    wpOr E (x >>= f) s P := by
  unfold wpOr at h
  split at h
  · next a s' hr =>
    have := hf a s' h
    rwa [wpOr, StateT.run_bind, hr]
  · next e hr =>
    rw [wpOr, StateT.run_bind, hr]
    exact h

theorem wp.bindOr (h : wp x s Q) (hf : ∀ a s', Q a s' → wpOr E (f a) s' P) :
    wpOr E (x >>= f) s P :=
  h.or.bind hf

/-- A program that returns if `C` holds fails only if `C` does not. -/
theorem wpOr.unless {C : Prop} (h : wpOr E x s Q) (hC : C → wp x s R) : wpOr (fun _ => ¬ C) x s Q := by
  unfold wpOr at h ⊢
  cases hr : x.run s with
  | ok r =>
    rw [hr] at h
    exact h
  | error e =>
    intro hc
    obtain ⟨a, s', hok, -⟩ := hC hc
    rw [hr] at hok
    cases hok

theorem wpOr.of_run_eq {y : StateT σ (Except ε) α} (h : wpOr E y s Q) (heq : x.run s = y.run s) :
    wpOr E x s Q := by
  unfold wpOr at h ⊢
  rwa [heq]

theorem wpOr_throw {e : ε} : wpOr E (throw e : StateT σ (Except ε) α) s Q ↔ E e := Iff.rfl

theorem wpOr_pure (a : α) : wpOr E (pure a : StateT σ (Except ε) α) s Q ↔ Q a s := Iff.rfl

theorem wpOr_get_bind {f : σ → StateT σ (Except ε) β} :
    wpOr E (get >>= f) s P ↔ wpOr E (f s) s P := Iff.rfl

theorem wpOr_modify_bind (u : σ → σ) {f : PUnit → StateT σ (Except ε) β} :
    wpOr E (modify u >>= f) s P ↔ wpOr E (f ⟨⟩) (u s) P := Iff.rfl

theorem wpOr_modify (u : σ → σ) {Q : PUnit → σ → Prop} :
    wpOr E (modify u : StateT σ (Except ε) PUnit) s Q ↔ Q ⟨⟩ (u s) := Iff.rfl

theorem wpOr.ite {c : Prop} [Decidable c] {y : StateT σ (Except ε) α} (ht : c → wpOr E x s Q)
    (hf : ¬ c → wpOr E y s Q) : wpOr E (if c then x else y) s Q := by
  split_ifs with h
  · exact ht h
  · exact hf h

end OrRules

/-- A program on a part of the state, run on the whole. -/
def zoom (get : τ → σ) (put : τ → σ → τ) (x : StateT σ (Except ε) α) : StateT τ (Except ε) α :=
  fun t => match x.run (get t) with
    | .ok (a, s) => .ok (a, put t s)
    | .error e => .error e

theorem wpOr.zoom {E : ε → Prop} {get : τ → σ} {put : τ → σ → τ} {x : StateT σ (Except ε) α} {t : τ}
    {Q : α → τ → Prop} (h : wpOr E x (get t) fun a s => Q a (put t s)) :
    wpOr E (zoom get put x) t Q := by
  unfold wpOr at h ⊢
  change match Lib.zoom get put x t with
    | .ok (a, s') => Q a s'
    | .error e => E e
  rw [Lib.zoom]
  split at h <;> exact h

theorem wp.zoom {get : τ → σ} {put : τ → σ → τ} {x : StateT σ (Except ε) α} {t : τ}
    {Q : α → τ → Prop} (h : wp x (get t) fun a s => Q a (put t s)) :
    wp (zoom get put x) t Q := by
  obtain ⟨a, s, hr, hQ⟩ := h
  refine ⟨a, put t s, ?_, hQ⟩
  change Lib.zoom get put x t = _
  rw [Lib.zoom, hr]

-- Tactics that look at a goal's head would otherwise start to run the program.
attribute [irreducible] wpOr

end Lib
