import Mathlib

/-!
# Linked lists

The nodes that a `next` function links: a segment up to a node, and a ring, which goes back to its
first node. Every node of a ring leads to every other.
-/

namespace Lib

variable {α : Type*} {next : α → α} {l r : List α} {a b v x : α}

/-- The nodes of `l` are linked in this order, and the last one to `b`. -/
def Seg (next : α → α) : List α → α → Prop
  | [], _ => True
  | a :: l, b => next a = l.headD b ∧ Seg next l b

theorem Seg.append : Seg next (l ++ r) b ↔ Seg next l (r.headD b) ∧ Seg next r b := by
  induction l with
  | nil => simp [Seg]
  | cons a l ih =>
    rw [List.cons_append, Seg, Seg, ih, and_assoc]
    cases l <;> simp

theorem Seg.congr {next' : α → α} (h : Seg next l b) (hl : ∀ a ∈ l, next' a = next a) : Seg next' l b := by
  induction l with
  | nil => trivial
  | cons a l ih =>
    rw [List.forall_mem_cons] at hl
    exact ⟨hl.1.trans h.1, ih h.2 hl.2⟩

theorem Seg.update [DecidableEq α] (h : Seg next l b) (hv : v ∉ l) :
    Seg (Function.update next v x) l b :=
  h.congr fun _ ha => Function.update_of_ne (ne_of_mem_of_not_mem ha hv) ..

theorem Seg.iterate_end (h : Seg next (a :: l) b) : next^[l.length + 1] a = b := by
  induction l generalizing a with
  | nil => exact h.1
  | cons c l ih =>
    rw [List.length_cons, Function.iterate_succ_apply, h.1]
    exact ih h.2

/-- The nodes of a ring, from its first one on. -/
def Ring (next : α → α) (l : List α) (first : α) : Prop := l.head? = some first ∧ Seg next l first

theorem Ring.next_mem (h : Ring next l x) (ha : a ∈ l) : next a ∈ l := by
  obtain ⟨s, t, rfl⟩ := List.append_of_mem ha
  have hseg := (Seg.append.mp h.2).2
  rw [hseg.1]
  cases t with
  | nil => exact List.mem_of_mem_head? h.1
  | cons c t => simp

theorem Ring.reaches (h : Ring next l x) (ha : a ∈ l) (hb : b ∈ l) : ∃ k, next^[k] a = b := by
  have hback : ∃ k, next^[k] a = x := by
    obtain ⟨s, t, rfl⟩ := List.append_of_mem ha
    exact ⟨t.length + 1, (Seg.append.mp h.2).2.iterate_end⟩
  have hforth : ∃ k, next^[k] x = b := by
    obtain ⟨s, t, rfl⟩ := List.append_of_mem hb
    cases s with
    | nil =>
      obtain rfl : b = x := by simpa using h.1
      exact ⟨0, rfl⟩
    | cons c s =>
      obtain rfl : c = x := by simpa using h.1
      exact ⟨s.length + 1, (Seg.append.mp h.2).1.iterate_end⟩
  obtain ⟨j, hj⟩ := hback
  obtain ⟨k, hk⟩ := hforth
  exact ⟨k + j, by rw [Function.iterate_add_apply, hj, hk]⟩

end Lib
