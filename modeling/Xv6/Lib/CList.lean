import Mathlib

/-!
# Circular doubly linked lists

A list with a head node, linked in both directions through pointers, as systems code keeps it: the
head's `next` is the first element, its `prev` the last, and the head closes the circle. The pointer
operations are the usual ones (insert after the head, unlink, scan in either direction); `Lists` says
which list of elements the pointers represent, and each operation has its effect on that list.
-/

namespace Lib

open Function

/-- The pointers of a circular list over elements `ι`. The node `none` is the head. -/
structure CList (ι : Type*) where
  prev : Option ι → Option ι
  next : Option ι → Option ι

namespace CList

variable {ι : Type*}

/-- Only the head, linked to itself. -/
def empty : CList ι := ⟨fun _ => none, fun _ => none⟩

/-- The list read in the other direction. -/
def swap (c : CList ι) : CList ι := ⟨c.next, c.prev⟩

/-- The first element satisfying `p` on the way from `x` along `move` to the head, looking at no more
than `fuel` nodes. -/
def scan (move : Option ι → Option ι) (p : ι → Bool) : ℕ → Option ι → Option ι
  | 0, _ => none
  | _ + 1, none => none
  | fuel + 1, some i => if p i then some i else scan move p fuel (move (some i))

/-- The pointers lead from node `a` through the elements `l` to node `b`, in both directions. -/
def Seg (c : CList ι) : Option ι → List ι → Option ι → Prop
  | a, [], b => c.next a = b ∧ c.prev b = a
  | a, i :: l, b => c.next a = some i ∧ c.prev (some i) = a ∧ Seg c (some i) l b

/-- The pointers represent the list `l`. -/
structure Lists (c : CList ι) (l : List ι) : Prop where
  nodup : l.Nodup
  seg : c.Seg none l none

section Seg

variable {c c' : CList ι} {a b : Option ι} {l l₁ l₂ : List ι} {i : ι}

theorem Seg.congr (h : c.Seg a l b) (hn : ∀ x, x = a ∨ (∃ i ∈ l, x = some i) → c'.next x = c.next x)
    (hp : ∀ x, x = b ∨ (∃ i ∈ l, x = some i) → c'.prev x = c.prev x) : c'.Seg a l b := by
  induction l generalizing a with
  | nil => exact ⟨(hn a (.inl rfl)).trans h.1, (hp b (.inl rfl)).trans h.2⟩
  | cons j l ih =>
    obtain ⟨h1, h2, h3⟩ := h
    refine ⟨(hn a (.inl rfl)).trans h1, (hp _ (.inr ⟨j, by simp, rfl⟩)).trans h2, ih h3 ?_ ?_⟩
    · rintro x (rfl | ⟨k, hk, rfl⟩)
      · exact hn _ (.inr ⟨j, by simp, rfl⟩)
      · exact hn _ (.inr ⟨k, by simp [hk], rfl⟩)
    · rintro x (rfl | ⟨k, hk, rfl⟩)
      · exact hp _ (.inl rfl)
      · exact hp _ (.inr ⟨k, by simp [hk], rfl⟩)

theorem seg_append : c.Seg a (l₁ ++ i :: l₂) b ↔ c.Seg a l₁ (some i) ∧ c.Seg (some i) l₂ b := by
  induction l₁ generalizing a with
  | nil => simp [Seg, and_assoc]
  | cons j l ih => simp [Seg, ih, and_assoc]

theorem Seg.reverse (h : c.Seg a l b) : c.swap.Seg b l.reverse a := by
  induction l generalizing a with
  | nil => exact ⟨h.2, h.1⟩
  | cons j l ih =>
    obtain ⟨h1, h2, h3⟩ := h
    rw [List.reverse_cons]
    exact seg_append.mpr ⟨ih h3, h2, h1⟩

theorem Seg.prev_mem (h : c.Seg a l b) : c.prev b = a ∨ ∃ i ∈ l, c.prev b = some i := by
  induction l generalizing a with
  | nil => exact .inl h.2
  | cons j l ih =>
    rcases ih h.2.2 with h' | ⟨k, hk, h'⟩
    · exact .inr ⟨j, by simp, h'⟩
    · exact .inr ⟨k, by simp [hk], h'⟩

theorem Seg.scan_next (h : c.Seg a l none) (p : ι → Bool) {fuel : ℕ} (hf : l.length < fuel) :
    scan c.next p fuel (c.next a) = l.find? p := by
  induction l generalizing a fuel with
  | nil =>
    obtain ⟨fuel, rfl⟩ := Nat.exists_eq_add_one.mpr hf
    rw [h.1]
    rfl
  | cons j l ih =>
    obtain ⟨fuel, rfl⟩ := Nat.exists_eq_add_one.mpr (Nat.zero_lt_of_lt hf)
    obtain ⟨h1, -, h3⟩ := h
    rw [h1, scan, List.find?_cons]
    cases p j with
    | true => rfl
    | false => exact ih h3 (by simpa using hf)

theorem Seg.scan_prev (h : c.Seg none l none) (p : ι → Bool) {fuel : ℕ} (hf : l.length < fuel) :
    scan c.prev p fuel (c.prev none) = l.reverse.find? p :=
  h.reverse.scan_next p (by simpa using hf)

theorem Seg.iterate_next (h : c.Seg a l none) {n : ℕ} (hn : n ≤ l.length) :
    c.next^[n + 1] a = l[n]? := by
  induction l generalizing a n with
  | nil =>
    obtain rfl : n = 0 := by simpa using hn
    exact h.1
  | cons j l ih =>
    obtain ⟨hnext, -, hseg⟩ := h
    cases n with
    | zero => exact hnext
    | succ n =>
      rw [iterate_succ_apply, hnext, ih hseg (by simpa using hn)]
      simp

theorem Seg.prev_next (h : c.Seg a l b) {x : Option ι} (hx : x = a ∨ ∃ i ∈ l, x = some i) :
    c.prev (c.next x) = x := by
  induction l generalizing a with
  | nil =>
    obtain rfl : x = a := by simpa using hx
    rw [h.1, h.2]
  | cons j l ih =>
    obtain ⟨hnext, hprev, hseg⟩ := h
    rcases hx with rfl | ⟨i, hi, rfl⟩
    · rw [hnext, hprev]
    · rcases List.mem_cons.mp hi with rfl | hi
      · exact ih hseg (.inl rfl)
      · exact ih hseg (.inr ⟨i, hi, rfl⟩)

theorem Seg.next_prev (h : c.Seg a l b) {x : Option ι} (hx : x = b ∨ ∃ i ∈ l, x = some i) :
    c.next (c.prev x) = x :=
  h.reverse.prev_next (by simpa using hx)

theorem lists_empty : (empty : CList ι).Lists [] := ⟨List.nodup_nil, rfl, rfl⟩

end Seg

section Update

variable [DecidableEq ι]

/-- The pointers after element `i` has been inserted right after the head, in the order in which the
four of them are assigned. -/
def insertFront (c : CList ι) (i : ι) : CList ι :=
  let next := update c.next (some i) (c.next none)
  let prev := update c.prev (some i) none
  let prev := update prev (next none) (some i)
  let next := update next none (some i)
  ⟨prev, next⟩

/-- The pointers after element `i` has been bypassed in both directions. -/
def unlink (c : CList ι) (i : ι) : CList ι :=
  let prev := update c.prev (c.next (some i)) (c.prev (some i))
  let next := update c.next (prev (some i)) (c.next (some i))
  ⟨prev, next⟩

variable {c : CList ι} {l : List ι} {i : ι}

theorem Lists.insertFront (h : c.Lists l) (hi : i ∉ l) : (c.insertFront i).Lists (i :: l) := by
  refine ⟨List.nodup_cons.mpr ⟨hi, h.nodup⟩, ?_⟩
  obtain ⟨hnd, hseg⟩ := h
  cases l with
  | nil =>
    obtain ⟨h1, h2⟩ := hseg
    simp [CList.insertFront, Seg, h1]
  | cons j l =>
    obtain ⟨h1, h2, h3⟩ := hseg
    obtain ⟨hij, hil⟩ : i ≠ j ∧ i ∉ l := by simpa using hi
    have hjl : j ∉ l := (List.nodup_cons.mp hnd).1
    refine ⟨by simp [CList.insertFront], by simp [CList.insertFront, h1, hij],
      by simp [CList.insertFront, h1], by simp [CList.insertFront, h1], h3.congr ?_ ?_⟩
    · rintro x (rfl | ⟨k, hk, rfl⟩)
      · simp [CList.insertFront, Ne.symm hij]
      · have hki : k ≠ i := fun e => hil (e ▸ hk)
        simp [CList.insertFront, hki]
    · rintro x (rfl | ⟨k, hk, rfl⟩)
      · simp [CList.insertFront, h1]
      · have hki : k ≠ i := fun e => hil (e ▸ hk)
        have hkj : k ≠ j := fun e => hjl (e ▸ hk)
        simp [CList.insertFront, h1, hki, hkj]

/-- Redirecting the end of a segment to another node: the last node's `next` and the new end's `prev`
are assigned. -/
theorem Seg.retarget {c' : CList ι} {a b x : Option ι} (h : c.Seg a l x) (hnd : l.Nodup)
    (ha : ∀ k ∈ l, a ≠ some k) (hb : ∀ k ∈ l, b ≠ some k)
    (hn : c'.next = update c.next (c.prev x) b)
    (hp : c'.prev = update c.prev b (c.prev x)) : c'.Seg a l b := by
  induction l generalizing a with
  | nil =>
    obtain ⟨-, h2⟩ := h
    simp [Seg, hn, hp, h2]
  | cons j l ih =>
    obtain ⟨h1, h2, h3⟩ := h
    obtain ⟨hjl, hnd⟩ := List.nodup_cons.mp hnd
    have hlast : a ≠ c.prev x := by
      rcases h3.prev_mem with e | ⟨k, hk, e⟩ <;> rw [e]
      · exact ha j (by simp)
      · exact ha k (by simp [hk])
    refine ⟨?_, ?_, ih h3 hnd (fun k hk e => ?_) fun k hk => hb k (by simp [hk])⟩
    · rw [hn, update_of_ne hlast, h1]
    · rw [hp, update_of_ne (Ne.symm (hb j (by simp))), h2]
    · cases e
      exact hjl hk

theorem Lists.unlink {l₁ l₂ : List ι} (h : c.Lists (l₁ ++ i :: l₂)) :
    (c.unlink i).Lists (l₁ ++ l₂) := by
  obtain ⟨hnd, hseg⟩ := h
  obtain ⟨hnd1, hnd2, hdisj⟩ := List.nodup_append.mp hnd
  obtain ⟨hi2, hnd2⟩ := List.nodup_cons.mp hnd2
  refine ⟨List.nodup_append.mpr ⟨hnd1, hnd2, fun x hx y hy => hdisj x hx y (by simp [hy])⟩, ?_⟩
  obtain ⟨hfront, hback⟩ := seg_append.mp hseg
  -- The front segment now ends at the successor of `i`; the rest is untouched.
  have hself : c.next (some i) ≠ some i := by
    cases l₂ with
    | nil => simp [hback.1]
    | cons j l =>
      rw [hback.1]
      intro e
      cases e
      simp at hi2
  have hp : (c.unlink i).prev = update c.prev (c.next (some i)) (c.prev (some i)) := rfl
  have hn : (c.unlink i).next = update c.next (c.prev (some i)) (c.next (some i)) := by
    simp [CList.unlink, update_of_ne (Ne.symm hself)]
  have hfront' : (c.unlink i).Seg none l₁ (c.next (some i)) := by
    refine hfront.retarget hnd1 (by simp) (fun k hk => ?_) hn hp
    cases l₂ with
    | nil => simp [hback.1]
    | cons j l =>
      rw [hback.1]
      intro e
      cases e
      exact hdisj k hk k (by simp) rfl
  cases l₂ with
  | nil => simpa [hback.1] using hfront'
  | cons j l =>
    rw [hback.1] at hfront' hp
    refine seg_append.mpr ⟨hfront', hback.2.2.congr ?_ ?_⟩
    · intro x hx
      rw [hn, update_of_ne]
      -- The predecessor of `i` is the head or one of the elements before `i`.
      rintro rfl
      rcases hfront.prev_mem with e | ⟨k, hk, e⟩
      · rw [e] at hx
        simp at hx
      · rw [e] at hx
        refine hdisj k hk k ?_ rfl
        simpa [or_assoc] using Or.inr hx
    · intro x hx
      rw [hp, update_of_ne]
      rintro rfl
      have hjl : j ∉ l := (List.nodup_cons.mp hnd2).1
      simp [hjl] at hx

theorem Lists.moveFront (h : c.Lists l) (hi : i ∈ l) :
    ((c.unlink i).insertFront i).Lists (i :: l.erase i) := by
  obtain ⟨l₁, l₂, rfl⟩ := List.append_of_mem hi
  have hi1 : i ∉ l₁ := fun hmem => (List.nodup_append.mp h.nodup).2.2 i hmem i (by simp) rfl
  have hi2 : i ∉ l₂ := (List.nodup_cons.mp (List.nodup_append.mp h.nodup).2.1).1
  rw [List.erase_append_right _ hi1, List.erase_cons_head]
  exact h.unlink.insertFront (by simp [hi1, hi2])

end Update

end CList

end Lib
