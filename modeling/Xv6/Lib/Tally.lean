import Mathlib

/-!
# Counting pointers

A table of places, each of which may point to an object. `tally h k` is the number of places that point
to `k`, and changing one place changes it by one at most.
-/

namespace Lib

open Function

variable {ι κ : Type*} [Fintype ι] [DecidableEq κ]

/-- The number of places of `h` that point to `k`. -/
def tally (h : ι → Option κ) (k : κ) : ℕ := (Finset.univ.filter fun i => h i = some k).card

/-- What one place contributes. -/
def pointsTo (o : Option κ) (k : κ) : ℕ := if o = some k then 1 else 0

@[simp] theorem pointsTo_none (k : κ) : pointsTo none k = 0 := rfl

@[simp] theorem pointsTo_self (k : κ) : pointsTo (some k) k = 1 := if_pos rfl

theorem pointsTo_of_ne {o : Option κ} {k : κ} (h : o ≠ some k) : pointsTo o k = 0 := if_neg h

theorem pointsTo_some (k k' : κ) :
    ((pointsTo (some k) k' : ℕ) : ℤ) = (Pi.single k 1 : κ → ℤ) k' := by
  by_cases h : k' = k
  · subst h
    simp
  · rw [pointsTo_of_ne (by simpa using Ne.symm h), Pi.single_eq_of_ne h]
    rfl

theorem tally_eq_sum (h : ι → Option κ) (k : κ) : tally h k = ∑ i, pointsTo (h i) k := by
  rw [tally, Finset.card_filter]
  rfl

theorem tally_update [DecidableEq ι] (h : ι → Option κ) (i : ι) (o : Option κ) (k : κ) :
    tally (update h i o) k + pointsTo (h i) k = tally h k + pointsTo o k := by
  have hrest : ∑ j ∈ Finset.univ.erase i, pointsTo (update h i o j) k =
      ∑ j ∈ Finset.univ.erase i, pointsTo (h j) k :=
    Finset.sum_congr rfl fun j hj => by rw [update_of_ne (Finset.ne_of_mem_erase hj)]
  rw [tally_eq_sum, tally_eq_sum, ← Finset.sum_erase_add _ _ (Finset.mem_univ i),
    ← Finset.sum_erase_add Finset.univ (fun j => pointsTo (h j) k) (Finset.mem_univ i), hrest,
    update_self]
  omega

theorem tally_pos {h : ι → Option κ} {i : ι} {k : κ} (hi : h i = some k) : 0 < tally h k :=
  Finset.card_pos.mpr ⟨i, by simpa using hi⟩

end Lib
