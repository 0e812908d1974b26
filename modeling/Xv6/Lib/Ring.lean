import Mathlib

/-!
# Rings with wrapping counters

A ring of `n` places is filled and emptied under counters of `w` bits that are never reduced modulo `n`.
What is between two counters is a list of at most `n` entries. Counters that wrap do no harm if `n`
divides `2 ^ w`.
-/

namespace Lib

variable {α : Type*} {w n : ℕ} [NeZero n] {ring : Fin n → α} {start : BitVec w} {l : List α} {a : α}

/-- The place of a counter. -/
def place (n : ℕ) [NeZero n] (i : BitVec w) : Fin n := Fin.ofNat n i.toNat

/-- The entries from counter `start` on. -/
def Entries (ring : Fin n → α) (start : BitVec w) (l : List α) : Prop :=
  ∀ k (h : k < l.length), ring (place n (start + BitVec.ofNat w k)) = l.get ⟨k, h⟩

theorem place_add (hn : n ∣ 2 ^ w) (i : BitVec w) (k : ℕ) :
    (place n (i + BitVec.ofNat w k)).val = (i.toNat + k) % n := by
  rw [place, Fin.val_ofNat, BitVec.toNat_add, BitVec.toNat_ofNat, Nat.add_mod_mod,
    Nat.mod_mod_of_dvd _ hn]

theorem place_ne (hn : n ∣ 2 ^ w) (i : BitVec w) {j k : ℕ} (hjk : j < k) (hk : k < j + n) :
    place n (i + BitVec.ofNat w j) ≠ place n (i + BitVec.ofNat w k) := by
  intro heq
  have hval := congrArg Fin.val heq
  rw [place_add hn, place_add hn] at hval
  have hdvd : n ∣ (i.toNat + k) - (i.toNat + j) :=
    (Nat.modEq_iff_dvd' (by omega)).mp hval
  have hle := Nat.le_of_dvd (by omega) hdvd
  omega

theorem Entries.pop (h : Entries ring start (a :: l)) :
    ring (place n start) = a ∧ Entries ring (start + 1) l := by
  refine ⟨?_, fun k hk => ?_⟩
  · have := h 0 (by simp)
    simpa using this
  · have := h (k + 1) (by simpa using hk)
    have hadd : start + BitVec.ofNat w (k + 1) = start + 1 + BitVec.ofNat w k := by
      rw [Nat.add_comm k 1, BitVec.ofNat_add, BitVec.add_assoc]
      rfl
    rw [hadd] at this
    simpa using this

theorem Entries.write (hn : n ∣ 2 ^ w) (h : Entries ring start l) (hl : l.length < n) (a : α) :
    Entries (Function.update ring (place n (start + BitVec.ofNat w l.length)) a) start l := by
  intro k hk
  rw [Function.update_of_ne (place_ne hn start hk (by omega))]
  exact h k hk

theorem Entries.push (h : Entries ring start l)
    (ha : ring (place n (start + BitVec.ofNat w l.length)) = a) : Entries ring start (l ++ [a]) := by
  intro k hk
  by_cases hkl : k < l.length
  · rw [h k hkl]
    simp [List.getElem_append_left hkl]
  · obtain rfl : k = l.length := by
      rw [List.length_append, List.length_singleton] at hk
      omega
    simpa using ha

theorem Entries.left {r : List α} (h : Entries ring start (l ++ r)) : Entries ring start l := by
  intro k hk
  have hk' : k < (l ++ r).length := by
    rw [List.length_append]
    omega
  rw [h k hk']
  exact List.getElem_append_left hk

theorem Entries.last (h : Entries ring start (l ++ [a])) :
    ring (place n (start + BitVec.ofNat w l.length)) = a := by
  have := h l.length (by simp)
  simpa using this

theorem counter_eq_iff (hl : l.length < 2 ^ w) :
    start + BitVec.ofNat w l.length = start ↔ l = [] := by
  refine ⟨fun h => ?_, fun h => by simp [h]⟩
  have hzero : BitVec.ofNat w l.length = 0 := by simpa using h
  have := congrArg BitVec.toNat hzero
  rw [BitVec.toNat_ofNat, Nat.mod_eq_of_lt hl] at this
  exact List.length_eq_zero_iff.mp (by simpa using this)

end Lib
