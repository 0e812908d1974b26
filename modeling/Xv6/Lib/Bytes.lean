import Mathlib

/-!
# Fixed-size byte arrays

An array of `n` bytes with the two ways in which systems code uses it: as raw storage, of which a
range is overwritten at once (`splice`), and as a record of little-endian integer fields (`le`,
`setLe`). The laws are those of a lens: a field reads back what was stored in it, and a store leaves
every disjoint field and every byte outside its range alone.
-/

namespace Lib

/-- An array of `n` bytes. -/
def Bytes (n : ℕ) : Type := Fin n → UInt8

namespace Bytes

variable {n : ℕ}

/-- The byte at index `i`, zero past the end. -/
def get (b : Bytes n) (i : ℕ) : UInt8 := if h : i < n then b ⟨i, h⟩ else 0

/-- The array whose bytes are all `v`. -/
def fill (n : ℕ) (v : UInt8) : Bytes n := fun _ => v

/-- The array with the `len` bytes from `off` on replaced by `f 0`, `f 1`, and so on. -/
def splice (b : Bytes n) (off len : ℕ) (f : ℕ → UInt8) : Bytes n := fun j =>
  if off ≤ j.val ∧ j.val < off + len then f (j.val - off) else b j

/-- The unsigned little-endian integer in the bytes from `off` on, of the given length. -/
def le (b : Bytes n) (off : ℕ) : ℕ → ℕ
  | 0 => 0
  | k + 1 => (b.get off).toNat + 256 * le b (off + 1) k

/-- The byte of weight `256 ^ i` of `v`. -/
def leByte (v i : ℕ) : UInt8 := UInt8.ofNat (v / 256 ^ i)

/-- The array with the low `len` bytes of `v` stored from `off` on, least significant first. -/
def setLe (b : Bytes n) (off len v : ℕ) : Bytes n := b.splice off len (leByte v)

theorem ext_get {a b : Bytes n} (h : ∀ i, i < n → a.get i = b.get i) : a = b := by
  funext ⟨i, hi⟩
  have := h i hi
  simpa [get, hi] using this

theorem get_fill {v : UInt8} {i : ℕ} (hi : i < n) : (fill n v).get i = v := by
  simp [get, fill, hi]

theorem get_splice (b : Bytes n) (off len : ℕ) (f : ℕ → UInt8) {i : ℕ} (hi : i < n) :
    (b.splice off len f).get i =
      if off ≤ i ∧ i < off + len then f (i - off) else b.get i := by
  simp [get, splice, hi]

theorem get_splice_of_not_mem (b : Bytes n) (off len : ℕ) (f : ℕ → UInt8) {i : ℕ}
    (h : i < off ∨ off + len ≤ i) : (b.splice off len f).get i = b.get i := by
  by_cases hi : i < n
  · rw [get_splice b off len f hi, if_neg (by omega)]
  · simp [get, hi]

theorem le_lt (b : Bytes n) (off k : ℕ) : b.le off k < 256 ^ k := by
  induction k generalizing off with
  | zero => simp [le]
  | succ k ih =>
    have h := ih (off + 1)
    have hb := (b.get off).toNat_lt
    simp only [le]
    rw [pow_succ]
    omega

theorem le_congr {m : ℕ} {a : Bytes m} {b : Bytes n} {o o' : ℕ} (k : ℕ)
    (h : ∀ i, i < k → a.get (o + i) = b.get (o' + i)) : a.le o k = b.le o' k := by
  induction k generalizing o o' with
  | zero => rfl
  | succ k ih =>
    have h0 := h 0 (Nat.succ_pos k)
    simp only [Nat.add_zero] at h0
    have hs : a.le (o + 1) k = b.le (o' + 1) k := by
      apply ih
      intro i hi
      have := h (i + 1) (by omega)
      rwa [show o + (i + 1) = o + 1 + i by omega, show o' + (i + 1) = o' + 1 + i by omega] at this
    simp only [le]
    rw [h0, hs]

theorem le_eq_mod (b : Bytes n) (off k v : ℕ) (h : ∀ i, i < k → b.get (off + i) = leByte v i) :
    b.le off k = v % 256 ^ k := by
  induction k generalizing off v with
  | zero => simp [le, Nat.mod_one]
  | succ k ih =>
    have h0 := h 0 (Nat.succ_pos k)
    simp only [Nat.add_zero] at h0
    have hs : b.le (off + 1) k = v / 256 % 256 ^ k := by
      apply ih
      intro i hi
      have := h (i + 1) (by omega)
      rw [show off + (i + 1) = off + 1 + i by omega] at this
      rw [this, leByte, leByte, pow_succ, Nat.mul_comm, Nat.div_div_eq_div_mul]
    simp only [le]
    rw [h0, hs, pow_succ, Nat.mul_comm (256 ^ k) 256, Nat.mod_mul]
    simp [leByte]

theorem le_splice_of_disjoint (b : Bytes n) (off len : ℕ) (f : ℕ → UInt8) (o k : ℕ)
    (h : o + k ≤ off ∨ off + len ≤ o) : (b.splice off len f).le o k = b.le o k := by
  apply le_congr
  intro i hi
  exact get_splice_of_not_mem b off len f (by omega)

theorem le_setLe (b : Bytes n) (off len v : ℕ) (h : off + len ≤ n) :
    (b.setLe off len v).le off len = v % 256 ^ len := by
  apply le_eq_mod
  intro i hi
  rw [setLe, get_splice b off len _ (by omega), if_pos (by omega), Nat.add_sub_cancel_left]

theorem le_setLe_of_disjoint (b : Bytes n) (off len v o k : ℕ)
    (h : o + k ≤ off ∨ off + len ≤ o) : (b.setLe off len v).le o k = b.le o k :=
  le_splice_of_disjoint b off len _ o k h

theorem le_fill_zero (off k : ℕ) : (fill n 0).le off k = 0 := by
  induction k generalizing off with
  | zero => rfl
  | succ k ih =>
    have : (fill n 0).get off = 0 := by
      by_cases h : off < n
      · exact get_fill h
      · simp [get, h]
    simp [le, this, ih]

end Bytes

end Lib
