import Mathlib

/-!
# Sv39 page-table entries and the memory layout

The macros of `kernel/riscv.h` and `kernel/memlayout.h` that the virtual-memory code uses. A
page-table entry is a 64-bit word: a physical page number above ten flag bits.
-/

namespace Xv6.Vm

/-- The number of bytes of a page. -/
def PGSIZE : ℕ := 4096

/-- `KERNBASE`: where physical RAM starts. -/
def KERNBASE : ℕ := 0x80000000

/-- `PHYSTOP`: the end of the RAM that the kernel uses. -/
def PHYSTOP : ℕ := KERNBASE + 128 * 1024 * 1024

/-- `MAXVA`: one beyond the highest virtual address in use. -/
def MAXVA : ℕ := 2 ^ 38

/-- `TRAMPOLINE`: the highest virtual page. -/
def TRAMPOLINE : ℕ := MAXVA - PGSIZE

/-- `TRAPFRAME`: the virtual page below the trampoline. -/
def TRAPFRAME : ℕ := TRAMPOLINE - PGSIZE

/-- `PGROUNDUP`, on 64-bit words. -/
def pgRoundUp (a : ℕ) : ℕ := (a + PGSIZE - 1) % 2 ^ 64 / PGSIZE * PGSIZE

/-- `PGROUNDDOWN`. -/
def pgRoundDown (a : ℕ) : ℕ := a / PGSIZE * PGSIZE

/-- `PX(level, va)`: the index of the entry for `va` in a page-table page of the given level. -/
def px (level va : ℕ) : ℕ := (va >>> (12 + 9 * level)) &&& 0x1FF

/-! ## Flags -/

def PTE_V : ℕ := 1
def PTE_R : ℕ := 2
def PTE_W : ℕ := 4
def PTE_X : ℕ := 8
def PTE_U : ℕ := 16

/-- The flag for copy-on-write pages, in the bits reserved for software. -/
def PTE_COW : ℕ := 256

/-- `pte & flag`, as a truth value. -/
def has (pte flag : ℕ) : Bool := pte &&& flag != 0

/-- `PA2PTE` -/
def pa2pte (pa : ℕ) : ℕ := (pa >>> 12) <<< 10

/-- `PTE2PA` -/
def pte2pa (pte : ℕ) : ℕ := (pte >>> 10) <<< 12

/-- `PTE_FLAGS` -/
def pteFlags (pte : ℕ) : ℕ := pte &&& 0x3FF

/-- The entry with physical page `p` and flags `f`. -/
def mkPte (p f : ℕ) : ℕ := p * 1024 + f

/-- The physical page of an entry. -/
def ppn (pte : ℕ) : ℕ := pte / 1024

section Bits

variable {p f g : ℕ}

theorem has_two_pow (x k : ℕ) : has x (2 ^ k) = x.testBit k := by
  rw [has, Nat.and_two_pow]
  cases x.testBit k <;> simp

@[simp]
theorem has_V (x : ℕ) : has x PTE_V = x.testBit 0 := has_two_pow x 0

@[simp]
theorem has_R (x : ℕ) : has x PTE_R = x.testBit 1 := has_two_pow x 1

@[simp]
theorem has_W (x : ℕ) : has x PTE_W = x.testBit 2 := has_two_pow x 2

@[simp]
theorem has_X (x : ℕ) : has x PTE_X = x.testBit 3 := has_two_pow x 3

@[simp]
theorem has_U (x : ℕ) : has x PTE_U = x.testBit 4 := has_two_pow x 4

@[simp]
theorem has_COW (x : ℕ) : has x PTE_COW = x.testBit 8 := has_two_pow x 8

theorem testBit_mkPte (hf : f < 1024) (k : ℕ) :
    (mkPte p f).testBit k = if k < 10 then f.testBit k else p.testBit (k - 10) := by
  have h : mkPte p f = 2 ^ 10 * p + f := by
    rw [mkPte]
    ring
  rw [h, Nat.testBit_two_pow_mul_add p hf]

theorem eq_mkPte {x : ℕ} (hf : f < 1024)
    (h : ∀ k, x.testBit k = if k < 10 then f.testBit k else p.testBit (k - 10)) :
    x = mkPte p f :=
  Nat.eq_of_testBit_eq fun k => by rw [h, testBit_mkPte hf]

theorem testBit_mkPte_lt (hf : f < 1024) {k : ℕ} (hk : k < 10) :
    (mkPte p f).testBit k = f.testBit k := by
  rw [testBit_mkPte hf, if_pos hk]

@[simp]
theorem ppn_mkPte (hf : f < 1024) : ppn (mkPte p f) = p := by
  unfold ppn mkPte
  omega

theorem pteFlags_mkPte (hf : f < 1024) : pteFlags (mkPte p f) = f := by
  rw [pteFlags, show (0x3FF : ℕ) = 2 ^ 10 - 1 by rfl, Nat.and_two_pow_sub_one_eq_mod, mkPte]
  omega

theorem pte2pa_eq (x : ℕ) : pte2pa x = ppn x * PGSIZE := by
  rw [pte2pa, ppn, Nat.shiftLeft_eq, Nat.shiftRight_eq_div_pow, PGSIZE]

theorem pa2pte_mul (p : ℕ) : pa2pte (p * PGSIZE) = p * 1024 := by
  rw [pa2pte, Nat.shiftLeft_eq, Nat.shiftRight_eq_div_pow, PGSIZE]
  omega

theorem mkPte_ppn_flags (x : ℕ) : mkPte (ppn x) (pteFlags x) = x := by
  rw [pteFlags, show (0x3FF : ℕ) = 2 ^ 10 - 1 by rfl, Nat.and_two_pow_sub_one_eq_mod, mkPte, ppn]
  omega

theorem pteFlags_lt (x : ℕ) : pteFlags x < 1024 := by
  rw [pteFlags, show (0x3FF : ℕ) = 2 ^ 10 - 1 by rfl, Nat.and_two_pow_sub_one_eq_mod]
  omega

theorem testBit_of_lt {k : ℕ} (hg : g < 1024) (hk : ¬ k < 10) : g.testBit k = false := by
  refine Nat.testBit_lt_two_pow (lt_of_lt_of_le hg ?_)
  calc 1024 = 2 ^ 10 := rfl
    _ ≤ 2 ^ k := Nat.pow_le_pow_right (n := 2) (by decide) (not_lt.mp hk)

theorem mkPte_or (hf : f < 1024) (hg : g < 1024) : mkPte p f ||| g = mkPte p (f ||| g) := by
  have hfg : f ||| g < 1024 := Nat.or_lt_two_pow (n := 10) hf hg
  refine eq_mkPte hfg fun k => ?_
  rw [Nat.testBit_or, testBit_mkPte hf, Nat.testBit_or]
  split_ifs with hk
  · rfl
  · rw [testBit_of_lt hg hk, Bool.or_false]

theorem pa2pte_or (p : ℕ) {f : ℕ} (hf : f < 1024) :
    pa2pte (p * PGSIZE) ||| f ||| PTE_V = mkPte p (f ||| PTE_V) := by
  have h0 : p * 1024 = mkPte p 0 := by simp [mkPte]
  rw [pa2pte_mul, h0, mkPte_or (by decide) hf, Nat.zero_or, mkPte_or hf (by decide)]

end Bits

theorem px_zero (va : ℕ) : px 0 va = va / PGSIZE % 512 := by
  rw [px, show (0x1FF : ℕ) = 2 ^ 9 - 1 by rfl, Nat.and_two_pow_sub_one_eq_mod,
    Nat.shiftRight_eq_div_pow, PGSIZE]

theorem px_one (va : ℕ) : px 1 va = va / PGSIZE / 512 % 512 := by
  rw [px, show (0x1FF : ℕ) = 2 ^ 9 - 1 by rfl, Nat.and_two_pow_sub_one_eq_mod,
    Nat.shiftRight_eq_div_pow, Nat.div_div_eq_div_mul, PGSIZE]

theorem px_two {va : ℕ} (h : va < MAXVA) : px 2 va = va / PGSIZE / 512 / 512 := by
  rw [px, show (0x1FF : ℕ) = 2 ^ 9 - 1 by rfl, Nat.and_two_pow_sub_one_eq_mod,
    Nat.shiftRight_eq_div_pow, Nat.div_div_eq_div_mul, Nat.div_div_eq_div_mul, PGSIZE]
  unfold MAXVA at h
  omega

end Xv6.Vm
