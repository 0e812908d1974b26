import Xv6.Fs.Inode

/-!
# The blocks of files

An inode stores block numbers in 269 places: twelve direct addresses, the address of an indirect block,
and the 256 entries of that block. `Owns` says that no block number is stored twice and that all are in
the data area. A file block without an address reads as zeros, so that giving it a zeroed block does not
change what the file holds (`Extends`), and a write to a block of a file changes this block of this file
alone (`blockData_write`). The kernel and `mkfs` both work on files by these two steps.
-/

namespace Xv6.Fs

open Function
open Lib (Bytes)

/-- The number of places where an inode stores block numbers. -/
def NSLOT : ℕ := NDIRECT + 1 + NINDIRECT

/-- The block addresses of inodes, by inode number. -/
abbrev Addrs : Type := ℕ → ℕ → ℕ

/-- The block number in place `k` of inode `i`: `addrs[k]`, or an entry of the indirect block. -/
def ptr (A : Addrs) (d : Disk) (i k : ℕ) : ℕ :=
  if k ≤ NDIRECT then A i k
  else if A i NDIRECT = 0 then 0
  else (d (A i NDIRECT)).word (k - (NDIRECT + 1))

/-- The place of the address of block `bn` of a file. -/
def slotOf (bn : ℕ) : ℕ := if bn < NDIRECT then bn else bn + 1

/-- What block `bn` of file `i` holds. -/
def blockData (A : Addrs) (d : Disk) (i bn : ℕ) : Block :=
  if ptr A d i (slotOf bn) = 0 then Bytes.fill BSIZE 0 else d (ptr A d i (slotOf bn))

/-- The byte of file `i` at offset `p`. -/
def byteAt (A : Addrs) (d : Disk) (i p : ℕ) : UInt8 := (blockData A d i (p / BSIZE)).get (p % BSIZE)

/-- The block numbers that inodes store are different, and in the data area from `lo` to `hi`. -/
structure Owns (A : Addrs) (d : Disk) (lo hi : ℕ) : Prop where
  range : ∀ i k, k < NSLOT → ptr A d i k ≠ 0 → lo ≤ ptr A d i k ∧ ptr A d i k < hi
  inj : ∀ i k i' k', k < NSLOT → k' < NSLOT → ptr A d i k ≠ 0 → ptr A d i k = ptr A d i' k' →
    i = i' ∧ k = k'

/-- Block `b` is stored nowhere. -/
def Unowned (A : Addrs) (d : Disk) (b : ℕ) : Prop := ∀ i k, k < NSLOT → ptr A d i k ≠ b

/-- Files have been given blocks, and hold what they held. -/
structure Extends (A : Addrs) (d : Disk) (A' : Addrs) (d' : Disk) : Prop where
  keep : ∀ i k, k < NSLOT → ptr A d i k ≠ 0 → ptr A' d' i k = ptr A d i k
  data : ∀ i bn, bn < MAXFILE → blockData A' d' i bn = blockData A d i bn

/-- Block `b` has been put into place `k` of inode `i`. -/
def Added (A : Addrs) (d : Disk) (i k b : ℕ) (A' : Addrs) (d' : Disk) : Prop :=
  ∀ i' k', k' < NSLOT → ptr A' d' i' k' = if i' = i ∧ k' = k then b else ptr A d i' k'

section Slots

variable {A A' : Addrs} {d d' : Disk} {lo hi i i' k k' b bn bn' : ℕ} {x : Block}

theorem slotOf_lt (h : bn < MAXFILE) : slotOf bn < NSLOT := by
  unfold slotOf NSLOT
  unfold MAXFILE at h
  split_ifs <;> omega

theorem slotOf_ne (bn : ℕ) : slotOf bn ≠ NDIRECT := by
  unfold slotOf
  split_ifs <;> omega

theorem slotOf_inj (h : slotOf bn = slotOf bn') : bn = bn' := by
  unfold slotOf at h
  split_ifs at h <;> omega

theorem slotOf_direct (h : bn < NDIRECT) : slotOf bn = bn := if_pos h

theorem slotOf_indirect (h : ¬ bn < NDIRECT) : slotOf bn = NDIRECT + 1 + (bn - NDIRECT) := by
  rw [slotOf, if_neg h]
  omega

theorem ndirect_lt : NDIRECT < NSLOT := by
  unfold NSLOT
  omega

theorem ptr_of_le (hk : k ≤ NDIRECT) : ptr A d i k = A i k := if_pos hk

theorem ptr_entry (j : ℕ) (hind : A i NDIRECT ≠ 0) :
    ptr A d i (NDIRECT + 1 + j) = (d (A i NDIRECT)).word j := by
  rw [ptr, if_neg (by omega), if_neg hind, Nat.add_sub_cancel_left]

theorem ptr_congr (hA : ∀ k, k ≤ NDIRECT → A' i k = A i k)
    (hd : A i NDIRECT ≠ 0 → d' (A i NDIRECT) = d (A i NDIRECT)) (k : ℕ) :
    ptr A' d' i k = ptr A d i k := by
  unfold ptr
  rw [hA NDIRECT le_rfl]
  split_ifs with hk hind
  · exact hA k hk
  · rfl
  · rw [hd hind]

theorem Owns.ptr_write (h : Owns A d lo hi) (hk : k < NSLOT) (hne : k ≠ NDIRECT)
    (hptr : ptr A d i k ≠ 0) (i' k' : ℕ) :
    ptr A (update d (ptr A d i k) x) i' k' = ptr A d i' k' := by
  refine ptr_congr (fun _ _ => rfl) (fun _ => update_of_ne ?_ _ _) k'
  intro heq
  rw [← ptr_of_le (A := A) (d := d) (i := i') le_rfl] at heq
  exact hne (h.inj i k i' NDIRECT hk ndirect_lt hptr heq.symm).2

theorem Owns.of_ptr_eq (h : Owns A d lo hi)
    (hptr : ∀ i k, k < NSLOT → ptr A' d' i k = ptr A d i k) : Owns A' d' lo hi where
  range i k hk hne := by
    rw [hptr i k hk] at hne ⊢
    exact h.range i k hk hne
  inj i k i' k' hk hk' hne heq := by
    rw [hptr i k hk] at hne heq
    rw [hptr i' k' hk'] at heq
    exact h.inj i k i' k' hk hk' hne heq

theorem Owns.mono (h : Owns A d lo hi) {hi' : ℕ} (hle : hi ≤ hi') : Owns A d lo hi' where
  range i k hk hne := ⟨(h.range i k hk hne).1, (h.range i k hk hne).2.trans_le hle⟩
  inj := h.inj

theorem Owns.add (h : Owns A d lo hi) (hadd : Added A d i k b A' d') (hb : Unowned A d b)
    (hlo : lo ≤ b) (hhi : b < hi) : Owns A' d' lo hi where
  range i' k' hk' hne := by
    rw [hadd i' k' hk'] at hne ⊢
    split_ifs at hne ⊢ with heq
    · exact ⟨hlo, hhi⟩
    · exact h.range i' k' hk' hne
  inj i1 k1 i2 k2 hk1 hk2 hne heq := by
    rw [hadd i1 k1 hk1] at hne heq
    rw [hadd i2 k2 hk2] at heq
    split_ifs at hne heq with h1 h2 h2
    · exact ⟨h1.1.trans h2.1.symm, h1.2.trans h2.2.symm⟩
    · exact absurd heq.symm (hb i2 k2 hk2)
    · exact absurd heq (hb i1 k1 hk1)
    · exact h.inj i1 k1 i2 k2 hk1 hk2 hne heq

theorem added_setAddr (hk : k ≤ NDIRECT) (hnull : A i k = 0)
    (hzero : k = NDIRECT → ∀ j, (d b).word j = 0) :
    Added A d i k b (update A i (update (A i) k b)) d := by
  intro i' k' _
  by_cases hi : i' = i
  swap
  · rw [if_neg fun h => hi h.1]
    exact ptr_congr (fun _ _ => by rw [update_of_ne hi]) (fun _ => rfl) k'
  subst hi
  by_cases hk' : k' ≤ NDIRECT
  · rw [ptr_of_le hk', ptr_of_le hk', update_self]
    by_cases heq : k' = k
    · rw [heq, update_self, if_pos ⟨rfl, rfl⟩]
    · rw [update_of_ne heq, if_neg fun h => heq h.2]
  · rw [if_neg (by omega)]
    unfold ptr
    rw [if_neg hk', if_neg hk', update_self]
    by_cases hind : k = NDIRECT
    · rw [← hind, update_self, hnull, if_pos rfl, hzero hind, ite_self]
    · rw [update_of_ne (Ne.symm hind)]

theorem Owns.added_setWord (h : Owns A d lo hi) {j : ℕ} (hj : j < NINDIRECT)
    (hind : A i NDIRECT ≠ 0) (hb : b < 2 ^ 32) :
    Added A d i (NDIRECT + 1 + j) b A
      (update d (A i NDIRECT) ((d (A i NDIRECT)).setWord j b)) := by
  intro i' k' hk'
  by_cases hle : k' ≤ NDIRECT
  · rw [if_neg (by omega), ptr_of_le hle, ptr_of_le hle]
  by_cases hi : i' = i
  · subst hi
    unfold ptr
    rw [if_neg hle, if_neg hind, if_neg hle, if_neg hind, update_self,
      Block.word_setWord _ (by unfold NINDIRECT BSIZE at hj; omega), Nat.mod_eq_of_lt hb]
    refine if_congr ?_ rfl rfl
    constructor
    · intro heq
      exact ⟨rfl, by omega⟩
    · rintro ⟨-, rfl⟩
      omega
  · rw [if_neg fun h => hi h.1]
    refine ptr_congr (fun _ _ => rfl) (fun _ => update_of_ne ?_ _ _) k'
    intro heq
    rw [← ptr_of_le (A := A) (d := d) (i := i) le_rfl] at hind
    have := h.inj i NDIRECT i' NDIRECT ndirect_lt ndirect_lt hind (by
      rw [ptr_of_le le_rfl, ptr_of_le le_rfl, heq])
    exact hi this.1.symm

end Slots

/-! ## What files hold -/

section Data

variable {A A' A'' : Addrs} {d d' d'' : Disk} {lo hi i i' k b bn bn' : ℕ} {x : Block}

theorem Extends.refl (A : Addrs) (d : Disk) : Extends A d A d :=
  ⟨fun _ _ _ _ => rfl, fun _ _ _ => rfl⟩

theorem Extends.trans (h : Extends A d A' d') (h' : Extends A' d' A'' d'') : Extends A d A'' d'' where
  keep i k hk hne := by
    have hmid := h.keep i k hk hne
    rw [h'.keep i k hk (by rwa [hmid]), hmid]
  data i bn hbn := (h'.data i bn hbn).trans (h.data i bn hbn)

theorem extends_of_ptr_eq (hptr : ∀ i k, k < NSLOT → ptr A' d' i k = ptr A d i k)
    (hd : ∀ i k, k < NSLOT → k ≠ NDIRECT → ptr A d i k ≠ 0 → d' (ptr A d i k) = d (ptr A d i k)) :
    Extends A d A' d' where
  keep i k hk _ := hptr i k hk
  data i bn hbn := by
    unfold blockData
    rw [hptr i _ (slotOf_lt hbn)]
    split_ifs with h0
    · rfl
    · exact hd i _ (slotOf_lt hbn) (slotOf_ne bn) h0

theorem Added.extends (hadd : Added A d i k b A' d') (hnull : ptr A d i k = 0)
    (hzero : k ≠ NDIRECT → d' b = Bytes.fill BSIZE 0)
    (hd : ∀ i k, k < NSLOT → k ≠ NDIRECT → ptr A d i k ≠ 0 → d' (ptr A d i k) = d (ptr A d i k)) :
    Extends A d A' d' where
  keep i' k' hk' hne := by
    rw [hadd i' k' hk', if_neg]
    rintro ⟨rfl, rfl⟩
    exact hne hnull
  data i' bn hbn := by
    unfold blockData
    rw [hadd i' _ (slotOf_lt hbn)]
    by_cases hslot : i' = i ∧ slotOf bn = k
    · -- The place held no block, and the new block holds zeros.
      obtain ⟨rfl, rfl⟩ := hslot
      simp only [and_self, if_true, hnull, hzero (slotOf_ne bn), ite_self]
    · rw [if_neg hslot]
      split_ifs with h0
      · rfl
      · exact hd i' _ (slotOf_lt hbn) (slotOf_ne bn) h0

theorem Owns.setAddr (h : Owns A d lo hi) (hb : Unowned A d b) (hlo : lo ≤ b) (hhi : b < hi)
    (hzero : d b = Bytes.fill BSIZE 0) (hk : k ≤ NDIRECT) (hnull : A i k = 0) :
    Added A d i k b (update A i (update (A i) k b)) d ∧
      Owns (update A i (update (A i) k b)) d lo hi ∧
      Extends A d (update A i (update (A i) k b)) d := by
  have hadd : Added A d i k b _ d := added_setAddr hk hnull fun _ j => by
    rw [hzero]
    exact Bytes.le_fill_zero _ _
  refine ⟨hadd, h.add hadd hb hlo hhi, hadd.extends ?_ (fun _ => hzero) fun _ _ _ _ _ => rfl⟩
  rw [ptr_of_le hk, hnull]

theorem Owns.setWord (h : Owns A d lo hi) (hb : Unowned A d b) (hlo : lo ≤ b) (hhi : b < hi)
    (hzero : d b = Bytes.fill BSIZE 0) {j : ℕ} (hj : j < NINDIRECT) (hind : A i NDIRECT ≠ 0)
    (hnull : (d (A i NDIRECT)).word j = 0) (hb32 : b < 2 ^ 32) :
    Added A d i (NDIRECT + 1 + j) b A
        (update d (A i NDIRECT) ((d (A i NDIRECT)).setWord j b)) ∧
      Owns A (update d (A i NDIRECT) ((d (A i NDIRECT)).setWord j b)) lo hi ∧
      Extends A d A (update d (A i NDIRECT) ((d (A i NDIRECT)).setWord j b)) := by
  have hadd := h.added_setWord hj hind hb32
  have hptr : ptr A d i NDIRECT = A i NDIRECT := ptr_of_le le_rfl
  refine ⟨hadd, h.add hadd hb hlo hhi, hadd.extends ?_ (fun _ => ?_) ?_⟩
  · rw [ptr_entry j hind, hnull]
  · rw [update_of_ne, hzero]
    intro heq
    exact hb i NDIRECT ndirect_lt (hptr.trans heq.symm)
  · intro i' k' hk' hne hptr'
    refine update_of_ne (fun heq => hne ?_) _ _
    exact (h.inj i' k' i NDIRECT hk' ndirect_lt hptr' (heq.trans hptr.symm)).2

theorem Owns.blockData_write (h : Owns A d lo hi) (hbn : bn < MAXFILE)
    (hptr : ptr A d i (slotOf bn) ≠ 0) (hbn' : bn' < MAXFILE) :
    blockData A (update d (ptr A d i (slotOf bn)) x) i' bn' =
      if i' = i ∧ bn' = bn then x else blockData A d i' bn' := by
  unfold blockData
  rw [h.ptr_write (slotOf_lt hbn) (slotOf_ne bn) hptr]
  by_cases hsame : i' = i ∧ bn' = bn
  · obtain ⟨rfl, rfl⟩ := hsame
    rw [if_neg hptr, update_self, if_pos ⟨rfl, rfl⟩]
  · rw [if_neg hsame]
    split_ifs with h0
    · rfl
    · refine update_of_ne (fun heq => hsame ?_) _ _
      have hinj := h.inj i' _ i _ (slotOf_lt hbn') (slotOf_lt hbn) h0 heq
      exact ⟨hinj.1, slotOf_inj hinj.2⟩

theorem Owns.byteAt_write (h : Owns A d lo hi) (i' : ℕ) {off m q : ℕ} {p : ℕ → UInt8}
    (hbn : off / BSIZE < MAXFILE) (hptr : ptr A d i (slotOf (off / BSIZE)) ≠ 0)
    (hm : m ≤ BSIZE - off % BSIZE) (hq : q < MAXFILE * BSIZE) :
    byteAt A (update d (ptr A d i (slotOf (off / BSIZE)))
        ((d (ptr A d i (slotOf (off / BSIZE)))).splice (off % BSIZE) m p)) i' q =
      if i' = i ∧ off ≤ q ∧ q < off + m then p (q - off) else byteAt A d i' q := by
  have hBpos : 0 < BSIZE := by decide
  have hmod : off % BSIZE < BSIZE := Nat.mod_lt _ hBpos
  have hdiv := Nat.div_add_mod off BSIZE
  have hqmod : q % BSIZE < BSIZE := Nat.mod_lt _ hBpos
  have hqdiv := Nat.div_add_mod q BSIZE
  have hqbn : q / BSIZE < MAXFILE := Nat.div_lt_of_lt_mul (by rwa [Nat.mul_comm])
  unfold byteAt
  rw [h.blockData_write hbn hptr hqbn]
  by_cases hsame : i' = i ∧ q / BSIZE = off / BSIZE
  · obtain ⟨rfl, hblock⟩ := hsame
    rw [if_pos ⟨rfl, hblock⟩, Bytes.get_splice _ _ _ _ hqmod]
    rw [hblock] at hqdiv ⊢
    have hold : blockData A d i' (off / BSIZE) = d (ptr A d i' (slotOf (off / BSIZE))) := if_neg hptr
    rw [hold]
    by_cases hin : off ≤ q ∧ q < off + m
    · have hpos : q % BSIZE - off % BSIZE = q - off := by omega
      rw [if_pos (by omega), if_pos ⟨rfl, hin⟩, hpos]
    · rw [if_neg (by omega), if_neg fun hc => hin hc.2]
  · rw [if_neg hsame, if_neg]
    rintro ⟨rfl, hle, hlt⟩
    -- The bytes that are written are in one block.
    apply hsame
    refine ⟨rfl, Nat.div_eq_of_lt_le ?_ ?_⟩
    · rw [Nat.mul_comm]
      omega
    · rw [Nat.add_mul, Nat.one_mul, Nat.mul_comm]
      omega

end Data

/-! ## Replacing bytes -/

/-- The contents `c` with `n` bytes replaced by those of `p`, from `off` on. -/
def overlay (c : ℕ → UInt8) (off n : ℕ) (p : ℕ → UInt8) : ℕ → UInt8 := fun q =>
  if off ≤ q ∧ q < off + n then p (q - off) else c q

theorem overlay_append (c : ℕ → UInt8) (off m n : ℕ) (p : ℕ → UInt8) :
    overlay (overlay c off m p) (off + m) n (fun k => p (m + k)) = overlay c off (m + n) p := by
  funext q
  unfold overlay
  by_cases h1 : off + m ≤ q ∧ q < off + m + n
  · have hq : m + (q - (off + m)) = q - off := by omega
    simp only [if_pos h1, hq]
    rw [if_pos (by omega)]
  · rw [if_neg h1]
    refine if_congr ?_ rfl rfl
    omega

theorem overlay_zero (c : ℕ → UInt8) (off : ℕ) (p : ℕ → UInt8) : overlay c off 0 p = c := by
  funext q
  exact if_neg (by omega)

end Xv6.Fs
