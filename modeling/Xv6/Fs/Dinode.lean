import Xv6.Fs.Blocks

/-!
# Inodes on disk

The fields of `struct dinode`, read from the disk by inode number, and what writing one inode with
`putDinode` does to them: it sets the fields of this inode and leaves those of every other inode alone.
-/

namespace Xv6.Fs

open Function Lib

/-- The field of `w` bytes at offset `o` of inode `inum`. -/
def dinodeField (sb : Superblock) (d : Disk) (inum o w : ℕ) : ℕ :=
  (d (sb.iblock inum)).le (dinodeOff inum + o) w

/-- `dip->type` -/
def dinodeType (sb : Superblock) (d : Disk) (inum : ℕ) : ℕ := dinodeField sb d inum 0 2

/-- `dip->nlink` -/
def dinodeNlink (sb : Superblock) (d : Disk) (inum : ℕ) : ℕ := dinodeField sb d inum 6 2

/-- `dip->size` -/
def dinodeSize (sb : Superblock) (d : Disk) (inum : ℕ) : ℕ := dinodeField sb d inum 8 4

/-- `dip->addrs` -/
def dinodeAddrs (sb : Superblock) (d : Disk) : Addrs := fun inum k =>
  dinodeField sb d inum (12 + 4 * k) 4

/-- The disk after inode `inum` has been written. -/
def setDinode (sb : Superblock) (d : Disk) (inum : ℕ) (i : Inode) : Disk :=
  update d (sb.iblock inum) (putDinode (d (sb.iblock inum)) inum i)

section Put

variable {data : Block} {base o w n k inum : ℕ} {v : ℕ → ℕ} {i : Inode}

theorem le_fold_setLe_of_disjoint (h : o + w ≤ base ∨ base + 4 * n ≤ o) :
    (Nat.fold n (fun k _ (b : Block) => b.setLe (base + 4 * k) 4 (v k)) data).le o w = data.le o w := by
  induction n with
  | zero => rfl
  | succ n ih =>
    rw [Nat.fold_succ, Bytes.le_setLe_of_disjoint _ _ _ _ _ _ (by omega), ih (by omega)]

theorem le_fold_setLe (hn : base + 4 * n ≤ BSIZE) (hk : k < n) :
    (Nat.fold n (fun k _ (b : Block) => b.setLe (base + 4 * k) 4 (v k)) data).le (base + 4 * k) 4 =
      v k % 2 ^ 32 := by
  induction n with
  | zero => exact absurd hk (Nat.not_lt_zero k)
  | succ n ih =>
    rw [Nat.fold_succ]
    by_cases heq : k = n
    · rw [heq]
      exact Bytes.le_setLe _ _ _ _ (by omega)
    · rw [Bytes.le_setLe_of_disjoint _ _ _ _ _ _ (by omega), ih (by omega) (by omega)]

theorem dinodeOff_le (inum : ℕ) : dinodeOff inum + 64 ≤ BSIZE := by
  have hlt : inum % IPB < IPB := Nat.mod_lt _ (by decide)
  unfold dinodeOff IPB BSIZE at *
  omega

theorem le_putDinode_of_disjoint (h : o + w ≤ dinodeOff inum ∨ dinodeOff inum + 64 ≤ o) :
    (putDinode data inum i).le o w = data.le o w := by
  unfold putDinode
  simp only
  rw [le_fold_setLe_of_disjoint (by unfold NDIRECT; omega)]
  simp (disch := omega) only [Bytes.le_setLe_of_disjoint]

theorem putDinode_type : (putDinode data inum i).le (dinodeOff inum) 2 = i.type % 2 ^ 16 := by
  have hoff := dinodeOff_le inum
  unfold putDinode
  simp only
  rw [le_fold_setLe_of_disjoint (by omega)]
  simp (disch := omega) only [Bytes.le_setLe_of_disjoint, Bytes.le_setLe]
  norm_num

theorem putDinode_nlink : (putDinode data inum i).le (dinodeOff inum + 6) 2 = i.nlink % 2 ^ 16 := by
  have hoff := dinodeOff_le inum
  unfold putDinode
  simp only
  rw [le_fold_setLe_of_disjoint (by omega)]
  simp (disch := omega) only [Bytes.le_setLe_of_disjoint, Bytes.le_setLe]
  norm_num

theorem putDinode_size : (putDinode data inum i).le (dinodeOff inum + 8) 4 = i.size % 2 ^ 32 := by
  have hoff := dinodeOff_le inum
  unfold putDinode
  simp only
  rw [le_fold_setLe_of_disjoint (by omega), Bytes.le_setLe _ _ _ _ (by omega)]
  norm_num

theorem putDinode_addrs (hk : k ≤ NDIRECT) :
    (putDinode data inum i).le (dinodeOff inum + 12 + 4 * k) 4 = i.addrs k % 2 ^ 32 := by
  have hoff := dinodeOff_le inum
  unfold putDinode
  exact le_fold_setLe (by unfold NDIRECT; omega) (by omega)

end Put

section Table

variable {sb : Superblock} {d : Disk} {inum inum' o w k : ℕ} {i : Inode}

theorem dinodeOff_disjoint (hne : inum' ≠ inum) (hblock : sb.iblock inum' = sb.iblock inum) :
    dinodeOff inum' + 64 ≤ dinodeOff inum ∨ dinodeOff inum + 64 ≤ dinodeOff inum' := by
  unfold Superblock.iblock at hblock
  have hmod : inum' % IPB ≠ inum % IPB := by
    intro hmod
    apply hne
    rw [← Nat.div_add_mod inum' IPB, ← Nat.div_add_mod inum IPB, hmod, Nat.add_right_cancel hblock]
  unfold dinodeOff
  omega

theorem dinodeField_setDinode_of_ne (hne : inum' ≠ inum) (hw : o + w ≤ 64) :
    dinodeField sb (setDinode sb d inum i) inum' o w = dinodeField sb d inum' o w := by
  unfold dinodeField setDinode
  by_cases hblock : sb.iblock inum' = sb.iblock inum
  · rw [hblock, update_self]
    apply le_putDinode_of_disjoint
    have := dinodeOff_disjoint hne hblock
    omega
  · rw [update_of_ne hblock]

theorem dinodeType_setDinode : dinodeType sb (setDinode sb d inum i) inum' =
    if inum' = inum then i.type % 2 ^ 16 else dinodeType sb d inum' := by
  split_ifs with h
  · subst h
    unfold dinodeType dinodeField setDinode
    rw [update_self]
    exact putDinode_type
  · exact dinodeField_setDinode_of_ne h (by omega)

theorem dinodeNlink_setDinode : dinodeNlink sb (setDinode sb d inum i) inum' =
    if inum' = inum then i.nlink % 2 ^ 16 else dinodeNlink sb d inum' := by
  split_ifs with h
  · subst h
    unfold dinodeNlink dinodeField setDinode
    rw [update_self]
    exact putDinode_nlink
  · exact dinodeField_setDinode_of_ne h (by omega)

theorem dinodeSize_setDinode : dinodeSize sb (setDinode sb d inum i) inum' =
    if inum' = inum then i.size % 2 ^ 32 else dinodeSize sb d inum' := by
  split_ifs with h
  · subst h
    unfold dinodeSize dinodeField setDinode
    rw [update_self]
    exact putDinode_size
  · exact dinodeField_setDinode_of_ne h (by omega)

theorem dinodeAddrs_setDinode (hk : k ≤ NDIRECT) : dinodeAddrs sb (setDinode sb d inum i) inum' k =
    if inum' = inum then i.addrs k % 2 ^ 32 else dinodeAddrs sb d inum' k := by
  split_ifs with h
  · subst h
    unfold dinodeAddrs dinodeField setDinode
    rw [update_self, ← Nat.add_assoc]
    exact putDinode_addrs hk
  · exact dinodeField_setDinode_of_ne h (by unfold NDIRECT at hk; omega)

theorem dinodeField_congr {d' : Disk} (h : d' (sb.iblock inum) = d (sb.iblock inum)) :
    dinodeField sb d' inum o w = dinodeField sb d inum o w := by
  unfold dinodeField
  rw [h]

end Table

end Xv6.Fs
