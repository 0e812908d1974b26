import Xv6.Lib.Bytes

/-!
# Parameters and the disk

The constants of `kernel/param.h`, `kernel/fcntl.h` and `kernel/fs.h` that several components share, and
the disk of the file-system layers: a map from block numbers to blocks of `BSIZE` bytes.
-/

namespace Xv6

/-- `NPROC`: the number of places of the process table. -/
def NPROC : ℕ := 64

theorem zero_lt_nproc : 0 < NPROC := by decide

theorem one_lt_nproc : 1 < NPROC := by decide

/-- `MAXOPBLOCKS`: the number of blocks one file-system operation may write. -/
def MAXOPBLOCKS : ℕ := 10

/-- `LOGSIZE`: the number of entries of the log header's block list. -/
def LOGSIZE : ℕ := MAXOPBLOCKS * 3

/-- `NBUF`: the number of buffers in the block cache. -/
def NBUF : ℕ := MAXOPBLOCKS * 3

/-- `ROOTDEV`: the device number of the root file system. -/
def ROOTDEV : ℕ := 1

/-- `BSIZE`: the number of bytes of a block. -/
def BSIZE : ℕ := 1024

/-! The modes of `open`. -/

/-- `O_RDONLY` -/
def O_RDONLY : ℕ := 0x000
/-- `O_WRONLY` -/
def O_WRONLY : ℕ := 0x001
def O_RDWR : ℕ := 0x002
/-- `O_CREATE` -/
def O_CREATE : ℕ := 0x200
/-- `O_TRUNC` -/
def O_TRUNC : ℕ := 0x400

/-- A disk block. -/
abbrev Block : Type := Lib.Bytes BSIZE

/-- The disk, from block numbers to blocks. -/
abbrev Disk : Type := ℕ → Block

/-- The `i`-th 32-bit word of a block, as the `uint` it is. -/
def Block.word (b : Block) (i : ℕ) : ℕ := b.le (4 * i) 4

/-- The block with its `i`-th 32-bit word replaced. -/
def Block.setWord (b : Block) (i v : ℕ) : Block := b.setLe (4 * i) 4 v

/-- The value of a 32-bit word read as an `int`. -/
def toInt32 (w : ℕ) : ℤ := if w < 2 ^ 31 then w else w - 2 ^ 32

theorem Block.word_setWord (b : Block) {i j v : ℕ} (hi : i < 256) :
    (b.setWord i v).word j = if j = i then v % 2 ^ 32 else b.word j := by
  unfold Block.word Block.setWord
  split_ifs with h
  · subst h
    exact Lib.Bytes.le_setLe b (4 * j) 4 v (by simp only [BSIZE]; omega)
  · exact Lib.Bytes.le_setLe_of_disjoint b _ _ _ _ _ (by omega)

end Xv6
