import Xv6.Param
import Xv6.Lib.Wp

/-!
# Blocks and inodes

The block allocator and the inode layer of `kernel/fs.c`, for one system call at a time. Blocks are
read from and written to the disk as the buffer cache and the log present it: `log_write` changes the
disk at once. Machine words are natural numbers; a `short` is its 16-bit word.
-/

namespace Xv6.Fs

open Function
open Lib (Bytes)

/-- `NINODE`: the number of entries of the inode table. -/
def NINODE : ℕ := 50

theorem zero_lt_ninode : 0 < NINODE := by decide

/-- `NDIRECT`: the number of direct block addresses of an inode. -/
def NDIRECT : ℕ := 12

/-- `NINDIRECT`: the number of block addresses in an indirect block. -/
def NINDIRECT : ℕ := BSIZE / 4

/-- `MAXFILE`: the largest file, in blocks. -/
def MAXFILE : ℕ := NDIRECT + NINDIRECT

/-- `IPB`: inodes per block. -/
def IPB : ℕ := BSIZE / 64

/-- `BPB`: bitmap bits per block. -/
def BPB : ℕ := BSIZE * 8

def T_DIR : ℕ := 1
def T_FILE : ℕ := 2
def T_DEVICE : ℕ := 3

/-- `struct superblock`, without the fields that only `mkfs` and the log use. -/
structure Superblock where
  size : ℕ
  ninodes : ℕ
  inodestart : ℕ
  bmapstart : ℕ

/-- An index into `itable.inode`. -/
abbrev Ino : Type := Fin NINODE

/-- `struct inode`. `lock` says whether the sleep lock is held. -/
structure Inode where
  dev : ℕ
  inum : ℕ
  ref : ℤ
  lock : Bool
  valid : Bool
  type : ℕ
  major : ℕ
  minor : ℕ
  nlink : ℕ
  size : ℕ
  addrs : ℕ → ℕ

/-- What the file system works on: the superblock, the disk and `itable`. -/
structure State where
  sb : Superblock
  disk : Disk
  inode : Ino → Inode

/-- The panics, and a process that waits for a lock it holds itself. -/
inductive Panic
  | deadlock
  | bfree
  | iget
  | ilock
  | ilockType
  | iunlock
  | bmap
  | dirlookup
  | dirlookupRead
  | dirlinkRead
  | isdirempty
  | unlinkNlink
  | unlinkWritei
  deriving DecidableEq

/-- Code of the file system. -/
abbrev F : Type → Type := StateT State (Except Panic)

/-- Update an entry of the inode table. -/
def setInode (ip : Ino) (u : Inode → Inode) : F Unit :=
  modify fun s => { s with inode := update s.inode ip (u (s.inode ip)) }

/-! ## Blocks -/

/-- `bread`: the contents of a block. -/
def bread (b : ℕ) : F Block := return (← get).disk b

/-- `log_write` of a buffer with these contents. -/
def logWrite (b : ℕ) (data : Block) : F Unit :=
  modify fun s => { s with disk := update s.disk b data }

/-- `BBLOCK` -/
def Superblock.bblock (sb : Superblock) (b : ℕ) : ℕ := b / BPB + sb.bmapstart

/-- Whether the bit of block `b` is set in its block of the bitmap. -/
def bit (data : Block) (b : ℕ) : Bool := (data.get (b % BPB / 8)).toNat.testBit (b % 8)

/-- The bitmap block with the bit of block `b` flipped. -/
def flipBit (data : Block) (b : ℕ) : Block :=
  data.splice (b % BPB / 8) 1 fun _ =>
    UInt8.ofNat ((data.get (b % BPB / 8)).toNat ^^^ 2 ^ (b % 8))

/-- `balloc`: the first free block, zeroed, or 0. -/
def balloc : F ℕ := do
  let s ← get
  match (List.range s.sb.size).find? fun b => !bit (s.disk (s.sb.bblock b)) b with
  | none => return 0
  | some b =>
    logWrite (s.sb.bblock b) (flipBit (s.disk (s.sb.bblock b)) b)
    logWrite b (Bytes.fill BSIZE 0)
    return b

/-- `bfree` -/
def bfree (b : ℕ) : F Unit := do
  let s ← get
  let data := s.disk (s.sb.bblock b)
  if !bit data b then throw .bfree
  logWrite (s.sb.bblock b) (flipBit data b)

/-! ## Inodes -/

/-- `IBLOCK` -/
def Superblock.iblock (sb : Superblock) (inum : ℕ) : ℕ := inum / IPB + sb.inodestart

/-- Where inode `inum` starts in its block. -/
def dinodeOff (inum : ℕ) : ℕ := 64 * (inum % IPB)

/-- The fields of the inode that are on disk, read from its block. -/
def getDinode (data : Block) (inum : ℕ) (i : Inode) : Inode :=
  let off := dinodeOff inum
  { i with
    type := data.le off 2
    major := data.le (off + 2) 2
    minor := data.le (off + 4) 2
    nlink := data.le (off + 6) 2
    size := data.le (off + 8) 4
    addrs := fun k => data.le (off + 12 + 4 * k) 4 }

/-- The block with the fields of the inode that are on disk. -/
def putDinode (data : Block) (inum : ℕ) (i : Inode) : Block :=
  let off := dinodeOff inum
  let data := data.setLe off 2 i.type
  let data := data.setLe (off + 2) 2 i.major
  let data := data.setLe (off + 4) 2 i.minor
  let data := data.setLe (off + 6) 2 i.nlink
  let data := data.setLe (off + 8) 4 i.size
  Nat.fold (NDIRECT + 1) (fun k _ data => data.setLe (off + 12 + 4 * k) 4 (i.addrs k)) data

/-- `iupdate` -/
def iupdate (ip : Ino) : F Unit := do
  let s ← get
  let i := s.inode ip
  let bp ← bread (s.sb.iblock i.inum)
  logWrite (s.sb.iblock i.inum) (putDinode bp i.inum i)

/-- `iget`: the entry for the inode, found or recycled, with one more reference. -/
def iget (dev inum : ℕ) : F Ino := do
  let s ← get
  match (List.finRange NINODE).find? fun ip =>
      (s.inode ip).ref > 0 ∧ (s.inode ip).dev = dev ∧ (s.inode ip).inum = inum with
  | some ip =>
    setInode ip fun i => { i with ref := i.ref + 1 }
    return ip
  | none =>
    match (List.finRange NINODE).find? fun ip => (s.inode ip).ref = 0 with
    | none => throw .iget
    | some ip =>
      setInode ip fun i => { i with dev := dev, inum := inum, ref := 1, valid := false }
      return ip

/-- The free inode that `ialloc` finds. -/
def freeInum (s : State) : Option ℕ :=
  ((List.range s.sb.ninodes).drop 1).find? fun inum =>
    (s.disk (s.sb.iblock inum)).le (dinodeOff inum) 2 = 0

/-- `ialloc` -/
def ialloc (dev type : ℕ) : F (Option Ino) := do
  let s ← get
  match freeInum s with
  | none => return none
  | some inum =>
    let bp ← bread (s.sb.iblock inum)
    let bp := bp.splice (dinodeOff inum) 64 fun _ => 0
    logWrite (s.sb.iblock inum) (bp.setLe (dinodeOff inum) 2 type)
    return some (← iget dev inum)

/-- `idup` -/
def idup (ip : Ino) : F Ino := do
  setInode ip fun i => { i with ref := i.ref + 1 }
  return ip

/-- `acquiresleep` -/
def acquiresleep (ip : Ino) : F Unit := do
  if ((← get).inode ip).lock then throw .deadlock
  setInode ip fun i => { i with lock := true }

/-- `releasesleep` -/
def releasesleep (ip : Ino) : F Unit := setInode ip fun i => { i with lock := false }

/-- `ilock` -/
def ilock (ip : Ino) : F Unit := do
  if ((← get).inode ip).ref < 1 then throw .ilock
  acquiresleep ip
  let s ← get
  let i := s.inode ip
  if !i.valid then
    let bp ← bread (s.sb.iblock i.inum)
    setInode ip fun i => { getDinode bp i.inum i with valid := true }
    if ((← get).inode ip).type = 0 then throw .ilockType

/-- `iunlock` -/
def iunlock (ip : Ino) : F Unit := do
  let i := (← get).inode ip
  if !i.lock ∨ i.ref < 1 then throw .iunlock
  releasesleep ip

/-- The loop of `itrunc` over the direct blocks. -/
def truncDirect (ip : Ino) : List ℕ → F Unit
  | [] => return
  | k :: ks => do
    let addr := ((← get).inode ip).addrs k
    if addr ≠ 0 then
      bfree addr
      setInode ip fun i => { i with addrs := update i.addrs k 0 }
    truncDirect ip ks

/-- The loop of `itrunc` over the entries of the indirect block. -/
def truncIndirect (a : Block) : List ℕ → F Unit
  | [] => return
  | j :: js => do
    if a.word j ≠ 0 then bfree (a.word j)
    truncIndirect a js

/-- `itrunc` -/
def itrunc (ip : Ino) : F Unit := do
  truncDirect ip (List.range NDIRECT)
  let addr := ((← get).inode ip).addrs NDIRECT
  if addr ≠ 0 then
    let bp ← bread addr
    truncIndirect bp (List.range NINDIRECT)
    bfree addr
    setInode ip fun i => { i with addrs := update i.addrs NDIRECT 0 }
  setInode ip fun i => { i with size := 0 }
  iupdate ip

/-- `iput` -/
def iput (ip : Ino) : F Unit := do
  let i := (← get).inode ip
  if i.ref = 1 ∧ i.valid ∧ i.nlink = 0 then
    acquiresleep ip
    itrunc ip
    setInode ip fun i => { i with type := 0 }
    iupdate ip
    setInode ip fun i => { i with valid := false }
    releasesleep ip
  setInode ip fun i => { i with ref := i.ref - 1 }

/-- `iunlockput` -/
def iunlockput (ip : Ino) : F Unit := do
  iunlock ip
  iput ip

/-! ## Contents -/

/-- The address in `ip->addrs[k]`, allocated if there is none, or 0. -/
def bmapAddr (ip : Ino) (k : ℕ) : F ℕ := do
  let i := (← get).inode ip
  if i.addrs k ≠ 0 then return i.addrs k
  let addr ← balloc
  if addr = 0 then return 0
  setInode ip fun i => { i with addrs := update i.addrs k addr }
  return addr

/-- `bmap`: the address of block `bn` of the file, allocated if there is none, or 0. -/
def bmap (ip : Ino) (bn : ℕ) : F ℕ := do
  if bn < NDIRECT then bmapAddr ip bn
  else if bn - NDIRECT < NINDIRECT then
    let ind ← bmapAddr ip NDIRECT
    if ind = 0 then return 0
    let a ← bread ind
    if a.word (bn - NDIRECT) ≠ 0 then return a.word (bn - NDIRECT)
    let addr ← balloc
    if addr ≠ 0 then logWrite ind (a.setWord (bn - NDIRECT) addr)
    return addr
  else throw .bmap

/-- The loop of `readi`. -/
def readLoop (ip : Ino) : ℕ → ℕ → ℕ → F (List UInt8)
  | 0, _, _ => return []
  | fuel + 1, off, n => do
    if n = 0 then return []
    let addr ← bmap ip (off / BSIZE)
    if addr = 0 then return []
    let bp ← bread addr
    let m := min n (BSIZE - off % BSIZE)
    let rest ← readLoop ip fuel (off + m) (n - m)
    return (List.range m).map (fun k => bp.get (off % BSIZE + k)) ++ rest

/-- `readi` to kernel memory: the bytes read. -/
def readi (ip : Ino) (off n : ℕ) : F (List UInt8) := do
  let i := (← get).inode ip
  if off > i.size ∨ (off + n) % 2 ^ 32 < off then return []
  let n := if (off + n) % 2 ^ 32 > i.size then i.size - off else n
  readLoop ip n off n

/-- The loop of `writei`: how much it has written. -/
def writeLoop (ip : Ino) : ℕ → (ℕ → UInt8) → ℕ → ℕ → F ℕ
  | 0, _, _, _ => return 0
  | fuel + 1, src, off, n => do
    if n = 0 then return 0
    let addr ← bmap ip (off / BSIZE)
    if addr = 0 then return 0
    let bp ← bread addr
    let m := min n (BSIZE - off % BSIZE)
    logWrite addr (bp.splice (off % BSIZE) m src)
    let rest ← writeLoop ip fuel (fun k => src (m + k)) (off + m) (n - m)
    return m + rest

/-- `writei` from kernel memory: how many bytes were written, or -1. -/
def writei (ip : Ino) (src : ℕ → UInt8) (off n : ℕ) : F ℤ := do
  let i := (← get).inode ip
  if off > i.size ∨ (off + n) % 2 ^ 32 < off then return -1
  if (off + n) % 2 ^ 32 > MAXFILE * BSIZE then return -1
  let tot ← writeLoop ip n src off n
  if off + tot > ((← get).inode ip).size then
    setInode ip fun i => { i with size := off + tot }
  iupdate ip
  return tot

end Xv6.Fs
