import Xv6.Fs.Dinode
import Xv6.Fs.Dir

/-!
# `mkfs`

`mkfs/mkfs.c`: the program that writes the file-system image. A host file is given by what the calls of
`read` return, or by nothing if it cannot be opened. The program ends with a failed assertion, with an
error of `lseek`, `read`, `write` or `open`, or with an image. The model remembers which inodes were
written and which sectors were written as data.
-/

namespace Xv6.Mkfs

open Lib (Bytes)
open Fs

/-- `NINODES` -/
def NINODES : ℕ := 200

/-- `FSSIZE`: the size of the file system in blocks. -/
def FSSIZE : ℕ := 2000

/-- The number of bitmap blocks. -/
def nbitmap : ℕ := FSSIZE / (BSIZE * 8) + 1

/-- The number of inode blocks. -/
def ninodeblocks : ℕ := NINODES / IPB + 1

/-- The number of log blocks. -/
def nlog : ℕ := LOGSIZE

/-- The number of blocks before the data: boot block, superblock, log, inodes and bitmap. -/
def nmeta : ℕ := 2 + nlog + ninodeblocks + nbitmap

/-- The fields of the superblock that the kernel's file-system code uses. -/
def sb : Superblock where
  size := FSSIZE
  ninodes := NINODES
  inodestart := 2 + nlog
  bmapstart := 2 + nlog + ninodeblocks

/-- The image file, `nsect` sectors long, and the variables `freeinode` and `freeblock`. -/
structure Img where
  disk : Disk
  nsect : ℕ
  freeinode : ℕ
  freeblock : ℕ
  /-- the inodes that `winode` has written -/
  inodes : List ℕ
  /-- the sectors that `iappend` has written -/
  written : List ℕ

/-- How `mkfs` ends without an image: a failed `assert`, or `die`. -/
inductive Fail
  | assert
  | die
  deriving DecidableEq

/-- Code that works on the image and may fail. -/
abbrev M : Type → Type := StateT Img (Except Fail)

/-- `rsect`: past the end of the file nothing can be read. -/
def rsect (sec : ℕ) : M Block := do
  let s ← get
  if sec < s.nsect then return s.disk sec else throw .die

/-- `wsect` -/
def wsect (sec : ℕ) (buf : Block) : M Unit :=
  modify fun s => { s with disk := Function.update s.disk sec buf, nsect := max s.nsect (sec + 1) }

/-- `wsect` as `iappend` calls it. -/
def wsectData (sec : ℕ) (buf : Block) : M Unit := do
  wsect sec buf
  modify fun s => { s with written := sec :: s.written }

/-- A `struct dinode` of zeros. -/
def zeroInode : Inode := ⟨0, 0, 0, false, false, 0, 0, 0, 0, 0, fun _ => 0⟩

/-- `winode` -/
def winode (inum : ℕ) (ip : Inode) : M Unit := do
  let bn := sb.iblock inum
  let buf ← rsect bn
  wsect bn (putDinode buf inum ip)
  modify fun s => { s with inodes := inum :: s.inodes }

/-- `rinode` -/
def rinode (inum : ℕ) : M Inode := do
  let buf ← rsect (sb.iblock inum)
  return getDinode buf inum zeroInode

/-- `ialloc` -/
def ialloc (type : ℕ) : M ℕ := do
  let inum := (← get).freeinode
  modify fun s => { s with freeinode := s.freeinode + 1 }
  winode inum { zeroInode with type := type, nlink := 1 }
  return inum

/-- The bitmap with the bits of the first `used` blocks set. -/
def bitmap (used : ℕ) : Block :=
  Nat.fold used (fun i _ (buf : Block) => buf.splice (i / 8) 1 fun _ =>
    UInt8.ofNat ((buf.get (i / 8)).toNat ||| 2 ^ (i % 8))) (Bytes.fill BSIZE 0)

/-- `balloc` -/
def balloc (used : ℕ) : M Unit := do
  if used < BSIZE * 8 then wsect sb.bmapstart (bitmap used) else throw .assert

/-- `freeblock++` -/
def nextBlock : M ℕ := do
  let b := (← get).freeblock
  modify fun s => { s with freeblock := s.freeblock + 1 }
  return b

/-- `din.addrs[k]`, given a block if it has none. -/
def dinAddr (din : Inode) (k : ℕ) : M Inode := do
  if din.addrs k = 0 then
    let b ← nextBlock
    return { din with addrs := Function.update din.addrs k b }
  else return din

/-- The part of the loop of `iappend` that finds the address of block `fbn`. -/
def iappendAddr (din : Inode) (fbn : ℕ) : M (ℕ × Inode) := do
  if fbn < NDIRECT then
    let din ← dinAddr din fbn
    return (din.addrs fbn, din)
  else
    let din ← dinAddr din NDIRECT
    let indirect ← rsect (din.addrs NDIRECT)
    if indirect.word (fbn - NDIRECT) = 0 then
      let b ← nextBlock
      let indirect := indirect.setWord (fbn - NDIRECT) b
      wsectData (din.addrs NDIRECT) indirect
      return (indirect.word (fbn - NDIRECT), din)
    else return (indirect.word (fbn - NDIRECT), din)

/-- The loop of `iappend`: `off` and `din` at its end. -/
def iappendLoop : ℕ → (ℕ → UInt8) → ℕ → ℕ → Inode → M (ℕ × Inode)
  | 0, _, _, off, din => return (off, din)
  | fuel + 1, p, n, off, din => do
    if n = 0 then return (off, din)
    else
      let fbn := off / BSIZE
      if fbn ≥ MAXFILE then throw .assert
      else
        let r ← iappendAddr din fbn
        let n1 := min n ((fbn + 1) * BSIZE - off)
        let buf ← rsect r.1
        wsectData r.1 (buf.splice (off - fbn * BSIZE) n1 p)
        iappendLoop fuel (fun k => p (n1 + k)) (n - n1) (off + n1) r.2

/-- `iappend` -/
def iappend (inum : ℕ) (p : ℕ → UInt8) (n : ℕ) : M Unit := do
  let din ← rinode inum
  let r ← iappendLoop n p n din.size din
  winode inum { r.2 with size := r.1 }

/-- `"user/"` -/
def userDir : List UInt8 := [117, 115, 101, 114, 47]

/-- `'_'` -/
def underscore : UInt8 := 95

/-- An argument of `mkfs`: the name, and the results of the calls of `read` if the file can be opened. -/
structure File where
  argv : List UInt8
  reads : Option (List (List UInt8))

/-- The argument without `user/`. -/
def stripUser (argv : List UInt8) : List UInt8 :=
  if argv.take 5 = userDir then argv.drop 5 else argv

/-- The name without a leading underscore. -/
def stripUnderscore (name : List UInt8) : List UInt8 :=
  if name.head? = some underscore then name.tail else name

/-- The name of a file in the root directory. -/
def File.shortname (f : File) : List UInt8 := stripUnderscore (stripUser f.argv)

/-- The loop that copies a file. -/
def appendReads (inum : ℕ) : List (List UInt8) → M Unit
  | [] => return
  | buf :: bufs => do
    iappend inum (fun k => buf.getD k 0) buf.length
    appendReads inum bufs

/-- The body of the loop over the arguments. -/
def addFile (rootino : ℕ) (f : File) : M Unit := do
  if slash ∈ stripUser f.argv then throw .assert
  else
    match f.reads with
    | none => throw .die
    | some reads =>
      let inum ← ialloc T_FILE
      iappend rootino (dirent inum f.shortname) DIRENT
      appendReads inum reads

/-- The loop over the arguments. -/
def addFiles (rootino : ℕ) : List File → M Unit
  | [] => return
  | f :: fs => do
    addFile rootino f
    addFiles rootino fs

/-- The superblock as it is written. -/
def sbBlock : Block :=
  ((((((((Bytes.fill BSIZE 0).setLe 0 4 0x10203040).setLe 4 4 FSSIZE).setLe 8 4 (FSSIZE - nmeta)).setLe
    12 4 NINODES).setLe 16 4 nlog).setLe 20 4 2).setLe 24 4 (2 + nlog)).setLe 28 4
      (2 + nlog + ninodeblocks)

/-- The root directory with its first two entries. -/
def makeRoot : M ℕ := do
  let rootino ← ialloc T_DIR
  if rootino ≠ ROOTINO then throw .assert
  else
    iappend rootino (dirent rootino dot) DIRENT
    iappend rootino (dirent rootino dotdot) DIRENT
    return rootino

/-- The end of `main`: the size of the root directory is rounded up, and the bitmap is written. -/
def finish (rootino : ℕ) : M Unit := do
  let din ← rinode rootino
  winode rootino { din with size := (din.size / BSIZE + 1) * BSIZE }
  balloc (← get).freeblock

/-- `main`, once the image file consists of `FSSIZE` sectors of zeros. -/
def main (files : List File) : M Unit := do
  wsect 1 sbBlock
  let rootino ← makeRoot
  addFiles rootino files
  finish rootino

/-- The image file after the loop that writes `zeroes`. -/
def blank : Img where
  disk _ := Bytes.fill BSIZE 0
  nsect := FSSIZE
  freeinode := 1
  freeblock := nmeta
  inodes := []
  written := []

/-- `mkfs` of these files: the image, if it succeeds. -/
def mkfs (files : List File) : Except Fail Img := ((main files).run blank).map Prod.snd

end Xv6.Mkfs
