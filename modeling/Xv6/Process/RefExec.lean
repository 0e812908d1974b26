import Xv6.Process.Exec
import Xv6.Vm.Image

/-!
# `exec` on images

What `exec` means to the process: the image that the executable and the arguments determine. There is
no page table and no physical memory here, so nothing fails but what the file or the arguments make
fail. `Ref.buildImage` and the functions before it follow the loops of `kernel/exec.c`.
-/

namespace Xv6.Process

open Lib (Bytes)
open Xv6.Vm

namespace Ref

/-- Memory grows from `oldsz` to `newsz` bytes. -/
def alloc (img : Image) (oldsz newsz xperm : ℕ) : ℕ × Image :=
  (max oldsz newsz, img.grow (npages oldsz) (npages (max oldsz newsz)) xperm)

/-- The pages of a segment are read from the file: whether the file was long enough, and the image. -/
def loadLoop (va : ℕ) (elf : File) (offset sz : ℕ) : ℕ → ℕ → Image → Bool × Image
  | 0, _, img => (true, img)
  | n + 1, i, img =>
    let cnt := min (sz - i) PGSIZE
    let off := (offset + i) % 2 ^ 32
    let img := img.setBytes ((va + i) / PGSIZE) 0 (elf.readi off cnt) fun j => elf.byte (off + j)
    if elf.readi off cnt ≠ cnt then (false, img)
    else loadLoop va elf offset sz n (i + PGSIZE) img

/-- A segment of `sz` bytes is read from the file. -/
def loadseg (img : Image) (va : ℕ) (elf : File) (offset sz : ℕ) : Bool × Image :=
  loadLoop va elf (offset % 2 ^ 32) (sz % 2 ^ 32) (npages (sz % 2 ^ 32)) 0 img

/-- The segments of the executable: whether all could be loaded, the size and the image. -/
def loadSegments (elf : File) : ℕ → ℕ → ℕ → Image → Bool × ℕ × Image
  | 0, _, sz, img => (true, sz, img)
  | n + 1, off, sz, img =>
    let ph := elf.proghdr off
    if elf.readi off proghdrSize ≠ proghdrSize then (false, sz, img)
    else if ph.type ≠ ELF_PROG_LOAD then loadSegments elf n ((off + proghdrSize) % 2 ^ 32) sz img
    else if !ph.ok then (false, sz, img)
    else
      let r := alloc img sz (ph.vaddr + ph.memsz) (flags2perm ph.flags)
      if r.1 = 0 then (false, sz, img)
      else
        let l := loadseg r.2 ph.vaddr elf ph.off ph.filesz
        if !l.1 then (false, r.1, l.2)
        else loadSegments elf n ((off + proghdrSize) % 2 ^ 32) r.1 l.2

/-- The argument strings, each in a page, are pushed on the stack. -/
def pushArgs (stackbase : ℕ) : List Page → ℕ → List ℕ → Image → Option (ℕ × List ℕ × Image)
  | [], sp, ustack, img => some (sp, ustack, img)
  | page :: argv, sp, ustack, img =>
    if ustack.length ≥ MAXARG then none
    else
      let sp := pushDown sp (strlen page + 1)
      if sp < stackbase then none
      else
        let r := img.copyout (strlen page + 1) sp page.get (strlen page + 1)
        if r.1 < 0 then none else pushArgs stackbase argv sp (ustack ++ [sp]) r.2

/-- The size and the image of the new program. -/
def buildImage (elf : File) (argv : List Page) : Option (ℕ × Image) :=
  let l := loadSegments elf (elf.word 56 2) (elf.word 32 8 % 2 ^ 32) 0 .empty
  if !l.1 then none
  else
    let sz := pgRoundUp l.2.1
    let r := alloc l.2.2 sz (sz + 2 * PGSIZE) PTE_W
    let img := r.2.clearUser ((r.1 - 2 * PGSIZE) / PGSIZE)
    match pushArgs (r.1 - PGSIZE) argv r.1 [] img with
    | none => none
    | some (sp, ustack, img) =>
      let sp := pushDown sp ((ustack.length + 1) * 8)
      if sp < r.1 - PGSIZE then none
      else
        let o := img.copyout ((ustack.length + 1) * 8) sp (wordBytes (ustack ++ [0]))
          ((ustack.length + 1) * 8)
        if o.1 < 0 then none else some (r.1, o.2)

/-- `exec`: the size and the image of the new program, if there is one. -/
def exec (file : Option File) (argv : List Page) : Option (ℕ × Image) :=
  match file with
  | none => none
  | some elf =>
    if elf.readi 0 64 ≠ 64 then none
    else if elf.word 0 4 ≠ ELF_MAGIC then none
    else buildImage elf argv

/-- The word at user address `addr`. -/
def fetchaddr (img : Image) (sz addr : ℕ) : Option ℕ :=
  if addr ≥ sz ∨ (addr + 8) % 2 ^ 64 > sz then none
  else
    let r := img.copyin 8 addr 8
    if r.1 ≠ 0 then none else some (r.2.foldr (fun b acc => b.toNat + 256 * acc) 0)

/-- The kernel page in which an argument string is kept. -/
def argPage (str : List UInt8) : Page :=
  (Bytes.fill PGSIZE 5).splice 0 str.length fun i => str.getD i 0

/-- The arguments of `exec`, with `n` slots left. -/
def fetchArgs (img : Image) (sz : ℕ) : ℕ → ℕ → List Page → Option (List Page)
  | 0, _, _ => none
  | n + 1, uargv, argv =>
    match fetchaddr img sz uargv with
    | none => none
    | some uarg =>
      if uarg = 0 then some argv
      else
        let r := img.copyinstr PGSIZE uarg PGSIZE
        if r.1 < 0 then none
        else fetchArgs img sz n ((uargv + 8) % 2 ^ 64) (argv ++ [argPage r.2])

/-- The system call `exec`. -/
def sysExec (img : Image) (sz : ℕ) (file : Option File) (uargv : ℕ) : Option (ℕ × Image) :=
  match fetchArgs img sz MAXARG uargv [] with
  | none => none
  | some argv => exec file argv

end Ref

end Xv6.Process
