import Xv6.Vm.Vm

/-!
# Page tables of processes, and `exec`

The functions of `kernel/proc.c` that make and free a process's page table, and `kernel/exec.c` with
`sys_exec`. An executable is given by its size and its bytes, as `readi` returns them; `none` stands for
a path that names no file.
-/

namespace Xv6.Process

open Lib (Bytes)
open Xv6.Vm

/-- `MAXARG`: the largest number of arguments of `exec`. -/
def MAXARG : ℕ := 32

/-- `proc_pagetable`: a page table with only the trampoline and the trapframe, or 0. -/
def procPagetable (L : Layout) (trapframe : ℕ) : M ℕ := do
  let pagetable ← uvmcreate
  if pagetable = 0 then return 0
  else if (← mappages pagetable TRAMPOLINE PGSIZE L.trampoline (PTE_R ||| PTE_X)) < 0 then
    uvmfree L pagetable 0
    return 0
  else if (← mappages pagetable TRAPFRAME PGSIZE trapframe (PTE_R ||| PTE_W)) < 0 then
    uvmunmap L pagetable TRAMPOLINE 1 false
    uvmfree L pagetable 0
    return 0
  else return pagetable

/-- `proc_freepagetable` -/
def procFreepagetable (L : Layout) (pagetable sz : ℕ) : M Unit := do
  uvmunmap L pagetable TRAMPOLINE 1 false
  uvmunmap L pagetable TRAPFRAME 1 false
  uvmfree L pagetable sz

/-! ## Files and ELF headers -/

/-- The contents of a file. -/
structure File where
  size : ℕ
  byte : ℕ → UInt8

namespace File

/-- How many bytes `readi` returns; offsets and lengths are 32-bit words. -/
def readi (f : File) (off n : ℕ) : ℕ :=
  if off > f.size ∨ off + n ≥ 2 ^ 32 then 0 else min n (f.size - off)

/-- The little-endian number of `len` bytes from `off` on. -/
def word (f : File) (off len : ℕ) : ℕ :=
  (List.range len).foldr (fun i acc => (f.byte (off + i)).toNat + 256 * acc) 0

end File

/-- `ELF_MAGIC` -/
def ELF_MAGIC : ℕ := 0x464C457F

/-- `ELF_PROG_LOAD` -/
def ELF_PROG_LOAD : ℕ := 1

/-- `struct proghdr`, without the fields that `exec` does not read. -/
structure Proghdr where
  type : ℕ
  flags : ℕ
  off : ℕ
  vaddr : ℕ
  filesz : ℕ
  memsz : ℕ

/-- The size of a program header in the file. -/
def proghdrSize : ℕ := 56

/-- The program header at `off`. -/
def File.proghdr (f : File) (off : ℕ) : Proghdr :=
  ⟨f.word off 4, f.word (off + 4) 4, f.word (off + 8) 8, f.word (off + 16) 8, f.word (off + 32) 8,
    f.word (off + 40) 8⟩

/-- `flags2perm` -/
def flags2perm (flags : ℕ) : ℕ :=
  (if flags.testBit 0 then PTE_X else 0) ||| (if flags.testBit 1 then PTE_W else 0)

/-! ## Loading -/

/-- The loop of `loadseg`, with `n` pages to load from offset `i` on. -/
def loadLoop (pagetable va : ℕ) (f : File) (offset sz : ℕ) : ℕ → ℕ → M ℤ
  | 0, _ => return 0
  | n + 1, i => do
    let pa ← walkaddr pagetable (va + i)
    if pa = 0 then throw .loadseg
    else
      let cnt := min (sz - i) PGSIZE
      let off := (offset + i) % 2 ^ 32
      writeBytes pa (f.readi off cnt) fun j => f.byte (off + j)
      if f.readi off cnt ≠ cnt then return -1
      else loadLoop pagetable va f offset sz n (i + PGSIZE)

/-- `loadseg`; its offset and size are 32-bit words. -/
def loadseg (pagetable va : ℕ) (f : File) (offset sz : ℕ) : M ℤ :=
  loadLoop pagetable va f (offset % 2 ^ 32) (sz % 2 ^ 32)
    ((sz % 2 ^ 32 + (PGSIZE - 1)) / PGSIZE) 0

/-- The checks of `exec` on a segment. -/
def Proghdr.ok (ph : Proghdr) : Bool :=
  !(ph.memsz < ph.filesz) && !((ph.vaddr + ph.memsz) % 2 ^ 64 < ph.vaddr) && ph.vaddr % PGSIZE = 0

/-- The loop of `exec` over the program headers, with `n` of them left: whether all were loaded, and
the size so far. -/
def loadSegments (L : Layout) (pagetable : ℕ) (f : File) : ℕ → ℕ → ℕ → M (Bool × ℕ)
  | 0, _, sz => return (true, sz)
  | n + 1, off, sz => do
    let ph := f.proghdr off
    if f.readi off proghdrSize ≠ proghdrSize then return (false, sz)
    else if ph.type ≠ ELF_PROG_LOAD then
      loadSegments L pagetable f n ((off + proghdrSize) % 2 ^ 32) sz
    else if !ph.ok then return (false, sz)
    else
      let sz1 ← uvmalloc L pagetable sz (ph.vaddr + ph.memsz) (flags2perm ph.flags)
      if sz1 = 0 then return (false, sz)
      else if (← loadseg pagetable ph.vaddr f ph.off ph.filesz) < 0 then return (false, sz1)
      else loadSegments L pagetable f n ((off + proghdrSize) % 2 ^ 32) sz1

/-! ## Arguments -/

/-- `strlen`, for a string that ends in its page. -/
def strlen (page : Page) : ℕ := ((List.range PGSIZE).find? fun i => page.get i = 0).getD PGSIZE

/-- Subtraction of 64-bit words. -/
def sub64 (a b : ℕ) : ℕ := (a + 2 ^ 64 - b) % 2 ^ 64

/-- `sp - n`, rounded down to a multiple of 16. -/
def pushDown (sp n : ℕ) : ℕ := sub64 sp n - sub64 sp n % 16

/-- The bytes of an array of 64-bit words. -/
def wordBytes (ws : List ℕ) (i : ℕ) : UInt8 := Bytes.leByte (ws.getD (i / 8) 0) (i % 8)

/-- The loop of `exec` that copies the argument strings to the new stack: the stack pointer and the
addresses of the copies. -/
def pushArgs (L : Layout) (pagetable stackbase : ℕ) :
    List ℕ → ℕ → List ℕ → M (Option (ℕ × List ℕ))
  | [], sp, ustack => return some (sp, ustack)
  | arg :: argv, sp, ustack => do
    if ustack.length ≥ MAXARG then return none
    else
      let page := (← get).mem (arg / PGSIZE)
      let sp := pushDown sp (strlen page + 1)
      if sp < stackbase then return none
      else if (← copyout L pagetable sp page.get (strlen page + 1)) < 0 then return none
      else pushArgs L pagetable stackbase argv sp (ustack ++ [sp])

/-! ## `exec` -/

/-- Where `exec` stores the new registers in the trapframe. -/
def tfEpc : ℕ := 24
def tfSp : ℕ := 48
def tfA0 : ℕ := 112
def tfA1 : ℕ := 120

/-- The part of `exec` that builds the new address space in `pagetable`: the size so far, and, unless
it failed, the stack pointer and the number of arguments. -/
def buildImage (L : Layout) (pagetable : ℕ) (f : File) (argv : List ℕ) : M (ℕ × Option (ℕ × ℕ)) := do
  let (ok, sz) ← loadSegments L pagetable f (f.word 56 2) (f.word 32 8 % 2 ^ 32) 0
  if !ok then return (sz, none)
  else
    let sz := pgRoundUp sz
    let sz1 ← uvmalloc L pagetable sz (sz + 2 * PGSIZE) PTE_W
    if sz1 = 0 then return (sz, none)
    else
      uvmclear pagetable (sz1 - 2 * PGSIZE)
      match ← pushArgs L pagetable (sz1 - PGSIZE) argv sz1 [] with
      | none => return (sz1, none)
      | some (sp, ustack) =>
        let sp := pushDown sp ((ustack.length + 1) * 8)
        if sp < sz1 - PGSIZE then return (sz1, none)
        else if (← copyout L pagetable sp (wordBytes (ustack ++ [0])) ((ustack.length + 1) * 8)) < 0 then
          return (sz1, none)
        else return (sz1, some (sp, ustack.length))

/-- `exec` for a process with the given trapframe, page table and size: the return value and, if it
succeeded, the new page table and size. -/
def exec (L : Layout) (trapframe oldpagetable oldsz : ℕ) (file : Option File) (argv : List ℕ) :
    M (ℤ × ℕ × ℕ) := do
  match file with
  | none => return (-1, oldpagetable, oldsz)
  | some f =>
    if f.readi 0 64 ≠ 64 then return (-1, oldpagetable, oldsz)
    else if f.word 0 4 ≠ ELF_MAGIC then return (-1, oldpagetable, oldsz)
    else
      let pagetable ← procPagetable L trapframe
      if pagetable = 0 then return (-1, oldpagetable, oldsz)
      else
        match ← buildImage L pagetable f argv with
        | (sz, none) =>
          procFreepagetable L pagetable sz
          return (-1, oldpagetable, oldsz)
        | (sz, some (sp, argc)) =>
          store64 (trapframe + tfA1) sp
          store64 (trapframe + tfEpc) (f.word 24 8)
          store64 (trapframe + tfSp) sp
          procFreepagetable L oldpagetable oldsz
          return (argc, pagetable, sz)

/-- `fetchaddr`: the word at user address `addr`. -/
def fetchaddr (pagetable sz addr : ℕ) : M (Option ℕ) := do
  if addr ≥ sz ∨ (addr + 8) % 2 ^ 64 > sz then return none
  else
    let r ← copyin pagetable addr 8
    if r.1 ≠ 0 then return none
    else return some (r.2.foldr (fun b acc => b.toNat + 256 * acc) 0)

/-- Free the pages of the arguments. -/
def freeArgs (L : Layout) : List ℕ → M Unit
  | [] => return
  | a :: argv => do
    kfree L a
    freeArgs L argv

/-- The loop of `sys_exec` that reads the arguments into pages, with `n` slots of the array left:
whether it succeeded, and the pages. -/
def fetchArgs (pagetable sz : ℕ) : ℕ → ℕ → List ℕ → M (Bool × List ℕ)
  | 0, _, argv => return (false, argv)
  | n + 1, uargv, argv => do
    match ← fetchaddr pagetable sz uargv with
    | none => return (false, argv)
    | some uarg =>
      if uarg = 0 then return (true, argv)
      else
        let page ← kalloc
        if page = 0 then return (false, argv)
        else
          let r ← copyinstr pagetable uarg PGSIZE
          writeBytes page r.2.length fun i => r.2.getD i 0
          if r.1 < 0 then return (false, argv ++ [page])
          else fetchArgs pagetable sz n ((uargv + 8) % 2 ^ 64) (argv ++ [page])

/-- `sys_exec`, after its path argument has been read. -/
def sysExec (L : Layout) (trapframe pagetable sz : ℕ) (file : Option File) (uargv : ℕ) :
    M (ℤ × ℕ × ℕ) := do
  match ← fetchArgs pagetable sz MAXARG uargv [] with
  | (true, argv) =>
    let r ← exec L trapframe pagetable sz file argv
    freeArgs L argv
    return r
  | (false, argv) =>
    freeArgs L argv
    return (-1, pagetable, sz)

end Xv6.Process
