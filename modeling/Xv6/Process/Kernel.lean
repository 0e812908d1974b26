import Xv6.Lib.Run
import Xv6.Param
import Xv6.Process.Exec

/-!
# Processes

The process table of `kernel/proc.c` and the owners of physical pages outside it: the kernel's page
table, the virtio queue, the pipes, and pages that other kernel code holds. An `Event` is a system
call, a user access or a step of the boot; each is one step of the system.
-/

namespace Xv6.Process

open Lib (Bytes)
open Xv6.Vm

/-- `enum procstate`. The states of a process that is neither new nor dead differ only for the
scheduler. -/
inductive ProcState
  | unused
  | used
  | runnable
  | zombie
  deriving DecidableEq

/-- `struct proc`, without what only the scheduler and the file system use. -/
structure Proc where
  state : ProcState
  pid : ℕ
  parent : Option (Fin NPROC)
  xstate : ℕ
  sz : ℕ
  pagetable : ℕ
  trapframe : ℕ

/-- A process that is not in use, as `freeproc` leaves it. -/
def Proc.empty : Proc := ⟨.unused, 0, none, 0, 0, 0, 0⟩

/-- A pipe: its page, and which ends are open. -/
structure Pipe where
  page : ℕ
  readopen : Bool
  writeopen : Bool

/-- The kernel: physical memory, the process table, and who else holds pages. -/
structure Kernel where
  phys : Phys
  proc : Fin NPROC → Proc
  initproc : Option (Fin NPROC)
  nextpid : ℕ
  kernelPagetable : ℕ
  disk : List ℕ
  pipes : List Pipe
  held : List ℕ

/-- Kernel code. -/
abbrev K : Type → Type := StateT Kernel (Except Panic)

/-- Code that only uses physical memory. -/
def vm {α : Type} (x : M α) : K α := Lib.zoom Kernel.phys (fun k s => { k with phys := s }) x

/-- Update a process. -/
def setProc (i : Fin NPROC) (u : Proc → Proc) : K Unit :=
  modify fun k => { k with proc := Function.update k.proc i (u (k.proc i)) }

/-! ## The boot -/

/-- `UART0` -/
def UART0 : ℕ := 0x10000000

/-- `VIRTIO0` -/
def VIRTIO0 : ℕ := 0x10001000

/-- `PLIC` -/
def PLIC : ℕ := 0x0c000000

/-- `KSTACK(p)` -/
def kstack (i : ℕ) : ℕ := TRAMPOLINE - (i + 1) * 2 * PGSIZE

/-- `kvmmap` -/
def kvmmap (kpgtbl va pa sz perm : ℕ) : M Unit := do
  if (← mappages kpgtbl va sz pa perm) ≠ 0 then throw .kvmmap

/-- `proc_mapstacks`, for the last `n` processes. -/
def procMapstacks (kpgtbl : ℕ) : ℕ → M Unit
  | 0 => return
  | n + 1 => do
    let pa ← kalloc
    if pa = 0 then throw .mapstacks
    else
      kvmmap kpgtbl (kstack (NPROC - (n + 1))) pa PGSIZE (PTE_R ||| PTE_W)
      procMapstacks kpgtbl n

/-- `kvmmake`. The result of its `kalloc` is not checked. -/
def kvmmake (L : Layout) : M ℕ := do
  let kpgtbl ← kalloc
  if kpgtbl = 0 then throw .null
  else
    memset kpgtbl 0
    kvmmap kpgtbl UART0 UART0 PGSIZE (PTE_R ||| PTE_W)
    kvmmap kpgtbl VIRTIO0 VIRTIO0 PGSIZE (PTE_R ||| PTE_W)
    kvmmap kpgtbl PLIC PLIC 0x400000 (PTE_R ||| PTE_W)
    kvmmap kpgtbl KERNBASE KERNBASE (L.etext - KERNBASE) (PTE_R ||| PTE_X)
    kvmmap kpgtbl L.etext L.etext (PHYSTOP - L.etext) (PTE_R ||| PTE_W)
    kvmmap kpgtbl TRAMPOLINE L.trampoline PGSIZE (PTE_R ||| PTE_X)
    procMapstacks kpgtbl NPROC
    return kpgtbl

/-- `kvminit` -/
def kvminit (L : Layout) : K Unit := do
  let kpgtbl ← vm (kvmmake L)
  modify fun k => { k with kernelPagetable := kpgtbl }

/-- The allocations of `virtio_disk_init`. -/
def virtioDiskInit : K Unit := do
  let desc ← vm kalloc
  let avail ← vm kalloc
  let used ← vm kalloc
  if desc = 0 ∨ avail = 0 ∨ used = 0 then throw .virtio
  else
    vm (memset desc 0)
    vm (memset avail 0)
    vm (memset used 0)
    modify fun k => { k with disk := [desc, avail, used] }

/-! ## Processes -/

/-- `freeproc` -/
def freeproc (L : Layout) (i : Fin NPROC) : K Unit := do
  let p := (← get).proc i
  if p.trapframe ≠ 0 then vm (kfree L p.trapframe)
  if p.pagetable ≠ 0 then vm (procFreepagetable L p.pagetable p.sz)
  setProc i fun _ => Proc.empty

/-- The first process that satisfies a test, in the order of the table. -/
def findProc (k : Kernel) (test : Proc → Bool) : Option (Fin NPROC) :=
  (List.finRange NPROC).find? fun i => test (k.proc i)

/-- `allocproc` -/
def allocproc (L : Layout) : K (Option (Fin NPROC)) := do
  match findProc (← get) fun p => p.state = .unused with
  | none => return none
  | some i =>
    let pid := (← get).nextpid
    modify fun k => { k with nextpid := k.nextpid + 1 }
    setProc i fun p => { p with pid := pid, state := .used }
    let trapframe ← vm kalloc
    setProc i fun p => { p with trapframe := trapframe }
    if trapframe = 0 then
      freeproc L i
      return none
    else
      let pagetable ← vm (procPagetable L trapframe)
      setProc i fun p => { p with pagetable := pagetable }
      if pagetable = 0 then
        freeproc L i
        return none
      else return some i

/-- `initcode` -/
def initcode : List UInt8 :=
  [0x17, 0x05, 0x00, 0x00, 0x13, 0x05, 0x45, 0x02, 0x97, 0x05, 0x00, 0x00, 0x93, 0x85, 0x35, 0x02,
    0x93, 0x08, 0x70, 0x00, 0x73, 0x00, 0x00, 0x00, 0x93, 0x08, 0x20, 0x00, 0x73, 0x00, 0x00, 0x00,
    0xef, 0xf0, 0x9f, 0xff, 0x2f, 0x69, 0x6e, 0x69, 0x74, 0x00, 0x00, 0x24, 0x00, 0x00, 0x00, 0x00,
    0x00, 0x00, 0x00, 0x00]

/-- `userinit`. The result of `allocproc` is not checked. -/
def userinit (L : Layout) : K Unit := do
  match ← allocproc L with
  | none => throw .null
  | some i =>
    modify fun k => { k with initproc := some i }
    let p := (← get).proc i
    vm (uvmfirst p.pagetable (fun j => initcode.getD j 0) initcode.length)
    vm (store64 (p.trapframe + tfEpc) 0)
    vm (store64 (p.trapframe + tfSp) PGSIZE)
    setProc i fun p => { p with sz := PGSIZE, state := .runnable }

/-- `growproc`. -/
def growproc (L : Layout) (i : Fin NPROC) (n : ℤ) : K ℤ := do
  let p := (← get).proc i
  let newsz := ((p.sz + n) % 2 ^ 64).toNat
  if n > 0 then
    let sz ← vm (uvmalloc L p.pagetable p.sz newsz PTE_W)
    if sz = 0 then return -1
    else
      setProc i fun p => { p with sz := sz }
      return 0
  else if n < 0 then
    let sz ← vm (uvmdealloc L p.pagetable p.sz newsz)
    setProc i fun p => { p with sz := sz }
    return 0
  else return 0

/-- `fork` -/
def fork (L : Layout) (i : Fin NPROC) : K ℤ := do
  match ← allocproc L with
  | none => return -1
  | some np =>
    let p := (← get).proc i
    let child := (← get).proc np
    if (← vm (uvmcopy L p.pagetable child.pagetable p.sz)) < 0 then
      freeproc L np
      return -1
    else
      vm (copyPage child.trapframe p.trapframe)
      vm (store64 (child.trapframe + tfA0) 0)
      setProc np fun c => { c with sz := p.sz, parent := some i, state := .runnable }
      return child.pid

/-- `exit`, and `reparent`. -/
def exit (i : Fin NPROC) (status : ℕ) : K Unit := do
  if (← get).initproc = some i then throw .initExiting
  else
    modify fun k => { k with
      proc := fun j => if (k.proc j).parent = some i then { k.proc j with parent := k.initproc }
        else k.proc j }
    setProc i fun p => { p with xstate := status, state := .zombie }

/-- `wait`, for a process that has a child which has exited; otherwise it sleeps or returns −1. -/
def wait (L : Layout) (i : Fin NPROC) (addr : ℕ) : K ℤ := do
  match findProc (← get) fun p => p.parent = some i ∧ p.state = .zombie with
  | none => return -1
  | some j =>
    let child := (← get).proc j
    let p := (← get).proc i
    let r ← if addr ≠ 0 then vm (copyout L p.pagetable addr (Bytes.leByte child.xstate) 4) else pure 0
    if r < 0 then return -1
    else
      freeproc L j
      return child.pid

/-- The system call `exec`. -/
def execve (L : Layout) (i : Fin NPROC) (file : Option File) (uargv : ℕ) : K ℤ := do
  let p := (← get).proc i
  let r ← vm (sysExec L p.trapframe p.pagetable p.sz file uargv)
  setProc i fun p => { p with pagetable := r.2.1, sz := r.2.2 }
  return r.1

/-- A user store; a process whose store cannot be done is killed. -/
def store (L : Layout) (i : Fin NPROC) (va : ℕ) (b : UInt8) : K Unit := do
  let p := (← get).proc i
  if ← vm (userStore L p.pagetable va b 2) then return
  else exit i (2 ^ 32 - 1)

/-! ## Pipes and other pages -/

/-- The allocation of `pipealloc`. -/
def pipealloc : K ℤ := do
  let pi ← vm kalloc
  if pi = 0 then return -1
  else
    modify fun k => { k with pipes := ⟨pi, true, true⟩ :: k.pipes }
    return 0

/-- `pipeclose` of the pipe at position `n` of the list. -/
def pipeclose (L : Layout) (n : ℕ) (writable : Bool) : K Unit := do
  match (← get).pipes[n]? with
  | none => return
  | some pi =>
    let pi := if writable then { pi with writeopen := false } else { pi with readopen := false }
    if !pi.readopen && !pi.writeopen then
      modify fun k => { k with pipes := k.pipes.eraseIdx n }
      vm (kfree L pi.page)
    else modify fun k => { k with pipes := k.pipes.set n pi }

/-- A page for other kernel code. -/
def hold : K ℤ := do
  let pa ← vm kalloc
  if pa = 0 then return -1
  else
    modify fun k => { k with held := pa :: k.held }
    return 0

/-- That code frees a page it holds. -/
def drop (L : Layout) (n : ℕ) : K Unit := do
  match (← get).held[n]? with
  | none => return
  | some pa =>
    modify fun k => { k with held := k.held.eraseIdx n }
    vm (kfree L pa)

/-! ## Steps -/

/-- What can happen: a step of the boot, a system call or an access of a process, or the use of a page
by other kernel code. -/
inductive Event
  | kvminit
  | virtioDiskInit
  | userinit
  | kalloc
  | kfree (n : ℕ)
  | fork (i : Fin NPROC)
  | growproc (i : Fin NPROC) (n : ℤ)
  | exec (i : Fin NPROC) (file : Option File) (uargv : ℕ)
  | exit (i : Fin NPROC) (status : ℕ)
  | wait (i : Fin NPROC) (addr : ℕ)
  | load (i : Fin NPROC) (va : ℕ)
  | store (i : Fin NPROC) (va : ℕ) (b : UInt8)
  | copyin (i : Fin NPROC) (srcva len : ℕ)
  | copyout (i : Fin NPROC) (dstva : ℕ) (src : ℕ → UInt8) (len : ℕ)
  | pipealloc
  | pipeclose (n : ℕ) (writable : Bool)

/-- The process that acts. -/
def Event.actor : Event → Option (Fin NPROC)
  | .fork i | .growproc i _ | .exec i _ _ | .exit i _ | .wait i _ | .load i _ | .store i _ _
  | .copyin i _ _ | .copyout i _ _ _ => some i
  | _ => none

/-- Processes act while they can run, and each step of the boot is taken once. -/
def Event.enabled (e : Event) (k : Kernel) : Bool :=
  match e with
  | .kvminit => k.kernelPagetable = 0
  | .virtioDiskInit => k.disk.isEmpty
  | .userinit => k.initproc.isNone
  | _ => e.actor.all fun i => (k.proc i).state = .runnable

/-- The code of an event. -/
def Event.code (L : Layout) : Event → K Unit
  | .kvminit => Process.kvminit L
  | .virtioDiskInit => Process.virtioDiskInit
  | .userinit => Process.userinit L
  | .kalloc => discard hold
  | .kfree n => drop L n
  | .fork i => discard (Process.fork L i)
  | .growproc i n => discard (Process.growproc L i n)
  | .exec i file uargv => discard (execve L i file uargv)
  | .exit i status => Process.exit i status
  | .wait i addr => discard (Process.wait L i addr)
  | .load _ _ => return
  | .store i va b => Process.store L i va b
  | .copyin i srcva len => do
    let p := (← get).proc i
    discard (vm (Vm.copyin p.pagetable srcva len))
  | .copyout i dstva src len => do
    let p := (← get).proc i
    discard (vm (Vm.copyout L p.pagetable dstva src len))
  | .pipealloc => discard Process.pipealloc
  | .pipeclose n writable => Process.pipeclose L n writable

/-- A step: the event is enabled, and its code returns. -/
def Step (L : Layout) (k : Kernel) (e : Event) (k' : Kernel) : Prop :=
  e.enabled k = true ∧ (e.code L).run k = .ok (⟨⟩, k')

/-- The kernel before `kinit`. -/
def Kernel.reset (mem : ℕ → Page) : Kernel :=
  ⟨.reset mem, fun _ => Proc.empty, none, 1, 0, [], [], []⟩

/-- The kernel after `kinit`, if that returns. -/
def Kernel.boot (L : Layout) (mem : ℕ → Page) : Kernel :=
  match (vm (kinit L)).run (.reset mem) with
  | .ok (_, k) => k
  | .error _ => .reset mem

end Xv6.Process
