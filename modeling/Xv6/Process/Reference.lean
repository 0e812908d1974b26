import Xv6.Process.Kernel
import Xv6.Process.RefExec

/-!
# The reference system

The processes as they would be if each had memory of its own: `fork` gives the child a copy of the
parent's image, and no page is ever shared. There is no physical memory here and no page table, and no
event fails for want of memory.
-/

namespace Xv6.Process.Ref

open Lib (Bytes)
open Xv6.Vm

/-- A process with its memory. -/
@[ext]
structure Proc where
  state : ProcState
  pid : ℕ
  parent : Option (Fin NPROC)
  xstate : ℕ
  sz : ℕ
  image : Image

/-- A place of the process table that is not in use. -/
def Proc.empty : Proc := ⟨.unused, 0, none, 0, 0, .empty⟩

/-- The processes. -/
@[ext]
structure System where
  proc : Fin NPROC → Proc
  initproc : Option (Fin NPROC)
  nextpid : ℕ

namespace System

/-- The system before the first process. -/
def boot : System := ⟨fun _ => .empty, none, 1⟩

/-- Replace a process. -/
def setProc (r : System) (i : Fin NPROC) (p : Proc) : System :=
  { r with proc := Function.update r.proc i p }

/-- Replace the memory of a process. -/
def setImage (r : System) (i : Fin NPROC) (img : Image) : System :=
  r.setProc i { r.proc i with image := img }

/-- The first process that satisfies a test. -/
def find (r : System) (test : Proc → Bool) : Option (Fin NPROC) :=
  (List.finRange NPROC).find? fun i => test (r.proc i)

/-- The memory of the first process: one page, with `initcode`. -/
def initImage : Image :=
  Function.update Image.empty 0 (some ⟨(Bytes.fill PGSIZE 0).splice 0 initcode.length
    fun j => initcode.getD j 0, true, true, true⟩)

/-- `userinit` -/
def userinit (r : System) : System :=
  match r.find fun p => p.state = .unused with
  | none => r
  | some i =>
    { r.setProc i ⟨.runnable, r.nextpid, none, 0, PGSIZE, initImage⟩ with
      initproc := some i, nextpid := r.nextpid + 1 }

/-- The child's memory is a copy of the parent's. -/
def fork (r : System) (i : Fin NPROC) : System :=
  match r.find fun p => p.state = .unused with
  | none => r
  | some np =>
    { r.setProc np ⟨.runnable, r.nextpid, some i, 0, (r.proc i).sz, (r.proc i).image⟩ with
      nextpid := r.nextpid + 1 }

/-- `growproc`. -/
def growproc (r : System) (i : Fin NPROC) (n : ℤ) : System :=
  let p := r.proc i
  let newsz := ((p.sz + n) % 2 ^ 64).toNat
  if n > 0 then
    let sz := max p.sz newsz
    r.setProc i { p with sz := sz, image := p.image.grow (npages p.sz) (npages sz) PTE_W }
  else if n < 0 then
    let sz := min p.sz newsz
    r.setProc i { p with sz := sz, image := p.image.truncate (npages sz) }
  else r

/-- The system call `exec`. -/
def execve (r : System) (i : Fin NPROC) (file : Option File) (uargv : ℕ) : System :=
  let p := r.proc i
  let new := (sysExec p.image p.sz file uargv).getD (p.sz, p.image)
  r.setProc i { p with sz := new.1, image := new.2 }

/-- The process becomes a zombie with the status. -/
def exit (r : System) (i : Fin NPROC) (status : ℕ) : System :=
  let r := { r with
    proc := fun j => if (r.proc j).parent = some i then { r.proc j with parent := r.initproc }
      else r.proc j }
  r.setProc i { r.proc i with xstate := status, state := .zombie }

/-- `wait`, for a process that has a child which has exited; otherwise it sleeps or returns −1. -/
def wait (r : System) (i : Fin NPROC) (addr : ℕ) : System :=
  match r.find fun p => p.parent = some i ∧ p.state = .zombie with
  | none => r
  | some j =>
    let o := if addr ≠ 0 then
      (r.proc i).image.copyout 4 addr (Bytes.leByte (r.proc j).xstate) 4 else (0, (r.proc i).image)
    if o.1 < 0 then r.setImage i o.2 else (r.setImage i o.2).setProc j .empty

/-- The process stores a byte, or is killed. -/
def store (r : System) (i : Fin NPROC) (va : ℕ) (b : UInt8) : System :=
  match (r.proc i).image.store va b with
  | some img => r.setImage i img
  | none => r.exit i (2 ^ 32 - 1)

/-- What an event does. -/
def step (r : System) : Event → System
  | .userinit => r.userinit
  | .fork i => r.fork i
  | .growproc i n => r.growproc i n
  | .exec i file uargv => r.execve i file uargv
  | .exit i status => r.exit i status
  | .wait i addr => r.wait i addr
  | .store i va b => r.store i va b
  | .copyout i dstva src len => r.setImage i ((r.proc i).image.copyout len dstva src len).2
  | .kvminit | .virtioDiskInit | .kalloc | .kfree _ | .load _ _ | .copyin _ _ _ | .pipealloc
  | .pipeclose _ _ => r

/-- The system after a list of events. -/
def run (es : List Event) : System := es.foldl step boot

end System

end Xv6.Process.Ref
