import Xv6.Fs.Dir
import Xv6.Lib.Tally

/-!
# Open files and pipes

The file table of `kernel/file.c`, the pipes of `kernel/pipe.c` and the system calls of
`kernel/sysfile.c` that use them, with the parts of `fork` and `exit` that copy and drop a process's
open files and current directory. Each system call is one step. What a call finds in user memory and
whether memory can be allocated are arguments of its event.
-/

namespace Xv6.Files

open Function
open Fs (Ino F T_DIR T_FILE T_DEVICE)

/-- `NOFILE`: open files per process. -/
def NOFILE : ℕ := 16

/-- `NFILE`: open files per system. -/
def NFILE : ℕ := 100

/-- `NDEV`: the number of major devices. -/
def NDEV : ℕ := 10

/-- An index into `ftable.file`. -/
abbrev Fid : Type := Fin NFILE

/-- A file descriptor. -/
abbrev Fd : Type := Fin NOFILE

/-- A place of the process table. -/
abbrev Pid : Type := Fin NPROC

/-- The types of `struct file`. -/
inductive FileType
  | none
  | pipe
  | inode
  | device
  deriving DecidableEq

/-- `struct file`. A pipe is known by the address of its page. -/
structure File where
  type : FileType
  ref : ℕ
  readable : Bool
  writable : Bool
  pipe : ℕ
  ip : Ino
  off : ℕ
  major : ℕ

/-- `struct pipe`, without its contents. -/
structure Pipe where
  readopen : Bool
  writeopen : Bool

/-- What a place of the process table is: free, in use, or exited. -/
inductive Life
  | unused
  | live
  | zombie
  deriving DecidableEq

/-- The open files and the current directory of a process. -/
structure Proc where
  life : Life
  ofile : Fd → Option Fid
  cwd : Option Ino

/-- The state. `allocs` and `frees` count how often a page has become a pipe and stopped being one. -/
structure World where
  fs : Fs.State
  file : Fid → File
  pipe : ℕ → Option Pipe
  proc : Pid → Proc
  initproc : Pid
  allocs : ℕ → ℕ
  frees : ℕ → ℕ

/-- The panics; `pipe` is a pipe that is used after its page has been freed, and `cwd` a null current
directory. -/
inductive Panic
  | fs (e : Fs.Panic)
  | filedup
  | fileclose
  | pipe
  | cwd
  | initExiting

/-- Code of system calls. -/
abbrev W : Type → Type := StateT World (Except Panic)

/-- Code of the file system. -/
def fs {α : Type} (x : F α) : W α := fun w =>
  match x.run w.fs with
  | .ok (a, s) => .ok (a, { w with fs := s })
  | .error e => .error (.fs e)

/-- Update a file. -/
def setFile (f : Fid) (u : File → File) : W Unit :=
  modify fun w => { w with file := update w.file f (u (w.file f)) }

/-- Update a process. -/
def setProc (p : Pid) (u : Proc → Proc) : W Unit :=
  modify fun w => { w with proc := update w.proc p (u (w.proc p)) }

/-- `p->ofile[fd] = o` -/
def setFd (p : Pid) (fd : Fd) (o : Option Fid) : W Unit :=
  setProc p fun pr => { pr with ofile := update pr.ofile fd o }

/-! ## Files -/

/-- `filealloc` -/
def filealloc : W (Option Fid) := do
  let w ← get
  match (List.finRange NFILE).find? fun f => (w.file f).ref = 0 with
  | none => return none
  | some f =>
    setFile f fun x => { x with ref := 1 }
    return some f

/-- `filedup` -/
def filedup (f : Fid) : W Unit := do
  if ((← get).file f).ref < 1 then throw .filedup
  else setFile f fun x => { x with ref := x.ref + 1 }

/-- `pipeclose` -/
def pipeclose (a : ℕ) (writable : Bool) : W Unit := do
  match (← get).pipe a with
  | none => throw .pipe
  | some pi =>
    let pi := if writable then { pi with writeopen := false } else { pi with readopen := false }
    if pi.readopen = false ∧ pi.writeopen = false then
      modify fun w => { w with
        pipe := update w.pipe a none
        frees := update w.frees a (w.frees a + 1) }
    else modify fun w => { w with pipe := update w.pipe a (some pi) }

/-- `fileclose` -/
def fileclose (f : Fid) : W Unit := do
  let ff := (← get).file f
  if ff.ref < 1 then throw .fileclose
  else if ff.ref - 1 > 0 then setFile f fun x => { x with ref := x.ref - 1 }
  else
    setFile f fun x => { x with ref := 0, type := .none }
    if ff.type = .pipe then pipeclose ff.pipe ff.writable
    else if ff.type = .inode ∨ ff.type = .device then fs (Fs.iput ff.ip)

/-- The `bad` label of `pipealloc`. -/
def pipeallocBad (f0 f1 : Option Fid) : W (Option (Fid × Fid)) := do
  match f0 with
  | some f => fileclose f
  | none => pure ()
  match f1 with
  | some f => fileclose f
  | none => pure ()
  return none

/-- The two ends of the new pipe in page `a`. -/
def pipeEnds (f0 f1 : Fid) (a : ℕ) : W Unit := do
  modify fun w => { w with
    pipe := update w.pipe a (some ⟨true, true⟩)
    allocs := update w.allocs a (w.allocs a + 1) }
  setFile f0 fun x => { x with type := .pipe, readable := true, writable := false, pipe := a }
  setFile f1 fun x => { x with type := .pipe, readable := false, writable := true, pipe := a }

/-- `pipealloc`; `page` is what `kalloc` returns. -/
def pipealloc (page : Option ℕ) : W (Option (Fid × Fid)) := do
  match ← filealloc with
  | none => pipeallocBad none none
  | some f0 =>
    match ← filealloc with
    | none => pipeallocBad (some f0) none
    | some f1 =>
      match page with
      | none => pipeallocBad (some f0) (some f1)
      | some a =>
        pipeEnds f0 f1 a
        return some (f0, f1)

/-! ## System calls -/

/-- `argfd`: the descriptor and its file. -/
def argfd (p : Pid) (fd : ℤ) : W (Option (Fd × Fid)) := do
  let w ← get
  if h : 0 ≤ fd ∧ fd < NOFILE then
    let n : Fd := ⟨fd.toNat, by omega⟩
    return ((w.proc p).ofile n).map fun f => (n, f)
  else return none

/-- `fdalloc` -/
def fdalloc (p : Pid) (f : Fid) : W (Option Fd) := do
  let w ← get
  match (List.finRange NOFILE).find? fun fd => ((w.proc p).ofile fd).isNone with
  | none => return none
  | some fd =>
    setFd p fd (some f)
    return some fd

/-- `myproc()->cwd` -/
def getCwd (p : Pid) : W Ino := do
  match ((← get).proc p).cwd with
  | some ip => return ip
  | none => throw .cwd

/-- `sys_dup` -/
def sysDup (p : Pid) (fd : ℤ) : W ℤ := do
  match ← argfd p fd with
  | none => return -1
  | some (_, f) =>
    match ← fdalloc p f with
    | none => return -1
    | some fd =>
      filedup f
      return fd

/-- `sys_close` -/
def sysClose (p : Pid) (fd : ℤ) : W ℤ := do
  match ← argfd p fd with
  | none => return -1
  | some (fd, f) =>
    setFd p fd none
    fileclose f
    return 0

/-- `omode & flag` -/
def hasMode (omode flag : ℕ) : Bool := omode &&& flag != 0

/-- `sys_open` finds a file that is there: the inode, locked, or nothing. -/
def openExisting (cwd : Ino) (path : List UInt8) (omode : ℕ) : F (Option Ino) := do
  match ← Fs.namei cwd path with
  | none => return none
  | some ip =>
    Fs.ilock ip
    if ((← get).inode ip).type = T_DIR ∧ omode ≠ 0 then
      Fs.iunlockput ip
      return none
    else return some ip

/-- `sys_open` creates or finds the file. -/
def openFind (cwd : Ino) (path : List UInt8) (omode : ℕ) : F (Option Ino) :=
  if hasMode omode O_CREATE then Fs.create cwd path T_FILE 0 0 else openExisting cwd path omode

/-- The first half of `sys_open`: the inode, locked, or nothing. -/
def openInode (cwd : Ino) (path : List UInt8) (omode : ℕ) : F (Option Ino) := do
  match ← openFind cwd path omode with
  | none => return none
  | some ip =>
    let i := (← get).inode ip
    -- `major` is a signed number
    if i.type = T_DEVICE ∧ (2 ^ 15 ≤ i.major ∨ NDEV ≤ i.major) then
      Fs.iunlockput ip
      return none
    else return some ip

/-- The file of `sys_open` for inode `ip` of type `type`. -/
def openedFile (x : File) (ip : Ino) (type major omode : ℕ) : File :=
  { x with
    type := if type = T_DEVICE then .device else .inode
    major := if type = T_DEVICE then major else x.major
    off := if type = T_DEVICE then x.off else 0
    ip := ip
    readable := !hasMode omode O_WRONLY
    writable := hasMode omode O_WRONLY || hasMode omode O_RDWR }

/-- `O_TRUNC`, and the end of `sys_open` with the inode. -/
def openTrunc (ip : Ino) (omode : ℕ) : F Unit := do
  if hasMode omode O_TRUNC ∧ ((← get).inode ip).type = T_FILE then
    Fs.itrunc ip
    Fs.iunlock ip
  else Fs.iunlock ip

/-- The second half of `sys_open`, with inode `ip` locked. -/
def openFile (p : Pid) (ip : Ino) (omode : ℕ) : W ℤ := do
  match ← filealloc with
  | none =>
    fs (Fs.iunlockput ip)
    return -1
  | some f =>
    match ← fdalloc p f with
    | none =>
      fileclose f
      fs (Fs.iunlockput ip)
      return -1
    | some fd =>
      let i := (← get).fs.inode ip
      setFile f fun x => openedFile x ip i.type i.major omode
      fs (openTrunc ip omode)
      return fd

/-- `sys_open`; `path` is what `argstr` finds. -/
def sysOpen (p : Pid) (path : Option (List UInt8)) (omode : ℕ) : W ℤ := do
  match path with
  | none => return -1
  | some path =>
    let cwd ← getCwd p
    match ← fs (openInode cwd path omode) with
    | none => return -1
    | some ip => openFile p ip omode

/-- `p->ofile[fd] = 0` for the descriptors that `sys_pipe` has taken. -/
def clearFds (p : Pid) : List Fd → W Unit
  | [] => return
  | fd :: fds => do
    setFd p fd none
    clearFds p fds

/-- `sys_pipe` gives up: the descriptors are cleared and the files closed. -/
def pipeBad (p : Pid) (fds : List Fd) (rf wf : Fid) : W ℤ := do
  clearFds p fds
  fileclose rf
  fileclose wf
  return -1

/-- `sys_pipe`; `copied` says whether both descriptors can be copied out. -/
def sysPipe (p : Pid) (page : Option ℕ) (copied : Bool) : W ℤ := do
  match ← pipealloc page with
  | none => return -1
  | some (rf, wf) =>
    match ← fdalloc p rf with
    | none => pipeBad p [] rf wf
    | some fd0 =>
      match ← fdalloc p wf with
      | none => pipeBad p [fd0] rf wf
      | some fd1 => if copied then return 0 else pipeBad p [fd0, fd1] rf wf

/-- The loop of `fork` over the open files. -/
def dupFiles (p np : Pid) : List Fd → W Unit
  | [] => return
  | fd :: fds => do
    match ((← get).proc p).ofile fd with
    | some f =>
      filedup f
      setFd np fd (some f)
    | none => pure ()
    dupFiles p np fds

/-- `fork`; `memory` says whether `allocproc` and `uvmcopy` find the memory they need. -/
def fork (p : Pid) (memory : Bool) : W ℤ := do
  let w ← get
  match (List.finRange NPROC).find? fun q => (w.proc q).life = .unused with
  | none => return -1
  | some np =>
    if !memory then return -1
    else
      dupFiles p np (List.finRange NOFILE)
      let cwd ← getCwd p
      let ip ← fs (Fs.idup cwd)
      setProc np fun pr => { pr with cwd := some ip, life := .live }
      return 0

/-- The loop of `exit` over the open files. -/
def closeFiles (p : Pid) : List Fd → W Unit
  | [] => return
  | fd :: fds => do
    match ((← get).proc p).ofile fd with
    | some f =>
      fileclose f
      setFd p fd none
    | none => pure ()
    closeFiles p fds

/-- `exit`, up to the point where the process is a zombie. -/
def exit (p : Pid) : W Unit := do
  if p = (← get).initproc then throw .initExiting
  else
    closeFiles p (List.finRange NOFILE)
    let cwd ← getCwd p
    fs (Fs.iput cwd)
    setProc p fun pr => { pr with cwd := none, life := .zombie }

/-- `sys_chdir` -/
def sysChdir (p : Pid) (path : Option (List UInt8)) : W ℤ := do
  match path with
  | none => return -1
  | some path =>
    let cwd ← getCwd p
    match ← fs (Fs.chdir cwd path) with
    | none => return -1
    | some ip =>
      setProc p fun pr => { pr with cwd := some ip }
      return 0

/-- A system call that works on inodes only, on the path that `argstr` finds. -/
def inodeCall (p : Pid) (path : Option (List UInt8)) (x : Ino → List UInt8 → F ℤ) : W ℤ := do
  match path with
  | none => return -1
  | some path =>
    let cwd ← getCwd p
    fs (x cwd path)

/-- `sys_link` -/
def sysLink (p : Pid) (old new : Option (List UInt8)) : W ℤ :=
  match new with
  | none => return -1
  | some new => inodeCall p old fun cwd old => Fs.link cwd old new

/-- `sys_unlink` -/
def sysUnlink (p : Pid) (path : Option (List UInt8)) : W ℤ := inodeCall p path Fs.unlink

/-- `sys_mkdir` -/
def sysMkdir (p : Pid) (path : Option (List UInt8)) : W ℤ :=
  inodeCall p path fun cwd path => Fs.mknode cwd path T_DIR 0 0

/-- `sys_mknod` -/
def sysMknod (p : Pid) (path : Option (List UInt8)) (major minor : ℕ) : W ℤ :=
  inodeCall p path fun cwd path => Fs.mknode cwd path T_DEVICE major minor

/-- `sys_exec` -/
def sysExec (p : Pid) (path : Option (List UInt8)) (reads : List (ℕ × ℕ)) (bad late : Bool) : W ℤ :=
  inodeCall p path fun cwd path => Fs.exec cwd path reads bad late

/-- The system calls of process `p`. A path is `none` where `argstr` fails. -/
inductive Event
  | open (p : Pid) (path : Option (List UInt8)) (omode : ℕ)
  | dup (p : Pid) (fd : ℤ)
  | close (p : Pid) (fd : ℤ)
  | pipe (p : Pid) (page : Option ℕ) (copied : Bool)
  | link (p : Pid) (old new : Option (List UInt8))
  | unlink (p : Pid) (path : Option (List UInt8))
  | mkdir (p : Pid) (path : Option (List UInt8))
  | mknod (p : Pid) (path : Option (List UInt8)) (major minor : ℕ)
  | chdir (p : Pid) (path : Option (List UInt8))
  | exec (p : Pid) (path : Option (List UInt8)) (reads : List (ℕ × ℕ)) (bad late : Bool)
  | fork (p : Pid) (memory : Bool)
  | exit (p : Pid)
  /-- `wait` frees the place of a child `q` -/
  | wait (p q : Pid)

/-- The process that calls. -/
def Event.caller : Event → Pid
  | .open p _ _ | .dup p _ | .close p _ | .pipe p _ _ | .link p _ _ | .unlink p _ | .mkdir p _
  | .mknod p _ _ _ | .chdir p _ | .exec p _ _ _ _ | .fork p _ | .exit p | .wait p _ => p

/-- The caller is a live process, `kalloc` returns no page that is in use, and `wait` frees places of
processes that have exited. -/
def Event.enabled (e : Event) (w : World) : Bool :=
  (w.proc e.caller).life = .live &&
    match e with
    | .pipe _ (some a) _ => (w.pipe a).isNone
    | .wait _ q => (w.proc q).life = .zombie
    | _ => true

/-- The code of a system call. -/
def Event.code : Event → W Unit
  | .open p path omode => discard (sysOpen p path omode)
  | .dup p fd => discard (sysDup p fd)
  | .close p fd => discard (sysClose p fd)
  | .pipe p page copied => discard (sysPipe p page copied)
  | .link p old new => discard (sysLink p old new)
  | .unlink p path => discard (sysUnlink p path)
  | .mkdir p path => discard (sysMkdir p path)
  | .mknod p path major minor => discard (sysMknod p path major minor)
  | .chdir p path => discard (sysChdir p path)
  | .exec p path reads bad late => discard (sysExec p path reads bad late)
  | .fork p memory => discard (Files.fork p memory)
  | .exit p => Files.exit p
  | .wait _ q => setProc q fun pr => { pr with life := .unused }

/-- The state after `userinit`, on disk `d`: the first process has the root directory as its current
directory. -/
def World.boot (sb : Fs.Superblock) (d : Disk) (init : Pid) : World where
  fs := ⟨sb, d, update (fun _ => ⟨0, 0, 0, false, false, 0, 0, 0, 0, 0, fun _ => 0⟩)
    ⟨0, by decide⟩ ⟨ROOTDEV, Fs.ROOTINO, 1, false, false, 0, 0, 0, 0, 0, fun _ => 0⟩⟩
  file := fun _ => ⟨.none, 0, false, false, 0, ⟨0, by decide⟩, 0, 0⟩
  pipe := fun _ => none
  proc := update (fun _ => ⟨.unused, fun _ => none, none⟩) init
    ⟨.live, fun _ => none, some ⟨0, by decide⟩⟩
  initproc := init
  allocs := fun _ => 0
  frees := fun _ => 0

/-- A step: the system call returns. -/
def Step (w : World) (e : Event) (w' : World) : Prop :=
  e.enabled w = true ∧ e.code.run w = .ok (⟨⟩, w')

end Xv6.Files
