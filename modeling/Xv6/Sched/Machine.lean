import Xv6.Param
import Xv6.Lib.Run
import Xv6.Vm.Riscv

/-!
# Processes and CPUs

The machine of `kernel/proc.c`: any number of CPUs that run `scheduler`, and the kernel threads of the
processes, which run `yield`, `sleep`, `wakeup`, `kill`, `fork`, `exit` and `wait`. Everything else that
a process does is code that takes and drops spin locks, sleeps and wakes up others. A step is the code
between two changes of locks; a critical section that takes a single lock of a process and does not
call anything is one step. Interrupts are off on a CPU that holds a lock.
-/

namespace Xv6.Sched

open Function (update update_self update_of_ne)

/-- An index into `proc`. -/
abbrev Idx : Type := Fin NPROC

/-- A CPU. There is no bound on their number. -/
abbrev Cpu : Type := ℕ

/-- `enum procstate` -/
inductive St
  | unused
  | used
  | sleeping
  | runnable
  | running
  | zombie
  deriving DecidableEq

/-- What a process sleeps on: nothing, a place of the process table, or something else. -/
inductive Chan
  | null
  | proc (i : Idx)
  | other (n : ℕ)
  deriving DecidableEq

/-- The address of a process as a channel. -/
def Chan.ofProc : Option Idx → Chan
  | none => .null
  | some i => .proc i

/-- The spin locks other than those of the processes: `wait_lock`, and all others. -/
inductive Lk
  | wait
  | other (n : ℕ)
  deriving DecidableEq

/-- `struct proc`. A null pointer is `0`. -/
structure Slot where
  state : St
  pid : BitVec 32
  killed : Bool
  chan : Chan
  parent : Option Idx
  xstate : ℤ
  sz : ℕ
  trapframe : ℕ
  pagetable : ℕ
  deriving DecidableEq

/-- A slot after `freeproc`. -/
def Slot.free : Slot := ⟨.unused, 0, false, .null, none, 0, 0, 0, 0⟩

/-! ## Program counters -/

/-- Where the system call of a thread is. -/
inductive Sys
  /-- outside `proc.c`, with spin locks `L` held -/
  | code (L : Finset ℕ)
  /-- `allocproc` at place `i` -/
  | allocproc (i : ℕ)
  /-- `fork` with `np->lock` held -/
  | forkCopy (np : Idx)
  /-- `fork` before it takes `wait_lock` -/
  | forkParent (np : Idx)
  /-- `fork` before it takes `np->lock` again -/
  | forkRun (np : Idx)
  /-- `kill(pid)` at place `i` -/
  | kill (pid : BitVec 32) (i : ℕ)
  /-- `exit(status)` before it takes `wait_lock` -/
  | exit (status : ℤ)
  /-- `reparent` at place `i`, in `exit` -/
  | reparent (status : ℤ) (i : ℕ)
  /-- `exit` after `wakeup(p->parent)` -/
  | exitLock (status : ℤ)
  /-- `exit` with `p->lock` held -/
  | exitState (status : ℤ)
  /-- `exit` before it releases `wait_lock` -/
  | exitRelease
  /-- `exit` before `sched` -/
  | exitSched
  /-- never to return -/
  | dead
  /-- `wait(addr)` before it takes `wait_lock` -/
  | wait (addr : ℕ)
  /-- `wait(addr)` at place `i` -/
  | waitScan (addr : ℕ) (havekids : Bool) (i : ℕ)
  deriving DecidableEq

/-- Where a thread is inside `sleep`. -/
inductive SleepPc
  /-- before `acquire(&p->lock)` -/
  | lock
  /-- before `release(lk)` -/
  | unlock
  /-- before `p->chan` and `p->state` are set -/
  | set
  /-- before `sched` -/
  | sched
  /-- after `sched` -/
  | tidy
  /-- before `acquire(lk)` -/
  | relock
  deriving DecidableEq

/-- A call of `sleep(chan, lk)`. -/
inductive Call
  | none
  | sleep (pc : SleepPc) (chan : Chan) (lk : Lk)
  deriving DecidableEq

/-- A switch of contexts outside `sleep` and `exit`. -/
inductive Switch
  | none
  /-- the start of `forkret` -/
  | forkret
  /-- `yield` before `sched` -/
  | yield
  /-- `yield` after `sched` -/
  | yielded
  deriving DecidableEq

/-- The kernel thread of a process. -/
structure Thread where
  sys : Sys
  call : Call
  switch : Switch
  deriving DecidableEq

/-- A CPU: at place `i` of the loop of `scheduler`, or switched to process `p`, or back from it. -/
inductive Mode
  | scan (i : ℕ)
  | run (p : Idx)
  | back (p : Idx)
  deriving DecidableEq

/-- `struct cpu`, with the interrupt handler and the `wakeup` that the CPU executes: the locks that the
handler holds, and the channel and the place. -/
structure CpuState where
  mode : Mode
  proc : Option Idx
  irq : Option (Finset ℕ)
  wake : Option (Chan × ℕ)

/-- A successful `wait`: the process that was waited for, its parent at that time, the caller, and the
status returned. -/
structure Reap where
  child : ℕ
  parent : Option Idx
  caller : Idx
  status : ℤ
  deriving DecidableEq

/-- The state. The last five fields are a record of what has happened: every use of a slot has a number,
`exits` has the arguments of `exit`, `reaped` the successful calls of `wait`, and `named` says whether a
`kill` has found the slot since it is in use. -/
structure Machine where
  slot : Idx → Slot
  thread : Idx → Thread
  plock : Idx → Option Cpu
  lock : Lk → Option Cpu
  cpu : Cpu → CpuState
  initproc : Idx
  nextpid : BitVec 32
  use : Idx → ℕ
  uses : ℕ
  exits : ℕ → Option ℤ
  reaped : List Reap
  named : Idx → Bool

namespace Machine

variable (m : Machine)

/-- Update a slot. -/
def setSlot (j : Idx) (u : Slot → Slot) : Machine :=
  { m with slot := update m.slot j (u (m.slot j)) }

/-- The thread of a process changes. -/
def setThread (p : Idx) (t : Thread) : Machine :=
  { m with thread := update m.thread p t }

/-- The lock of a process changes. -/
def setPlock (j : Idx) (o : Option Cpu) : Machine :=
  { m with plock := update m.plock j o }

/-- Another lock changes. -/
def setLock (lk : Lk) (o : Option Cpu) : Machine :=
  { m with lock := update m.lock lk o }

/-- Update a CPU. -/
def setCpu (c : Cpu) (u : CpuState → CpuState) : Machine :=
  { m with cpu := update m.cpu c (u (m.cpu c)) }

end Machine

/-- The spin locks that a thread holds in a system call. -/
def Sys.locks : Sys → Finset Lk
  | .code L => L.image .other
  | .reparent _ _ | .exitLock _ | .exitState _ | .exitRelease | .waitScan _ _ _ => {.wait}
  | _ => ∅

/-- `sleep` has released its lock. -/
def Call.released : Call → Bool
  | .sleep .set _ _ | .sleep .sched _ _ | .sleep .tidy _ _ | .sleep .relock _ _ => true
  | _ => false

/-- The spin locks that a thread holds. -/
def Thread.held (t : Thread) : Finset Lk := if t.call.released then ∅ else t.sys.locks

/-- What a thread does with the lock of its process. -/
inductive Phase
  /-- it does not hold it -/
  | active
  /-- it holds it and has not changed its state -/
  | locked
  /-- it is about to switch, in `yield`, `sleep` or `exit` -/
  | yielding
  | drowsy
  | dying
  /-- it has switched, or is about to return from the switch -/
  | resume
  | asleep
  | dead
  deriving DecidableEq

/-- The phase of a thread that is in no other call. -/
def Sys.phase : Sys → Phase
  | .exitState _ => .locked
  | .exitRelease | .exitSched => .dying
  | .dead => .dead
  | _ => .active

/-- The phase of a thread. -/
def Thread.phase (t : Thread) : Phase :=
  match t.switch, t.call with
  | .forkret, _ | .yielded, _ => .resume
  | .yield, _ => .yielding
  | .none, .sleep .unlock _ _ | .none, .sleep .set _ _ => .locked
  | .none, .sleep .sched _ _ => .drowsy
  | .none, .sleep .tidy _ _ => .asleep
  | .none, .sleep .lock _ _ | .none, .sleep .relock _ _ => .active
  | .none, .none => t.sys.phase

/-- `fork` holds the lock of the new process. -/
def Sys.copying : Sys → Option Idx
  | .forkCopy np => some np
  | _ => none

/-- No lock is held, so that interrupts are on. -/
def Thread.interruptible (t : Thread) : Bool :=
  t.phase = .active && t.held = ∅ && t.sys.copying = none

/-- CPU `c` executes thread `t` of process `p`. -/
def Machine.Runs (m : Machine) (c : Cpu) (p : Idx) (t : Thread) : Prop :=
  (m.cpu c).mode = .run p ∧ (m.cpu c).irq = none ∧ (m.cpu c).wake = none ∧ m.thread p = t

instance (m : Machine) (c : Cpu) (p : Idx) (t : Thread) : Decidable (m.Runs c p t) :=
  inferInstanceAs (Decidable (_ ∧ _ ∧ _ ∧ _))

/-- A thread that is in no call. -/
abbrev Sys.thread (s : Sys) : Thread := ⟨s, .none, .none⟩

/-- A thread outside `proc.c`, without locks. -/
abbrev idle : Thread := Sys.thread (.code ∅)

/-! ## The scheduler -/

/-- The steps of `scheduler` on a CPU. -/
inductive SchedulerStep
  /-- `p->state == RUNNABLE`: the CPU switches to `p` -/
  | pick (p : Idx)
  /-- `p->state != RUNNABLE` -/
  | skip (p : Idx)
  /-- the end of the table -/
  | restart
  /-- after `swtch` -/
  | back (p : Idx)

/-- The CPU is in the loop of `scheduler` at place `i`. -/
def Machine.Scans (m : Machine) (c : Cpu) (i : ℕ) : Prop :=
  (m.cpu c).mode = .scan i ∧ (m.cpu c).irq = none ∧ (m.cpu c).wake = none

instance (m : Machine) (c : Cpu) (i : ℕ) : Decidable (m.Scans c i) :=
  inferInstanceAs (Decidable (_ ∧ _ ∧ _))

/-- When the scheduler can take the step. -/
def SchedulerStep.enabled (m : Machine) (c : Cpu) : SchedulerStep → Prop
  | .pick p => m.Scans c p ∧ m.plock p = none ∧ (m.slot p).state = .runnable
  | .skip p => m.Scans c p ∧ m.plock p = none ∧ (m.slot p).state ≠ .runnable
  | .restart => m.Scans c NPROC
  | .back p => (m.cpu c).mode = .back p ∧ (m.cpu c).irq = none ∧ (m.cpu c).wake = none

/-- What the step does. -/
def SchedulerStep.next (m : Machine) (c : Cpu) : SchedulerStep → Machine
  | .pick p => ((m.setPlock p (some c)).setSlot p fun s => { s with state := .running }).setCpu c
      fun x => { x with mode := .run p, proc := some p }
  | .skip p => m.setCpu c fun x => { x with mode := .scan (p + 1) }
  | .restart => m.setCpu c fun x => { x with mode := .scan 0 }
  | .back p => (m.setPlock p none).setCpu c fun x => { x with mode := .scan (p + 1), proc := none }

/-! ## Interrupts -/

/-- Interrupts are on. -/
def Machine.interruptible (m : Machine) (c : Cpu) : Bool :=
  match (m.cpu c).mode with
  | .scan _ => true
  | .run p => (m.thread p).interruptible
  | .back _ => false

/-- The steps of interrupt handlers, and of `yield` up to `sched`. -/
inductive IrqStep
  | enter
  | acquire (n : ℕ)
  | release (n : ℕ)
  /-- `wakeup(chan)`, with a lock held -/
  | wakeup (k : ℕ)
  | return
  /-- a timer interrupt: `yield`, `acquire(&p->lock)`, `p->state = RUNNABLE` -/
  | yield (p : Idx)

/-- When the handler can take the step. -/
def IrqStep.enabled (m : Machine) (c : Cpu) : IrqStep → Prop
  | .enter => m.interruptible c = true ∧ (m.cpu c).irq = none ∧ (m.cpu c).wake = none
  | .acquire n => (m.cpu c).irq ≠ none ∧ (m.cpu c).wake = none ∧ m.lock (.other n) = none
  | .release n => (∃ L ∈ (m.cpu c).irq, n ∈ L) ∧ (m.cpu c).wake = none
  | .wakeup _ => (m.cpu c).irq ≠ none ∧ (m.cpu c).irq ≠ some ∅ ∧ (m.cpu c).wake = none
  | .return => (m.cpu c).irq = some ∅ ∧ (m.cpu c).wake = none
  | .yield p => (m.cpu c).irq = some ∅ ∧ (m.cpu c).wake = none ∧ (m.cpu c).mode = .run p ∧
      m.plock p = none

/-- What the step does. -/
def IrqStep.next (m : Machine) (c : Cpu) : IrqStep → Machine
  | .enter => m.setCpu c fun x => { x with irq := some ∅ }
  | .acquire n => (m.setLock (.other n) (some c)).setCpu c fun x =>
      { x with irq := x.irq.map (insert n) }
  | .release n => (m.setLock (.other n) none).setCpu c fun x =>
      { x with irq := x.irq.map (·.erase n) }
  | .wakeup k => m.setCpu c fun x => { x with wake := some (.other k, 0) }
  | .return => m.setCpu c fun x => { x with irq := none }
  | .yield p => (((m.setPlock p (some c)).setSlot p fun s => { s with state := .runnable }).setCpu c
      fun x => { x with irq := none }).setThread p { m.thread p with switch := .yield }

/-! ## Switches -/

/-- `sched` in `yield`, and the returns of `yield` and `forkret`. -/
inductive SwitchStep
  | sched
  | yielded
  | forkret

/-- When the thread can take the step. -/
def SwitchStep.enabled (m : Machine) (c : Cpu) (p : Idx) (s : Sys) (k : Call) : SwitchStep → Prop
  | .sched => m.Runs c p ⟨s, k, .yield⟩
  | .yielded => m.Runs c p ⟨s, k, .yielded⟩
  | .forkret => m.Runs c p ⟨s, k, .forkret⟩

/-- What the step does. -/
def SwitchStep.next (m : Machine) (c : Cpu) (p : Idx) (s : Sys) (k : Call) : SwitchStep → Machine
  | .sched => (m.setCpu c fun x => { x with mode := .back p }).setThread p ⟨s, k, .yielded⟩
  | .yielded | .forkret => (m.setPlock p none).setThread p ⟨s, k, .none⟩

/-! ## Other code -/

/-- The steps of code outside `proc.c`, and the calls that it makes. -/
inductive CodeStep
  | acquire (n : ℕ)
  | release (n : ℕ)
  /-- `sleep(chan, lk)`, where `lk` is the only lock held -/
  | sleep (n k : ℕ)
  /-- `wakeup(chan)`, with a lock held -/
  | wakeup (k : ℕ)
  /-- `setkilled(p)` -/
  | setkilled
  /-- `growproc` and `exec` -/
  | grow (sz pagetable : ℕ)
  | fork
  | kill (pid : BitVec 32)
  | exit (status : ℤ)
  | wait (addr : ℕ)

/-- When the thread can take the step. -/
def CodeStep.enabled (m : Machine) (c : Cpu) (p : Idx) (L : Finset ℕ) : CodeStep → Prop
  | .acquire n => m.Runs c p (Sys.thread (.code L)) ∧ m.lock (.other n) = none
  | .release n => m.Runs c p (Sys.thread (.code L)) ∧ n ∈ L
  | .sleep n _ => m.Runs c p (Sys.thread (.code L)) ∧ L = {n}
  | .wakeup _ => m.Runs c p (Sys.thread (.code L)) ∧ L ≠ ∅
  | .setkilled => m.Runs c p (Sys.thread (.code L)) ∧ L = ∅ ∧ m.plock p = none
  | .grow _ pagetable => m.Runs c p (Sys.thread (.code L)) ∧ pagetable ≠ 0
  | .fork | .kill _ | .wait _ => m.Runs c p (Sys.thread (.code L)) ∧ L = ∅
  -- otherwise `panic("init exiting")`
  | .exit _ => m.Runs c p (Sys.thread (.code L)) ∧ L = ∅ ∧ p ≠ m.initproc

/-- What the step does. -/
def CodeStep.next (m : Machine) (c : Cpu) (p : Idx) (L : Finset ℕ) : CodeStep → Machine
  | .acquire n =>
    (m.setLock (.other n) (some c)).setThread p (Sys.thread (.code (insert n L)))
  | .release n => (m.setLock (.other n) none).setThread p (Sys.thread (.code (L.erase n)))
  | .sleep n k => m.setThread p ⟨.code L, .sleep .lock (.other k) (.other n), .none⟩
  | .wakeup k => m.setCpu c fun x => { x with wake := some (.other k, 0) }
  | .setkilled => m.setSlot p fun s => { s with killed := true }
  | .grow sz pagetable => m.setSlot p fun s => { s with sz := sz, pagetable := pagetable }
  | .fork => m.setThread p (Sys.thread (.allocproc 0))
  | .kill pid => m.setThread p (Sys.thread (.kill pid 0))
  | .exit status =>
    { m with exits := update m.exits (m.use p) (some status) }.setThread p
      (Sys.thread (.exit status))
  | .wait addr => m.setThread p (Sys.thread (.wait addr))

/-! ## `sleep` and `wakeup` -/

/-- The steps of `sleep(chan, lk)`, by where the thread is. -/
def sleepEnabled (m : Machine) (c : Cpu) (p : Idx) (s : Sys) (pc : SleepPc) (chan : Chan) (lk : Lk) :
    Prop :=
  m.Runs c p ⟨s, .sleep pc chan lk, .none⟩ ∧
    match pc with
    | .lock => m.plock p = none
    | .relock => m.lock lk = none
    | _ => True

/-- The next step of a process in `sleep`. -/
def sleepNext (m : Machine) (c : Cpu) (p : Idx) (s : Sys) (pc : SleepPc) (chan : Chan) (lk : Lk) :
    Machine :=
  match pc with
  | .lock => (m.setPlock p (some c)).setThread p ⟨s, .sleep .unlock chan lk, .none⟩
  | .unlock => (m.setLock lk none).setThread p ⟨s, .sleep .set chan lk, .none⟩
  | .set => (m.setSlot p fun x => { x with chan := chan, state := .sleeping }).setThread p
      ⟨s, .sleep .sched chan lk, .none⟩
  | .sched => (m.setCpu c fun x => { x with mode := .back p }).setThread p
      ⟨s, .sleep .tidy chan lk, .none⟩
  | .tidy => ((m.setSlot p fun x => { x with chan := .null }).setPlock p none).setThread p
      ⟨s, .sleep .relock chan lk, .none⟩
  | .relock => (m.setLock lk (some c)).setThread p (Sys.thread s)

/-- What `wakeup(chan)` does with a slot. -/
def Slot.wakeup (chan : Chan) (s : Slot) : Slot :=
  if s.state = .sleeping ∧ s.chan = chan then { s with state := .runnable } else s

/-- The steps of `wakeup(chan)`. -/
inductive WakeupStep
  | visit (i : Idx)
  /-- `p == myproc()` -/
  | skip (i : Idx)
  | return

/-- When `wakeup` can take the step. -/
def WakeupStep.enabled (m : Machine) (c : Cpu) (chan : Chan) : WakeupStep → Prop
  | .visit i => (m.cpu c).wake = some (chan, i.val) ∧ (m.cpu c).proc ≠ some i ∧ m.plock i = none
  | .skip i => (m.cpu c).wake = some (chan, i.val) ∧ (m.cpu c).proc = some i
  | .return => (m.cpu c).wake = some (chan, NPROC)

/-- What the step does. -/
def WakeupStep.next (m : Machine) (c : Cpu) (chan : Chan) : WakeupStep → Machine
  | .visit i =>
    (m.setSlot i (Slot.wakeup chan)).setCpu c fun x => { x with wake := some (chan, i + 1) }
  | .skip i => m.setCpu c fun x => { x with wake := some (chan, i + 1) }
  | .return => m.setCpu c fun x => { x with wake := none }

/-! ## `kill` -/

/-- What `kill` does with the slot that it has found. -/
def Slot.kill (s : Slot) : Slot :=
  { s with killed := true, state := if s.state = .sleeping then .runnable else s.state }

/-- The steps of `kill(pid)`. -/
inductive KillStep
  /-- `p->pid == pid`: `kill` returns `0` -/
  | hit (i : Idx)
  | miss (i : Idx)
  /-- the end of the table: `kill` returns `-1` -/
  | fail

/-- When `kill` can take the step. -/
def KillStep.enabled (m : Machine) (c : Cpu) (p : Idx) (pid : BitVec 32) : KillStep → Prop
  | .hit i => m.Runs c p (Sys.thread (.kill pid i)) ∧ m.plock i = none ∧ (m.slot i).pid = pid
  | .miss i => m.Runs c p (Sys.thread (.kill pid i)) ∧ m.plock i = none ∧ (m.slot i).pid ≠ pid
  | .fail => m.Runs c p (Sys.thread (.kill pid NPROC))

/-- What the step does. -/
def KillStep.next (m : Machine) (p : Idx) (pid : BitVec 32) : KillStep → Machine
  | .hit i =>
    { (m.setSlot i Slot.kill).setThread p idle with named := update m.named i true }
  | .miss i => m.setThread p (Sys.thread (.kill pid (i + 1)))
  | .fail => m.setThread p idle

/-! ## `fork` -/

/-- The steps of `fork` and `allocproc`. -/
inductive ForkStep
  /-- `allocproc`: `p->state == UNUSED` -/
  | found (i : Idx)
  | taken (i : Idx)
  | full
  /-- memory runs out in `allocproc` or in `uvmcopy` -/
  | fail (np : Idx)
  | copy (np : Idx) (trapframe pagetable : ℕ)
  /-- `np->parent = p` -/
  | parent (np : Idx)
  /-- `np->state = RUNNABLE` -/
  | run (np : Idx)

/-- When `fork` can take the step. -/
def ForkStep.enabled (m : Machine) (c : Cpu) (p : Idx) : ForkStep → Prop
  | .found i =>
    m.Runs c p (Sys.thread (.allocproc i)) ∧ m.plock i = none ∧ (m.slot i).state = .unused
  | .taken i =>
    m.Runs c p (Sys.thread (.allocproc i)) ∧ m.plock i = none ∧ (m.slot i).state ≠ .unused
  | .full => m.Runs c p (Sys.thread (.allocproc NPROC))
  | .fail np => m.Runs c p (Sys.thread (.forkCopy np))
  | .copy np trapframe pagetable =>
    m.Runs c p (Sys.thread (.forkCopy np)) ∧ trapframe ≠ 0 ∧ pagetable ≠ 0
  | .parent np => m.Runs c p (Sys.thread (.forkParent np)) ∧ m.lock .wait = none
  | .run np => m.Runs c p (Sys.thread (.forkRun np)) ∧ m.plock np = none

/-- What the step does. -/
def ForkStep.next (m : Machine) (c : Cpu) (p : Idx) : ForkStep → Machine
  | .found i =>
    { ((m.setPlock i (some c)).setSlot i fun s => { s with pid := m.nextpid, state := .used }).setThread
        p (Sys.thread (.forkCopy i)) with
      nextpid := m.nextpid + 1
      use := update m.use i m.uses
      uses := m.uses + 1
      named := update m.named i false }
  | .taken i => m.setThread p (Sys.thread (.allocproc (i + 1)))
  | .full => m.setThread p idle
  | .fail np => ((m.setSlot np fun _ => .free).setPlock np none).setThread p idle
  | .copy np trapframe pagetable =>
    (((m.setSlot np fun s =>
      { s with trapframe := trapframe, pagetable := pagetable, sz := (m.slot p).sz }).setPlock np
        none).setThread np ⟨.code ∅, .none, .forkret⟩).setThread p (Sys.thread (.forkParent np))
  | .parent np =>
    (m.setSlot np fun s => { s with parent := some p }).setThread p (Sys.thread (.forkRun np))
  | .run np => (m.setSlot np fun s => { s with state := .runnable }).setThread p idle

/-! ## `exit` -/

/-- The steps of `exit(status)` and `reparent`. -/
inductive ExitStep
  | acquire
  /-- `pp->parent == p` -/
  | reparent (i : Idx)
  | other (i : Idx)
  /-- `wakeup(p->parent)` -/
  | wakeup
  | lock
  | state
  | release
  | sched

/-- When `exit` can take the step. -/
def ExitStep.enabled (m : Machine) (c : Cpu) (p : Idx) (status : ℤ) : ExitStep → Prop
  | .acquire => m.Runs c p (Sys.thread (.exit status)) ∧ m.lock .wait = none
  | .reparent i => m.Runs c p (Sys.thread (.reparent status i)) ∧ (m.slot i).parent = some p
  | .other i => m.Runs c p (Sys.thread (.reparent status i)) ∧ (m.slot i).parent ≠ some p
  | .wakeup => m.Runs c p (Sys.thread (.reparent status NPROC))
  | .lock => m.Runs c p (Sys.thread (.exitLock status)) ∧ m.plock p = none
  | .state => m.Runs c p (Sys.thread (.exitState status))
  | .release => m.Runs c p (Sys.thread .exitRelease)
  | .sched => m.Runs c p (Sys.thread .exitSched)

/-- What the step does. -/
def ExitStep.next (m : Machine) (c : Cpu) (p : Idx) (status : ℤ) : ExitStep → Machine
  | .acquire => (m.setLock .wait (some c)).setThread p (Sys.thread (.reparent status 0))
  | .reparent i =>
    ((m.setSlot i fun s => { s with parent := some m.initproc }).setCpu c fun x =>
      { x with wake := some (.proc m.initproc, 0) }).setThread p
        (Sys.thread (.reparent status (i + 1)))
  | .other i => m.setThread p (Sys.thread (.reparent status (i + 1)))
  | .wakeup => (m.setCpu c fun x => { x with wake := some (.ofProc (m.slot p).parent, 0) }).setThread p
      (Sys.thread (.exitLock status))
  | .lock => (m.setPlock p (some c)).setThread p (Sys.thread (.exitState status))
  | .state => (m.setSlot p fun s => { s with xstate := status, state := .zombie }).setThread p
      (Sys.thread .exitRelease)
  | .release => (m.setLock .wait none).setThread p (Sys.thread .exitSched)
  | .sched => (m.setCpu c fun x => { x with mode := .back p }).setThread p (Sys.thread .dead)

/-! ## `wait` -/

/-- The steps of `wait(addr)`. -/
inductive WaitStep
  | acquire
  /-- `pp->parent != p` -/
  | other (havekids : Bool) (i : Idx)
  /-- a child that has not exited -/
  | child (havekids : Bool) (i : Idx)
  /-- a child that has: `freeproc` -/
  | reap (havekids : Bool) (i : Idx)
  /-- a child that has, where `copyout` fails -/
  | copyout (havekids : Bool) (i : Idx)
  /-- no children, or the process has been killed -/
  | give (havekids : Bool)
  /-- `sleep(p, &wait_lock)` -/
  | sleep

/-- When `wait` can take the step. -/
def WaitStep.enabled (m : Machine) (c : Cpu) (p : Idx) (addr : ℕ) : WaitStep → Prop
  | .acquire => m.Runs c p (Sys.thread (.wait addr)) ∧ m.lock .wait = none
  | .other havekids i =>
    m.Runs c p (Sys.thread (.waitScan addr havekids i)) ∧ (m.slot i).parent ≠ some p
  | .child havekids i => m.Runs c p (Sys.thread (.waitScan addr havekids i)) ∧
      (m.slot i).parent = some p ∧ m.plock i = none ∧ (m.slot i).state ≠ .zombie
  | .reap havekids i => m.Runs c p (Sys.thread (.waitScan addr havekids i)) ∧
      (m.slot i).parent = some p ∧ m.plock i = none ∧ (m.slot i).state = .zombie
  | .copyout havekids i => m.Runs c p (Sys.thread (.waitScan addr havekids i)) ∧
      (m.slot i).parent = some p ∧ m.plock i = none ∧ (m.slot i).state = .zombie ∧ addr ≠ 0
  | .give havekids => m.Runs c p (Sys.thread (.waitScan addr havekids NPROC)) ∧
      (havekids = false ∨ m.plock p = none ∧ (m.slot p).killed = true)
  | .sleep => m.Runs c p (Sys.thread (.waitScan addr true NPROC)) ∧
      m.plock p = none ∧ (m.slot p).killed = false

/-- What the step does. -/
def WaitStep.next (m : Machine) (c : Cpu) (p : Idx) (addr : ℕ) : WaitStep → Machine
  | .acquire => (m.setLock .wait (some c)).setThread p (Sys.thread (.waitScan addr false 0))
  | .other havekids i => m.setThread p (Sys.thread (.waitScan addr havekids (i + 1)))
  | .child _ i => m.setThread p (Sys.thread (.waitScan addr true (i + 1)))
  | .reap _ i =>
    { ((m.setSlot i fun _ => .free).setLock .wait none).setThread p idle with
      reaped := ⟨m.use i, (m.slot i).parent, p, (m.slot i).xstate⟩ :: m.reaped }
  | .copyout _ _ | .give _ => (m.setLock .wait none).setThread p idle
  | .sleep => m.setThread p ⟨.waitScan addr false 0, .sleep .lock (.proc p) .wait, .none⟩

/-! ## The machine -/

/-- A step of a CPU. -/
inductive Label
  | scheduler (s : SchedulerStep)
  | irq (s : IrqStep)
  | switch (p : Idx) (sys : Sys) (k : Call) (s : SwitchStep)
  | code (p : Idx) (L : Finset ℕ) (s : CodeStep)
  | sleep (p : Idx) (sys : Sys) (pc : SleepPc) (chan : Chan) (lk : Lk)
  | wakeup (chan : Chan) (s : WakeupStep)
  | kill (p : Idx) (pid : BitVec 32) (s : KillStep)
  | fork (p : Idx) (s : ForkStep)
  | exit (p : Idx) (status : ℤ) (s : ExitStep)
  | wait (p : Idx) (addr : ℕ) (s : WaitStep)

/-- The step can be taken on CPU `c`. -/
def Label.enabled (m : Machine) (c : Cpu) : Label → Prop
  | .scheduler s => s.enabled m c
  | .irq s => s.enabled m c
  | .switch p sys k s => s.enabled m c p sys k
  | .code p L s => s.enabled m c p L
  | .sleep p sys pc chan lk => sleepEnabled m c p sys pc chan lk
  | .wakeup chan s => s.enabled m c chan
  | .kill p pid s => s.enabled m c p pid
  | .fork p s => s.enabled m c p
  | .exit p status s => s.enabled m c p status
  | .wait p addr s => s.enabled m c p addr

/-- The state after the step. -/
def Label.next (m : Machine) (c : Cpu) : Label → Machine
  | .scheduler s => s.next m c
  | .irq s => s.next m c
  | .switch p sys k s => s.next m c p sys k
  | .code p L s => s.next m c p L
  | .sleep p sys pc chan lk => sleepNext m c p sys pc chan lk
  | .wakeup chan s => s.next m c chan
  | .kill p pid s => s.next m p pid
  | .fork p s => s.next m c p
  | .exit p status s => s.next m c p status
  | .wait p addr s => s.next m c p addr

attribute [simp] Machine.setSlot Machine.setThread Machine.setPlock Machine.setLock Machine.setCpu
  Sys.locks Call.released Thread.held Sys.phase Thread.phase SchedulerStep.next IrqStep.next
  SwitchStep.next CodeStep.next sleepNext WakeupStep.next KillStep.next ForkStep.next ExitStep.next
  WaitStep.next Label.next

/-- A step of the machine, on a CPU. -/
def Step (m : Machine) (l : Cpu × Label) (m' : Machine) : Prop :=
  l.2.enabled m l.1 ∧ m' = l.2.next m l.1

instance (m : Machine) (c : Cpu) : (l : Label) → Decidable (l.enabled m c)
  | .scheduler s => match s with
    | .pick _ | .skip _ => inferInstanceAs (Decidable (_ ∧ _ ∧ _))
    | .restart => inferInstanceAs (Decidable (_ ∧ _ ∧ _))
    | .back _ => inferInstanceAs (Decidable (_ ∧ _ ∧ _))
  | .irq s => match s with
    | .enter | .acquire _ | .wakeup _ => inferInstanceAs (Decidable (_ ∧ _ ∧ _))
    | .release n => inferInstanceAs (Decidable ((∃ L ∈ (m.cpu c).irq, n ∈ L) ∧ _))
    | .return => inferInstanceAs (Decidable (_ ∧ _))
    | .yield _ => inferInstanceAs (Decidable (_ ∧ _ ∧ _ ∧ _))
  | .switch p sys k s => match s with
    | .sched => inferInstanceAs (Decidable (m.Runs c p ⟨sys, k, .yield⟩))
    | .yielded => inferInstanceAs (Decidable (m.Runs c p ⟨sys, k, .yielded⟩))
    | .forkret => inferInstanceAs (Decidable (m.Runs c p ⟨sys, k, .forkret⟩))
  | .code _ _ s => match s with
    | .acquire _ | .release _ | .sleep _ _ | .wakeup _ | .grow _ _ | .fork | .kill _ | .wait _ =>
      inferInstanceAs (Decidable (_ ∧ _))
    | .setkilled | .exit _ => inferInstanceAs (Decidable (_ ∧ _ ∧ _))
  | .sleep p _ pc _ lk => match pc with
    | .lock => inferInstanceAs (Decidable (_ ∧ m.plock p = none))
    | .relock => inferInstanceAs (Decidable (_ ∧ m.lock lk = none))
    | .unlock | .set | .sched | .tidy => inferInstanceAs (Decidable (_ ∧ True))
  | .wakeup chan s => match s with
    | .visit _ => inferInstanceAs (Decidable (_ ∧ _ ∧ _))
    | .skip _ => inferInstanceAs (Decidable (_ ∧ _))
    | .return => inferInstanceAs (Decidable ((m.cpu c).wake = some (chan, NPROC)))
  | .kill p pid s => match s with
    | .hit _ | .miss _ => inferInstanceAs (Decidable (_ ∧ _ ∧ _))
    | .fail => inferInstanceAs (Decidable (m.Runs c p (Sys.thread (.kill pid NPROC))))
  | .fork p s => match s with
    | .found _ | .taken _ | .copy _ _ _ => inferInstanceAs (Decidable (_ ∧ _ ∧ _))
    | .full => inferInstanceAs (Decidable (m.Runs c p (Sys.thread (.allocproc NPROC))))
    | .fail np => inferInstanceAs (Decidable (m.Runs c p (Sys.thread (.forkCopy np))))
    | .parent _ | .run _ => inferInstanceAs (Decidable (_ ∧ _))
  | .exit p status s => match s with
    | .acquire | .reparent _ | .other _ | .lock => inferInstanceAs (Decidable (_ ∧ _))
    | .wakeup => inferInstanceAs (Decidable (m.Runs c p (Sys.thread (.reparent status NPROC))))
    | .state => inferInstanceAs (Decidable (m.Runs c p (Sys.thread (.exitState status))))
    | .release => inferInstanceAs (Decidable (m.Runs c p (Sys.thread .exitRelease)))
    | .sched => inferInstanceAs (Decidable (m.Runs c p (Sys.thread .exitSched)))
  | .wait _ _ s => match s with
    | .acquire | .other _ _ => inferInstanceAs (Decidable (_ ∧ _))
    | .child _ _ | .reap _ _ => inferInstanceAs (Decidable (_ ∧ _ ∧ _ ∧ _))
    | .copyout _ _ => inferInstanceAs (Decidable (_ ∧ _ ∧ _ ∧ _ ∧ _))
    | .give havekids => inferInstanceAs (Decidable (_ ∧ (havekids = false ∨ _ ∧ _)))
    | .sleep => inferInstanceAs (Decidable (_ ∧ _ ∧ _))

/-- The step, if it can be taken. -/
def next (m : Machine) (l : Cpu × Label) : Option Machine :=
  if l.2.enabled m l.1 then some (l.2.next m l.1) else none

theorem next_eq {m m' : Machine} {l : Cpu × Label} (h : next m l = some m') : Step m l m' := by
  rw [next] at h
  split_ifs at h with he
  cases h
  exact ⟨he, rfl⟩

/-- The state after `userinit`, where all CPUs enter `scheduler`. -/
def Machine.boot (trapframe pagetable : ℕ) : Machine where
  slot := update (fun _ => .free) ⟨0, zero_lt_nproc⟩
    ⟨.runnable, 1, false, .null, none, 0, Vm.PGSIZE, trapframe, pagetable⟩
  thread := update (fun _ => Sys.thread .dead) ⟨0, zero_lt_nproc⟩ ⟨.code ∅, .none, .forkret⟩
  plock := fun _ => none
  lock := fun _ => none
  cpu := fun _ => ⟨.scan 0, none, none, none⟩
  initproc := ⟨0, zero_lt_nproc⟩
  nextpid := 2
  use := fun _ => 0
  uses := 1
  exits := fun _ => none
  reaped := []
  named := fun _ => false

/-- The states that the machine reaches by steps that `ok` admits. -/
abbrev Runs (trapframe pagetable : ℕ) (ok : Machine → Cpu × Label → Prop) : Machine → Prop :=
  Lib.Reach (Machine.boot trapframe pagetable) Step ok

/-- All states that the machine reaches. -/
abbrev Run (trapframe pagetable : ℕ) : Machine → Prop := Runs trapframe pagetable fun _ _ => True

theorem Run.execute {trapframe pagetable : ℕ} {m : Machine} {ls : List (Cpu × Label)}
    (h : Lib.execute next (fun _ _ => true) (Machine.boot trapframe pagetable) ls = some m) :
    Run trapframe pagetable m :=
  Lib.Reach.execute (fun _ _ _ => next_eq) (fun _ _ _ => trivial) .init h

end Xv6.Sched
