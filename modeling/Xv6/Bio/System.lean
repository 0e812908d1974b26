import Xv6.Bio.Cache
import Xv6.Log.Recovery
import Xv6.Log.GroupCommit

/-!
# The buffer cache and the log as one system

Any number of processes use the cache of `kernel/bio.c`, start and end operations, log blocks, and
one of them at a time runs `commit` of `kernel/log.c`, which itself reads, writes and releases buffers
like every other process. A step is what happens while a lock is held, or one transfer to or from the
disk.

`commit` is given as the calls that it makes at each point of `Ops.CommitPc`, in program order
(`program`). What a step shows to the outside is an observation: the block and the contents that a
`bread` returns, and the contents that a modification gives to a block, at the `log_write` or `bwrite`
that follows it. The writes by which `install_trans` moves logged blocks to their home locations are
not observations.
-/

namespace Xv6.Bio

open Function

/-! ## Buffers and disk -/

/-- The cache, where each process is inside `bread` or `brelse`, the disk, and which buffers have been
modified since their last `log_write` or `bwrite`. -/
structure Mem where
  cache : Bcache
  call : ℕ → Option Call
  disk : Disk
  dirty : BufId → Bool

namespace Mem

/-- The memory after `binit`. -/
def boot (d : Disk) : Mem := ⟨binit, fun _ => none, d, fun _ => false⟩

/-- Process `p` passes the critical section of `bget`. -/
def bget (m : Mem) (p dev b : ℕ) : Option Mem :=
  match Bio.bget m.cache dev b with
  | some (i, c) => some { m with
      cache := c
      call := update m.call p (some (.lock dev b i)) }
  | none => none

/-- Process `p` takes the sleep lock of the buffer it has asked for. -/
def acquire (m : Mem) (p dev b : ℕ) (i : BufId) : Mem :=
  { m with
    cache := m.cache.modify i fun d => { d with lock := some p }
    call := update m.call p
      (if (m.cache.buf i).valid then none else some (.fill dev b i)) }

/-- `virtio_disk_rw(b, 0)` and `b->valid = 1`. -/
def fill (m : Mem) (p : ℕ) (i : BufId) : Mem :=
  { m with
    cache := m.cache.modify i fun d =>
      { d with data := m.disk (m.cache.buf i).blockno, valid := true }
    call := update m.call p none }

/-- The holder of buffer `i` changes its contents. -/
def put (m : Mem) (i : BufId) (data : Block) : Mem :=
  { m with
    cache := m.cache.modify i fun d => { d with data := data }
    dirty := update m.dirty i true }

/-- `virtio_disk_rw(b, 1)`. -/
def bwrite (m : Mem) (i : BufId) : Mem :=
  { m with
    disk := update m.disk (m.cache.buf i).blockno (m.cache.buf i).data
    dirty := update m.dirty i false }

/-- Process `p` releases the sleep lock of buffer `i` in `brelse`. -/
def release (m : Mem) (p : ℕ) (i : BufId) : Mem :=
  { m with
    cache := m.cache.modify i fun d => { d with lock := none }
    call := update m.call p (some (.rel i)) }

/-- Process `p` passes the critical section of `brelse`. -/
def rel (m : Mem) (p : ℕ) (i : BufId) : Mem :=
  { m with cache := brelse m.cache i, call := update m.call p none }

end Mem

/-! ## The calls of `commit` -/

/-- The buffer variables of `write_log`, `write_head` and `install_trans`: the buffer of a block of
the log area (`to`, `buf`, `lbuf`) and that of a home block (`from`, `dbuf`). -/
inductive Reg
  | log
  | home
  deriving DecidableEq

/-- The calls that `write_log`, `write_head` and `install_trans` consist of. -/
inductive Instr
  /-- `r = bread(log.dev, blockno)` -/
  | bread (r : Reg) (blockno : ℕ)
  /-- `memmove(dst->data, src->data, BSIZE)` -/
  | move (dst src : Reg)
  /-- the header is filled in from `log.lh` -/
  | header (r : Reg)
  | bwrite (r : Reg)
  | bunpin (r : Reg)
  | brelse (r : Reg)

/-- The calls of `commit` at each of its points, for the header's list `lh`. -/
def program (g : Log.Geometry) (lh : List ℕ) : Ops.CommitPc → List Instr
  | .writeLog tail =>
    match lh[tail]? with
    | some b => [.bread .log (g.start + tail + 1), .bread .home b, .move .log .home, .bwrite .log,
        .brelse .home, .brelse .log]
    | none => []
  | .writeHead | .eraseHead => [.bread .log g.start, .header .log, .bwrite .log, .brelse .log]
  | .install tail =>
    match lh[tail]? with
    | some b => [.bread .log (g.start + tail + 1), .bread .home b, .move .home .log, .bwrite .home,
        .bunpin .home, .brelse .log, .brelse .home]
    | none => []
  | .test | .clear | .done => []

/-! ## Steps -/

/-- The whole system. `stage` is the number of calls that `commit` has made at its current point, and
`reg` its buffer variables. -/
structure Sys where
  ops : Ops.State
  mem : Mem
  stage : ℕ
  reg : Reg → BufId

theorem zero_lt_nbuf : 0 < NBUF := by decide

/-- The system after `binit` and `initlog`, which found no committed blocks, with disk `d`. -/
def Sys.boot (d : Disk) : Sys := ⟨Ops.init, Mem.boot d, 0, fun _ => ⟨0, zero_lt_nbuf⟩⟩

/-- The panics of `kernel/bio.c` and `kernel/log.c`. -/
inductive Panic
  | log (e : Ops.LogPanic)
  /-- `panic("bget: no buffers")` -/
  | noBuffers
  /-- `panic("bwrite")` -/
  | bwrite
  /-- `panic("brelse")` -/
  | brelse

/-- What a step shows, on device `ROOTDEV`. -/
inductive Obs
  /-- a `bread` of the block returns these contents -/
  | read (blockno : ℕ) (data : Block)
  /-- a modification gives the block these contents -/
  | write (blockno : ℕ) (data : Block)

/-- The steps of process `p`. -/
inductive Act
  | enter (p : ℕ)
  | begin (p : ℕ)
  | kill (p : ℕ)
  | endOp (p : ℕ)
  /-- it calls `bread` and passes the critical section of `bget` -/
  | bread (p dev blockno : ℕ)
  /-- it takes the sleep lock -/
  | lock (p : ℕ)
  /-- it reads the block from the disk -/
  | fill (p : ℕ)
  /-- it changes the contents of a buffer that it has locked -/
  | modify (p : ℕ) (i : BufId) (data : Block)
  | logWrite (p : ℕ) (i : BufId)
  | bwrite (p : ℕ) (i : BufId)
  /-- it calls `brelse` and releases the sleep lock -/
  | brelse (p : ℕ) (i : BufId)
  /-- it passes the critical section of `brelse` -/
  | rel (p : ℕ)
  /-- it makes the next call of `commit`, or goes on to the next point -/
  | commit (p : ℕ)

/-- The outcome of a step: `none` where the process cannot take it. -/
abbrev Outcome : Type := Option (Except Panic (Sys × Option Obs))

/-- Whether `p` is free to call the functions of `kernel/bio.c`: not inside one of them, not in
`begin_op` and not in `commit`. -/
def Sys.free (s : Sys) (p : ℕ) : Bool :=
  (s.mem.call p).isNone &&
    match s.ops.phase p with
    | .idle | .inOp _ => true
    | .waiting | .asleep | .commit _ => false

/-- A step of the log alone. -/
def Sys.opsStep (g : Log.Geometry) (s : Sys) (a : Ops.Act) : Outcome :=
  match Ops.step g.size s.ops a with
  | none => none
  | some (.error e) => some (.error (.log e))
  | some (.ok ops) => some (.ok ({ s with ops := ops }, none))

/-- Process `p` returns from `bread` with buffer `i`; in `commit` the buffer goes to the variable of
the call. -/
def Sys.returned (g : Log.Geometry) (s : Sys) (p : ℕ) (i : BufId) : Sys :=
  match s.ops.phase p with
  | .commit pc =>
    match (program g s.ops.log.lh pc)[s.stage]? with
    | some (.bread r _) => { s with stage := s.stage + 1, reg := update s.reg r i }
    | _ => s
  | _ => s

/-- The observation of a `bread` that returns `data`. -/
def readObs (dev b : ℕ) (data : Block) : Option Obs :=
  if dev = ROOTDEV then some (.read b data) else none

/-- The observation of a `bwrite` by `commit`: the log's own blocks get new contents, installing a
block is not observed. -/
def commitObs (b : Buf) : Ops.CommitPc → Option Obs
  | .install _ => none
  | _ => some (.write b.blockno b.data)

/-- The in-memory header with the list `lh`. -/
def header (lh : List ℕ) : Log.LogHeader := ⟨lh.length, fun i => lh.getD i 0⟩

/-- Process `p` makes the call `ins` of `commit`. -/
def Sys.exec (s : Sys) (p : ℕ) (pc : Ops.CommitPc) : Instr → Outcome
  | .bread _ b =>
    match s.mem.bget p ROOTDEV b with
    | none => some (.error .noBuffers)
    | some m => some (.ok ({ s with mem := m }, none))
  | .move dst src =>
    some (.ok ({ s with
      mem := s.mem.put (s.reg dst) (s.mem.cache.buf (s.reg src)).data
      stage := s.stage + 1 }, none))
  | .header r =>
    some (.ok ({ s with
      mem := s.mem.put (s.reg r)
        (Log.putHeader (header s.ops.log.lh) (s.mem.cache.buf (s.reg r)).data)
      stage := s.stage + 1 }, none))
  | .bwrite r =>
    let b := s.mem.cache.buf (s.reg r)
    if b.lock = some p then
      some (.ok ({ s with mem := s.mem.bwrite (s.reg r), stage := s.stage + 1 }, commitObs b pc))
    else some (.error .bwrite)
  | .bunpin r =>
    some (.ok ({ s with
      mem := { s.mem with cache := bunpin s.mem.cache (s.reg r) }
      stage := s.stage + 1 }, none))
  | .brelse r =>
    if (s.mem.cache.buf (s.reg r)).lock = some p then
      some (.ok ({ s with mem := s.mem.release p (s.reg r), stage := s.stage + 1 }, none))
    else some (.error .brelse)

/-- One step of the system. -/
def step (g : Log.Geometry) (s : Sys) : Act → Outcome
  | .enter p => if (s.mem.call p).isNone then s.opsStep g (.enter p) else none
  | .begin p => s.opsStep g (.begin p)
  | .kill p => s.opsStep g (.kill p)
  | .endOp p => if (s.mem.call p).isNone then s.opsStep g (.endOp p) else none
  | .bread p dev b =>
    if s.free p then
      match s.mem.bget p dev b with
      | none => some (.error .noBuffers)
      | some m => some (.ok ({ s with mem := m }, none))
    else none
  | .lock p =>
    match s.mem.call p with
    | some (.lock dev b i) =>
      if (s.mem.cache.buf i).lock = none then
        let s' := { s with mem := s.mem.acquire p dev b i }
        if (s.mem.cache.buf i).valid then
          some (.ok (s'.returned g p i, readObs dev b (s.mem.cache.buf i).data))
        else some (.ok (s', none))
      else none
    | _ => none
  | .fill p =>
    match s.mem.call p with
    | some (.fill dev b i) =>
      some (.ok (Sys.returned g { s with mem := s.mem.fill p i } p i,
        readObs dev b (s.mem.disk (s.mem.cache.buf i).blockno)))
    | _ => none
  | .modify p i data =>
    if s.free p ∧ (s.mem.cache.buf i).lock = some p then
      some (.ok ({ s with mem := s.mem.put i data }, none))
    else none
  | .logWrite p i =>
    let b := s.mem.cache.buf i
    if s.free p ∧ b.lock = some p then
      match Ops.step g.size s.ops (.logWrite p b.blockno) with
      | none => none
      | some (.error e) => some (.error (.log e))
      | some (.ok ops) =>
        let c := if b.blockno ∈ s.ops.log.lh then s.mem.cache else bpin s.mem.cache i
        some (.ok ({ s with
          ops := ops
          mem := { s.mem with cache := c, dirty := update s.mem.dirty i false } },
          some (.write b.blockno b.data)))
    else none
  | .bwrite p i =>
    let b := s.mem.cache.buf i
    if s.free p then
      if b.lock = some p then
        some (.ok ({ s with mem := s.mem.bwrite i }, some (.write b.blockno b.data)))
      else some (.error .bwrite)
    else none
  | .brelse p i =>
    if s.free p then
      if (s.mem.cache.buf i).lock = some p then
        some (.ok ({ s with mem := s.mem.release p i }, none))
      else some (.error .brelse)
    else none
  | .rel p =>
    match s.mem.call p with
    | some (.rel i) => some (.ok ({ s with mem := s.mem.rel p i }, none))
    | _ => none
  | .commit p =>
    if (s.mem.call p).isNone then
      match s.ops.phase p with
      | .commit pc =>
        match (program g s.ops.log.lh pc)[s.stage]? with
        | some ins => s.exec p pc ins
        | none => some (.ok ({ s with ops := Ops.commitStep s.ops p pc, stage := 0 }, none))
      | _ => none
    else none

/-- What the callers of the functions keep to. A modified buffer is logged or written before it is
released; what they log or write themselves is on `ROOTDEV`; the log area is left to the log, and
while a commit is running so are the blocks that it commits. -/
def Disciplined (g : Log.Geometry) (s : Sys) : Act → Prop
  | .brelse _ i => s.mem.dirty i = false
  | .logWrite _ i => (s.mem.cache.buf i).dev = ROOTDEV ∧ Log.Outside g (s.mem.cache.buf i).blockno
  | .bwrite _ i => (s.mem.cache.buf i).dev = ROOTDEV ∧ (s.ops.log.committing = true →
      (s.mem.cache.buf i).blockno ∉ s.ops.log.lh ∧ Log.Outside g (s.mem.cache.buf i).blockno)
  | _ => True

/-- A step that does not panic, with its observation. -/
def Step (g : Log.Geometry) (s : Sys) (a : Act) (o : Option Obs) (s' : Sys) : Prop :=
  step g s a = some (.ok (s', o))

end Xv6.Bio
