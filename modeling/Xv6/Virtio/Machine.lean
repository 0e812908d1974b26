import Xv6.Lib.Ring
import Xv6.Lib.Run
import Xv6.Param

/-!
# The virtio disk

The driver of `kernel/virtio_disk.c`, with any number of processes in `virtio_disk_rw`, any number of
calls of `virtio_disk_intr`, and the device. The device takes the heads of chains from the avail ring in
order. It performs what it has taken in any order, and puts what it has performed into the used ring in
any order. Its steps come between any two steps of the driver, `vdisk_lock` or not. The indices of the
rings have 16 bits.
-/

namespace Xv6.Virtio

open Function

/-- The number of descriptors. -/
def NUM : ℕ := 8

instance : NeZero NUM := ⟨by decide⟩

/-- An index into `desc`. -/
abbrev Idx : Type := Fin NUM

/-- What a descriptor points to: an element of `ops`, the data of a buffer or a status. -/
inductive Addr
  | null
  | op (i : Idx)
  | data (b : ℕ)
  | status (i : Idx)
  deriving DecidableEq

/-- `struct virtq_desc` -/
structure Desc where
  addr : Addr
  len : ℕ
  flags : BitVec 16
  next : ℕ
  deriving DecidableEq

/-- The descriptor has a next one. -/
def VRING_DESC_F_NEXT : BitVec 16 := 1

/-- The device writes to the memory of the descriptor. -/
def VRING_DESC_F_WRITE : BitVec 16 := 2

/-- `struct virtio_blk_req` -/
structure Req where
  type : ℕ
  sector : BitVec 64
  deriving DecidableEq

/-- `disk.info[i]` -/
structure Info where
  b : Option ℕ
  status : BitVec 8
  deriving DecidableEq

/-- The result of `alloc3_desc`. -/
structure Chain where
  i0 : Idx
  i1 : Idx
  i2 : Idx
  deriving DecidableEq

/-- What processes sleep on: `&disk.free[0]`, or a buffer. -/
inductive Chan
  | free
  | buf (b : ℕ)
  deriving DecidableEq

/-- Where a process is in `virtio_disk_rw(b, write)`. -/
inductive Pc
  | idle
  /-- before `acquire` -/
  | enter (b : ℕ) (write : Bool)
  /-- before `alloc3_desc` -/
  | alloc (b : ℕ) (write : Bool)
  /-- in `sleep(&disk.free[0], ..)` -/
  | sleepFree (b : ℕ) (write : Bool)
  /-- before the descriptors are filled in -/
  | format (b : ℕ) (write : Bool) (x : Chain)
  /-- before the write to the avail ring -/
  | ring (b : ℕ) (write : Bool) (x : Chain)
  /-- before `disk.avail->idx += 1` -/
  | bump (b : ℕ) (write : Bool) (x : Chain)
  /-- before the test of `b->disk` -/
  | check (b : ℕ) (write : Bool) (x : Chain)
  /-- in `sleep(b, ..)` -/
  | sleepBuf (b : ℕ) (write : Bool) (x : Chain)
  /-- before `free_chain` -/
  | finish (b : ℕ) (write : Bool) (x : Chain)
  /-- before `release` -/
  | leave (b : ℕ) (write : Bool)
  deriving DecidableEq

/-- Where a call of `virtio_disk_intr` is. -/
inductive IntrPc
  | idle
  /-- before the comparison of `disk.used_idx` with `disk.used->idx` -/
  | look
  /-- before it reads the entry -/
  | read
  /-- with entry `id` -/
  | entry (id : Idx)
  | leave
  deriving DecidableEq

/-- The holder of `vdisk_lock`. -/
inductive Holder
  | proc (p : ℕ)
  | intr (h : ℕ)
  deriving DecidableEq

/-- The state. The device has its own index into the avail ring, has taken the chains in `taken`, and
has performed those in `done`. The last three fields count, for every buffer, the requests that were
made known to the device, that it has performed and that were completed. -/
structure State where
  desc : Idx → Desc
  availRing : Idx → Idx
  availIdx : BitVec 16
  usedRing : Idx → Idx
  usedIdx : BitVec 16
  free : Idx → Bool
  used_idx : BitVec 16
  info : Idx → Info
  ops : Idx → Req
  blockno : ℕ → BitVec 32
  disk : ℕ → Bool
  lock : Option Holder
  pc : ℕ → Pc
  asleep : ℕ → Option Chan
  intr : ℕ → IntrPc
  lastAvail : BitVec 16
  taken : List Idx
  done : List Idx
  published : ℕ → ℕ
  performed : ℕ → ℕ
  completed : ℕ → ℕ

/-- The panics of the driver. -/
inductive Panic
  | freeDesc1
  | freeDesc2
  | intrStatus
  /-- a null pointer -/
  | null
  /-- `free_chain` does not end -/
  | spin
  deriving DecidableEq

namespace State

variable (s : State)

/-- A call of `virtio_disk_rw` is at another place. -/
def setPc (p : ℕ) (x : Pc) : State := { s with pc := update s.pc p x }

/-- A handler is at another place. -/
def setIntr (h : ℕ) (x : IntrPc) : State := { s with intr := update s.intr h x }

/-- `wakeup` -/
def wakeup (chan : Chan) : State :=
  { s with asleep := fun p => if s.asleep p = some chan then none else s.asleep p }

/-- `sleep`, up to where the process is switched away -/
def sleep (p : ℕ) (chan : Chan) (x : Pc) : State :=
  { s with asleep := update s.asleep p (some chan), lock := none }.setPc p x

/-- A descriptor that is free. -/
def findFree : Option Idx := (List.finRange NUM).find? s.free

/-- `alloc_desc` -/
def allocDesc : Option Idx × State :=
  match s.findFree with
  | some i => (some i, { s with free := update s.free i false })
  | none => (none, s)

/-- The state after `free_desc(i)`. -/
def clearDesc (i : Idx) : State :=
  { s with
    desc := update s.desc i ⟨.null, 0, 0, 0⟩
    free := update s.free i true }.wakeup .free

/-- `free_desc` -/
def freeDesc (i : ℕ) : Except Panic State :=
  if h : i < NUM then
    if s.free ⟨i, h⟩ then .error .freeDesc2 else .ok (s.clearDesc ⟨i, h⟩)
  else .error .freeDesc1

/-- `free_chain`, for at most `fuel` descriptors -/
def freeChain : ℕ → State → ℕ → Except Panic State
  | 0, _, _ => .error .spin
  | fuel + 1, s, i => do
    let d := s.desc (Fin.ofNat NUM i)
    let s ← s.freeDesc i
    if d.flags &&& VRING_DESC_F_NEXT ≠ 0 then freeChain fuel s d.next else .ok s

/-- `alloc3_desc` -/
def alloc3Desc : Except Panic (Option Chain × State) :=
  match s.allocDesc with
  | (none, s) => .ok (none, s)
  | (some i0, s) =>
    match s.allocDesc with
    | (none, s) => do
      let s ← s.freeDesc i0
      .ok (none, s)
    | (some i1, s) =>
      match s.allocDesc with
      | (none, s) => do
        let s ← s.freeDesc i0
        let s ← s.freeDesc i1
        .ok (none, s)
      | (some i2, s) => .ok (some ⟨i0, i1, i2⟩, s)

/-- The descriptors and the record of a request. -/
def format (b : ℕ) (write : Bool) (x : Chain) : State :=
  { s with
    ops := update s.ops x.i0
      ⟨if write then 1 else 0, (s.blockno b * BitVec.ofNat 32 (BSIZE / 512)).zeroExtend 64⟩
    desc := update (update (update s.desc
      x.i0 ⟨.op x.i0, 16, VRING_DESC_F_NEXT, x.i1⟩)
      x.i1 ⟨.data b, BSIZE, (if write then 0 else VRING_DESC_F_WRITE) ||| VRING_DESC_F_NEXT, x.i2⟩)
      x.i2 ⟨.status x.i0, 1, VRING_DESC_F_WRITE, 0⟩
    info := update s.info x.i0 ⟨some b, 0xff⟩
    disk := update s.disk b true }

end State

/-! ## `virtio_disk_rw` -/

/-- The steps of `virtio_disk_rw`. -/
inductive RwStep
  | call (b : ℕ) (write : Bool)
  | acquire
  | alloc
  | wakeFree
  | format
  | ring
  | bump
  | check
  | wakeBuf
  | finish
  | release
  deriving DecidableEq

/-- The buffer of a call. -/
def Pc.buf : Pc → Option ℕ
  | .idle => none
  | .enter b _ | .alloc b _ | .sleepFree b _ | .format b _ _ | .ring b _ _ | .bump b _ _
  | .check b _ _ | .sleepBuf b _ _ | .finish b _ _ | .leave b _ => some b

/-- The step of process `p`, if it can be taken. The buffer of a new call is locked by its caller. -/
def RwStep.next (s : State) (p : ℕ) (a : RwStep) (x : Pc) : Option (Except Panic State) :=
  match a, x with
  | .call b write, .idle => some (.ok (s.setPc p (.enter b write)))
  | .acquire, .enter b write =>
    if s.lock = none then
      some (.ok ({ s with lock := some (.proc p) }.setPc p (.alloc b write)))
    else none
  | .alloc, .alloc b write =>
    some do
      match ← s.alloc3Desc with
      | (some x, s) => .ok (s.setPc p (.format b write x))
      | (none, s) => .ok (s.sleep p .free (.sleepFree b write))
  | .wakeFree, .sleepFree b write =>
    if s.asleep p = none ∧ s.lock = none then
      some (.ok ({ s with lock := some (.proc p) }.setPc p (.alloc b write)))
    else none
  | .format, .format b write x => some (.ok ((s.format b write x).setPc p (.ring b write x)))
  | .ring, .ring b write x =>
    some (.ok ({ s with
      availRing := update s.availRing (Lib.place NUM s.availIdx) x.i0 }.setPc p
        (.bump b write x)))
  | .bump, .bump b write x =>
    some (.ok ({ s with
      availIdx := s.availIdx + 1
      published := update s.published b (s.published b + 1) }.setPc p (.check b write x)))
  | .check, .check b write x =>
    some (.ok (if s.disk b then s.sleep p (.buf b) (.sleepBuf b write x)
      else s.setPc p (.finish b write x)))
  | .wakeBuf, .sleepBuf b write x =>
    if s.asleep p = none ∧ s.lock = none then
      some (.ok ({ s with lock := some (.proc p) }.setPc p (.check b write x)))
    else none
  | .finish, .finish b write x =>
    some do
      let info := update s.info x.i0 { s.info x.i0 with b := none }
      let s ← State.freeChain (NUM + 1) { s with info := info } x.i0
      .ok (s.setPc p (.leave b write))
  | .release, .leave _ _ => some (.ok ({ s with lock := none }.setPc p .idle))
  | _, _ => none

/-! ## `virtio_disk_intr` -/

/-- The steps of `virtio_disk_intr`. -/
inductive IntrStep
  | acquire
  | look
  | read
  | entry
  | release
  deriving DecidableEq

/-- What `virtio_disk_intr` does with the entry `id`. -/
def State.complete (s : State) (id : Idx) : Except Panic State :=
  if (s.info id).status ≠ 0 then .error .intrStatus
  else
    match (s.info id).b with
    | none => .error .null
    | some b => .ok { { s with
        disk := update s.disk b false
        completed := update s.completed b (s.completed b + 1) }.wakeup (.buf b) with
      used_idx := s.used_idx + 1 }

/-- What a step of the handler does, if it can be taken. -/
def IntrStep.next (s : State) (h : ℕ) (a : IntrStep) (x : IntrPc) : Option (Except Panic State) :=
  match a, x with
  | .acquire, .idle =>
    if s.lock = none then some (.ok ({ s with lock := some (.intr h) }.setIntr h .look)) else none
  | .look, .look => some (.ok (s.setIntr h (if s.used_idx = s.usedIdx then .leave else .read)))
  | .read, .read => some (.ok (s.setIntr h (.entry (s.usedRing (Lib.place NUM s.used_idx)))))
  | .entry, .entry id => some do
      let s ← s.complete id
      .ok (s.setIntr h .look)
  | .release, .leave => some (.ok ({ s with lock := none }.setIntr h .idle))
  | _, _ => none

/-! ## The device -/

/-- The steps of the device. -/
inductive DevStep
  /-- a head from the avail ring -/
  | take
  /-- the request of a chain that it has taken, and its status -/
  | perform (i : Idx)
  /-- an entry of the used ring -/
  | append (i : Idx)
  deriving DecidableEq

/-- The second descriptor of a request. -/
def State.second (s : State) (i : Idx) : Desc := s.desc (Fin.ofNat NUM (s.desc i).next)

/-- The last descriptor of a request. -/
def State.third (s : State) (i : Idx) : Desc := s.desc (Fin.ofNat NUM (s.second i).next)

/-- The device transfers the data and writes the status where the chain says. -/
def State.perform (s : State) (i : Idx) : State :=
  { s with
    taken := s.taken.erase i
    done := i :: s.done
    performed := match (s.second i).addr with
      | .data b => update s.performed b (s.performed b + 1)
      | _ => s.performed
    info := match (s.third i).addr with
      | .status j => update s.info j { s.info j with status := 0 }
      | _ => s.info }

/-- What a step of the device does, if it can be taken. -/
def DevStep.next (s : State) : DevStep → Option State
  | .take =>
    if s.lastAvail = s.availIdx then none
    else some { s with
      taken := s.availRing (Lib.place NUM s.lastAvail) :: s.taken
      lastAvail := s.lastAvail + 1 }
  | .perform i => if i ∈ s.taken then some (s.perform i) else none
  | .append i =>
    if i ∈ s.done then
      some { s with
        done := s.done.erase i
        usedRing := update s.usedRing (Lib.place NUM s.usedIdx) i
        usedIdx := s.usedIdx + 1 }
    else none

/-! ## The machine -/

/-- A step of a call of `virtio_disk_rw`, of a handler or of the device. -/
inductive Label
  | rw (p : ℕ) (a : RwStep)
  | intr (h : ℕ) (a : IntrStep)
  | dev (a : DevStep)

/-- The step, if it can be taken; it may panic. -/
def Label.next (s : State) : Label → Option (Except Panic State)
  | .rw p a => a.next s p (s.pc p)
  | .intr h a => a.next s h (s.intr h)
  | .dev a => (a.next s).map .ok

/-- A step of the driver or the device. -/
def Step (s : State) (l : Label) (s' : State) : Prop := l.next s = some (.ok s')

/-- The state after `virtio_disk_init`. -/
def State.init (blockno : ℕ → BitVec 32) : State where
  desc := fun _ => ⟨.null, 0, 0, 0⟩
  availRing := fun _ => 0
  availIdx := 0
  usedRing := fun _ => 0
  usedIdx := 0
  free := fun _ => true
  used_idx := 0
  info := fun _ => ⟨none, 0⟩
  ops := fun _ => ⟨0, 0⟩
  blockno := blockno
  disk := fun _ => false
  lock := none
  pc := fun _ => .idle
  asleep := fun _ => none
  intr := fun _ => .idle
  lastAvail := 0
  taken := []
  done := []
  published := fun _ => 0
  performed := fun _ => 0
  completed := fun _ => 0

/-- A call is made with a buffer that is locked: no other call has it. -/
def Label.Locked (s : State) : Label → Prop
  | .rw _ (.call b _) => ∀ q, (s.pc q).buf ≠ some b
  | _ => True

/-- The states that the driver and the device reach. -/
abbrev Run (blockno : ℕ → BitVec 32) : State → Prop :=
  Lib.Reach (State.init blockno) Step fun s l => l.Locked s

end Xv6.Virtio
