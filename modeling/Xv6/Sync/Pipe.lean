import Xv6.Lib.Monitor
import Xv6.Lib.Ring

/-!
# Pipes

`pipewrite`, `piperead` and `pipeclose` of `kernel/pipe.c`, called by any number of processes on one
pipe, as a program of a monitor with the spin lock `pi->lock`. What `copyin` and `copyout` do is chosen
at each call. The model remembers the bytes that have been stored and taken.

In every run the ring buffer is a queue, whose counters may wrap (`pipe_fifo`). No wakeup is lost as
long as no process is killed in `pipewrite` between a byte that it has stored and the next wakeup of the
readers (`pipe_wakeups`); a kill at such a moment makes `pipewrite` return without a wakeup
(`pipewrite_loses_wakeup`).
-/

namespace Xv6.Pipes

open Lib Lib.Monitor Function

/-- `PIPESIZE` -/
def PIPESIZE : ℕ := 512

instance : NeZero PIPESIZE := ⟨by decide⟩

/-- `struct pipe`, without its lock. -/
structure Pipe where
  data : Fin PIPESIZE → UInt8
  nread : BitVec 32
  nwrite : BitVec 32
  readopen : Bool
  writeopen : Bool

/-- The pipe that `pipealloc` makes in a page with contents `data`. -/
def pipealloc (data : Fin PIPESIZE → UInt8) : Pipe := ⟨data, 0, 0, true, true⟩

/-- The condition of `pipewrite-full`. -/
def Pipe.full (pi : Pipe) : Prop := pi.nwrite = pi.nread + BitVec.ofNat 32 PIPESIZE

instance (pi : Pipe) : Decidable pi.full := inferInstanceAs (Decidable (_ = _))

/-- A pipe, the bytes that have been stored in and taken out of `data`, and how many bytes each process
has stored in its last call of `pipewrite`. -/
structure Traffic (n : ℕ) where
  pipe : Pipe
  stored : List UInt8
  taken : List UInt8
  count : Fin n → ℕ

/-- `pi->data[pi->nwrite++ % PIPESIZE] = ch` -/
def Traffic.store {n : ℕ} (d : Traffic n) (p : Fin n) (ch : UInt8) : Traffic n where
  pipe := { d.pipe with
    data := update d.pipe.data (place PIPESIZE d.pipe.nwrite) ch
    nwrite := d.pipe.nwrite + 1 }
  stored := d.stored ++ [ch]
  taken := d.taken
  count := update d.count p (d.count p + 1)

/-- `ch = pi->data[pi->nread++ % PIPESIZE]` -/
def Traffic.take {n : ℕ} (d : Traffic n) : Traffic n where
  pipe := { d.pipe with nread := d.pipe.nread + 1 }
  stored := d.stored
  taken := d.taken ++ [d.pipe.data (place PIPESIZE d.pipe.nread)]
  count := d.count

/-- What a process can sleep on: `&pi->nread` and `&pi->nwrite`. -/
inductive Chan
  | nread
  | nwrite
  deriving DecidableEq

/-- Where a process is. -/
inductive Pc
  | out
  /-- `pipewrite(pi, addr, n)` before `acquire(&pi->lock)` -/
  | writeAcquire (n : ℤ)
  /-- before the loop -/
  | writeStart (n : ℤ)
  /-- the loop, with a note whether a byte has been stored since the last `wakeup(&pi->nread)` -/
  | writeLoop (n : ℤ) (i : ℕ) (dirty : Bool)
  /-- the early return, before `release(&pi->lock)` -/
  | writeAbort
  /-- the pipe is full, before `wakeup(&pi->nread)` -/
  | writeFull (n : ℤ) (i : ℕ)
  /-- before `sleep(&pi->nwrite, &pi->lock)` -/
  | writeSleep (n : ℤ) (i : ℕ)
  /-- after the loop, before `wakeup(&pi->nread)` -/
  | writeEnd (i : ℕ)
  | writeRelease (i : ℕ)
  /-- before `return r` -/
  | writeReturn (r : ℤ)
  /-- `piperead(pi, addr, n)` before `acquire(&pi->lock)` -/
  | readAcquire (n : ℤ)
  /-- the condition and the first test of the loop that waits -/
  | readTest (n : ℤ)
  | readAbort
  /-- before `sleep(&pi->nread, &pi->lock)` -/
  | readSleep (n : ℤ)
  /-- the loop that copies -/
  | readLoop (n : ℤ) (i : ℕ)
  /-- before `wakeup(&pi->nwrite)` -/
  | readEnd (i : ℕ)
  | readRelease (i : ℕ)
  | readReturn (r : ℤ)
  /-- `pipeclose(pi, writable)` before `acquire(&pi->lock)` -/
  | closeAcquire (writable : Bool)
  | close (writable : Bool)
  /-- before `wakeup` -/
  | closeWake (writable : Bool)
  | closeRelease
  deriving DecidableEq

/-- What a process calls, and what `copyin` and `copyout` return. -/
inductive Choice
  | go
  | pipewrite (n : ℤ)
  | piperead (n : ℤ)
  | pipeclose (writable : Bool)
  | copyin (ch : Option UInt8)
  | copyout (ok : Bool)

/-- The body of the loop of `pipewrite`, up to a call of `wakeup` or `release`. -/
def writeLoop {n : ℕ} (p : Fin n) (killed : Bool) (len : ℤ) (i : ℕ) (ch : Option UInt8)
    (d : Traffic n) : Pc × Traffic n :=
  if (i : ℤ) < len then
    if d.pipe.readopen = false ∨ killed = true then (.writeAbort, d)
    else if d.pipe.full then (.writeFull len i, d)
    else
      match ch with
      | none => (.writeEnd i, d)
      | some ch => (.writeLoop len (i + 1) true, d.store p ch)
  else (.writeEnd i, d)

/-- The loop of `piperead` that waits, up to a call of `sleep` or `release`. -/
def readTest {n : ℕ} (killed : Bool) (len : ℤ) (d : Traffic n) : Pc × Traffic n :=
  if d.pipe.nread = d.pipe.nwrite ∧ d.pipe.writeopen = true then
    if killed then (.readAbort, d) else (.readSleep len, d)
  else (.readLoop len 0, d)

/-- The body of the loop of `piperead` that copies. -/
def readLoop {n : ℕ} (len : ℤ) (i : ℕ) (ok : Bool) (d : Traffic n) : Pc × Traffic n :=
  if (i : ℤ) < len ∧ d.pipe.nread ≠ d.pipe.nwrite then
    (if ok then .readLoop len (i + 1) else .readEnd i, d.take)
  else (.readEnd i, d)

/-- `pipeclose` up to the call of `wakeup`. -/
def closeEnd {n : ℕ} (writable : Bool) (d : Traffic n) : Traffic n :=
  if writable then { d with pipe := { d.pipe with writeopen := false } }
  else { d with pipe := { d.pipe with readopen := false } }

/-- The steps that are neither about the spin lock nor calls of `sleep` and `wakeup`. -/
def act {n : ℕ} (p : Fin n) (killed : Bool) : Choice → Pc → Traffic n → Option (Pc × Traffic n)
  | .pipewrite len, .out, d => some (.writeAcquire len, d)
  | .piperead len, .out, d => some (.readAcquire len, d)
  | .pipeclose writable, .out, d => some (.closeAcquire writable, d)
  | .go, .writeStart len, d =>
    some (.writeLoop len 0 false, { d with count := update d.count p 0 })
  | .copyin ch, .writeLoop len i _, d => some (writeLoop p killed len i ch d)
  | .go, .writeReturn _, d => some (.out, d)
  | .go, .readTest len, d => some (readTest killed len d)
  | .copyout ok, .readLoop len i, d => some (readLoop len i ok d)
  | .go, .readReturn _, d => some (.out, d)
  | .go, .close writable, d => some (.closeWake writable, closeEnd writable d)
  | _, _, _ => none

/-- The calls of `acquire`, `release`, `sleep` and `wakeup`. When both ends are closed the page of the
pipe is freed after the `release` of `pipeclose`, and no process has the pipe any more. -/
def instr : Pc → Instr Chan Pc
  | .writeAcquire n => .acquire (.writeStart n)
  | .writeAbort => .release (.writeReturn (-1))
  | .writeFull n i => .wakeup .nread (.writeSleep n i)
  | .writeSleep n i => .sleep .nwrite (.writeLoop n i false)
  | .writeEnd i => .wakeup .nread (.writeRelease i)
  | .writeRelease i => .release (.writeReturn i)
  | .readAcquire n => .acquire (.readTest n)
  | .readAbort => .release (.readReturn (-1))
  | .readSleep n => .sleep .nread (.readTest n)
  | .readEnd i => .wakeup .nwrite (.readRelease i)
  | .readRelease i => .release (.readReturn i)
  | .closeAcquire writable => .acquire (.close writable)
  | .closeWake writable => .wakeup (if writable then .nread else .nwrite) .closeRelease
  | .closeRelease => .release .out
  | _ => .act

/-- The calls on one pipe by `n` processes. -/
def program (n : ℕ) : Program (Fin n) Chan Pc (Traffic n) Choice where
  slots := List.finRange n
  instr _ := instr
  act := act

/-- The processes and the pipe. -/
abbrev Machine (n : ℕ) : Type := State (Fin n) Chan Pc (Traffic n)

/-- A new pipe. -/
def Machine.init (n : ℕ) (killed : Fin n → Bool) (data : Fin PIPESIZE → UInt8) : Machine n where
  pc _ := .out
  mode _ := .run
  killed := killed
  owner := none
  data := ⟨pipealloc data, [], [], fun _ => 0⟩

/-- The states reached by steps that satisfy `ok`. -/
abbrev Runs {n : ℕ} (killed : Fin n → Bool) (data : Fin PIPESIZE → UInt8)
    (ok : Machine n → Monitor.Label (Fin n) Choice → Prop) : Machine n → Prop :=
  Reach (Machine.init n killed data) (Step (program n)) ok

/-! ## What the steps do -/

/-- Everything that an action can do. -/
inductive Act {n : ℕ} (p : Fin n) (killed : Bool) (d : Traffic n) : Pc → Pc → Traffic n → Prop
  | call {pc : Pc} (h : (∃ len, pc = .writeAcquire len) ∨ (∃ len, pc = .readAcquire len) ∨
      ∃ w, pc = .closeAcquire w) : Act p killed d .out pc d
  | start {len : ℤ} : Act p killed d (.writeStart len) (.writeLoop len 0 false)
      { d with count := update d.count p 0 }
  | abort {len : ℤ} {i : ℕ} {dirty : Bool} (h : d.pipe.readopen = false ∨ killed = true) :
      Act p killed d (.writeLoop len i dirty) .writeAbort d
  | full {len : ℤ} {i : ℕ} {dirty : Bool} (hopen : d.pipe.readopen = true) (h : d.pipe.full) :
      Act p killed d (.writeLoop len i dirty) (.writeFull len i) d
  | finish {len : ℤ} {i : ℕ} {dirty : Bool} : Act p killed d (.writeLoop len i dirty) (.writeEnd i) d
  | store {len : ℤ} {i : ℕ} {dirty : Bool} {ch : UInt8} (hopen : d.pipe.readopen = true)
      (hkilled : killed = false) (h : ¬ d.pipe.full) :
      Act p killed d (.writeLoop len i dirty) (.writeLoop len (i + 1) true) (d.store p ch)
  | ret {pc : Pc} (h : (∃ r, pc = .writeReturn r) ∨ ∃ r, pc = .readReturn r) : Act p killed d pc .out d
  | readAbort {len : ℤ} : Act p killed d (.readTest len) .readAbort d
  | readSleep {len : ℤ} (h : d.pipe.nread = d.pipe.nwrite) (hopen : d.pipe.writeopen = true) :
      Act p killed d (.readTest len) (.readSleep len) d
  | readStart {len : ℤ} : Act p killed d (.readTest len) (.readLoop len 0) d
  | take {len : ℤ} {i : ℕ} {pc : Pc} (h : d.pipe.nread ≠ d.pipe.nwrite)
      (hpc : pc = .readLoop len (i + 1) ∨ pc = .readEnd i) :
      Act p killed d (.readLoop len i) pc d.take
  | readEnd {len : ℤ} {i : ℕ} : Act p killed d (.readLoop len i) (.readEnd i) d
  | close {w : Bool} : Act p killed d (.close w) (.closeWake w) (closeEnd w d)

section

variable {n : ℕ} {p q : Fin n} {killed : Bool} {d e : Traffic n} {pc pc' : Pc} {a : Choice}

theorem act_cases (h : act p killed a pc d = some (pc', e)) : Act p killed d pc pc' e := by
  unfold act at h
  split at h
  · cases h
    exact .call (.inl ⟨_, rfl⟩)
  · cases h
    exact .call (.inr (.inl ⟨_, rfl⟩))
  · cases h
    exact .call (.inr (.inr ⟨_, rfl⟩))
  · cases h
    exact .start
  · rw [Option.some.injEq, writeLoop.eq_def] at h
    split_ifs at h with hi hstop hfull
    · cases h
      exact .abort hstop
    · cases h
      exact .full (by simpa using (not_or.mp hstop).1) hfull
    · split at h
      · cases h
        exact .finish
      · cases h
        exact .store (by simpa using (not_or.mp hstop).1) (by simpa using (not_or.mp hstop).2) hfull
    · cases h
      exact .finish
  · cases h
    exact .ret (.inl ⟨_, rfl⟩)
  · rw [Option.some.injEq, readTest] at h
    split_ifs at h with hempty hkilled
    · cases h
      exact .readAbort
    · cases h
      exact .readSleep hempty.1 hempty.2
    · cases h
      exact .readStart
  · rw [Option.some.injEq, readLoop] at h
    split_ifs at h with hi hok
    · cases h
      exact .take hi.2 (.inl rfl)
    · cases h
      exact .take hi.2 (.inr rfl)
    · cases h
      exact .readEnd
  · cases h
    exact .ret (.inr ⟨_, rfl⟩)
  · cases h
    exact .close
  · cases h

/-- The spin lock is held. -/
def Pc.locked : Pc → Prop
  | .out | .writeAcquire _ | .writeReturn _ | .readAcquire _ | .readReturn _ | .closeAcquire _ => False
  | _ => True

theorem brackets : Brackets (program n) Pc.locked where
  acquire {p pc n} h := by cases pc <;> cases h <;> simp [Pc.locked]
  release {p pc n} h := by cases pc <;> cases h <;> simp [Pc.locked]
  sleep {p pc c n} h := by cases pc <;> cases h <;> simp [Pc.locked]
  wakeup {p pc c n} h := by cases pc <;> cases h <;> simp [Pc.locked]
  act {p k a pc d n e} h := by
    have ha := act_cases h
    clear h
    cases ha with
    | call h => obtain ⟨_, rfl⟩ | ⟨_, rfl⟩ | ⟨_, rfl⟩ := h <;> simp [Pc.locked]
    | ret h => obtain ⟨_, rfl⟩ | ⟨_, rfl⟩ := h <;> simp [Pc.locked]
    | take _ h => obtain rfl | rfl := h <;> simp [Pc.locked]
    | _ => simp [Pc.locked]
  data {p k a pc d n e} h hpc := by
    have ha := act_cases h
    clear h
    cases ha with
    | call | ret => rfl
    | _ => exact absurd trivial hpc

/-! ## The queue -/

/-- What has been stored and not taken is in the ring, from `nread` to `nwrite`. -/
def Traffic.Fifo (d : Traffic n) : Prop :=
  ∃ l, d.stored = d.taken ++ l ∧ l.length ≤ PIPESIZE ∧
    d.pipe.nwrite = d.pipe.nread + BitVec.ofNat 32 l.length ∧ Entries d.pipe.data d.pipe.nread l

theorem pipesize_dvd : PIPESIZE ∣ 2 ^ 32 := ⟨2 ^ 23, by decide⟩

theorem sub_eq_length {nread nwrite : BitVec 32} {k : ℕ} (hk : k ≤ PIPESIZE)
    (h : nwrite = nread + BitVec.ofNat 32 k) : (nwrite - nread).toNat = k := by
  rw [h, BitVec.add_comm, BitVec.add_sub_cancel, BitVec.toNat_ofNat]
  unfold PIPESIZE at hk
  exact Nat.mod_eq_of_lt (by omega)

theorem full_iff {pi : Pipe} {k : ℕ} (hk : k ≤ PIPESIZE)
    (h : pi.nwrite = pi.nread + BitVec.ofNat 32 k) : pi.full ↔ k = PIPESIZE := by
  constructor
  · intro hfull
    rw [← sub_eq_length hk h, sub_eq_length le_rfl hfull]
  · rintro rfl
    exact h

theorem Traffic.Fifo.store (h : d.Fifo) (hfull : ¬ d.pipe.full) (p : Fin n) (ch : UInt8) :
    (d.store p ch).Fifo := by
  obtain ⟨l, hstored, hlen, hnwrite, hent⟩ := h
  have hlt : l.length < PIPESIZE := by
    have := (full_iff hlen hnwrite).not.mp hfull
    omega
  refine ⟨l ++ [ch], ?_, ?_, ?_, ?_⟩
  · rw [Traffic.store, hstored, List.append_assoc]
  · rw [List.length_append, List.length_singleton]
    exact hlt
  · simp only [Traffic.store, List.length_append, List.length_singleton, hnwrite, BitVec.ofNat_add,
      BitVec.add_assoc]
    rfl
  · refine Entries.push ?_ ?_
    · simp only [Traffic.store, hnwrite]
      exact hent.write pipesize_dvd hlt ch
    · simp only [Traffic.store, hnwrite, update_self]

theorem Traffic.Fifo.take (h : d.Fifo) (hne : d.pipe.nread ≠ d.pipe.nwrite) : d.take.Fifo := by
  obtain ⟨l, hstored, hlen, hnwrite, hent⟩ := h
  cases l with
  | nil =>
    refine absurd ?_ hne
    rw [hnwrite]
    simp
  | cons ch l =>
    obtain ⟨hch, hent⟩ := hent.pop
    rw [List.length_cons] at hlen hnwrite
    refine ⟨l, ?_, by omega, ?_, hent⟩
    · simp only [Traffic.take, hstored, hch, List.append_assoc, List.singleton_append]
    · simp only [Traffic.take, hnwrite]
      rw [Nat.add_comm l.length 1, BitVec.ofNat_add, BitVec.add_assoc]
      rfl

theorem Act.fifo (ha : Act p killed d pc pc' e) (h : d.Fifo) : e.Fifo := by
  cases ha with
  | store _ _ hfull => exact h.store hfull p _
  | take hne _ => exact h.take hne
  | @close w => cases w <;> exact h
  | _ => exact h

/-! ## The value that `pipewrite` returns -/

/-- In `pipewrite`, `i` counts the bytes that the call has stored, and the early return is taken by a
process that has been killed, or if the read end is closed. -/
def Counted (killed : Bool) (readopen : Bool) (count : ℕ) : Pc → Prop
  | .writeLoop _ i _ | .writeFull _ i | .writeSleep _ i | .writeEnd i | .writeRelease i => count = i
  | .writeAbort => killed = true ∨ readopen = false
  | .writeReturn r => r = count ∨ r = -1 ∧ (killed = true ∨ readopen = false)
  | _ => True

theorem Counted.mono {k k' r r' : Bool} {c : ℕ} (h : Counted k r c pc) (hk : k = true → k' = true)
    (hr : r = false → r' = false) : Counted k' r' c pc := by
  cases pc with
  | writeAbort => exact h.imp hk hr
  | writeReturn v => exact h.imp id fun h => ⟨h.1, h.2.imp hk hr⟩
  | _ => exact h

theorem Counted.dest {k r : Bool} {c : ℕ} (h : Counted k r c pc) (hdest : (instr pc).dest = some pc') :
    Counted k r c pc' := by
  cases pc with
  | writeAbort =>
    cases hdest
    exact .inr ⟨rfl, h⟩
  | writeRelease i =>
    cases hdest
    exact .inl (congrArg Nat.cast (Eq.symm h))
  | writeFull | writeSleep | writeEnd =>
    cases hdest
    exact h
  | _ => cases hdest <;> trivial

theorem Act.counted (ha : Act p killed d pc pc' e)
    (h : Counted killed d.pipe.readopen (d.count p) pc) :
    Counted killed e.pipe.readopen (e.count p) pc' := by
  cases ha with
  | call h => obtain ⟨_, rfl⟩ | ⟨_, rfl⟩ | ⟨_, rfl⟩ := h <;> trivial
  | start => exact update_self ..
  | abort hstop => exact hstop.symm
  | full | finish => exact h
  | store =>
    refine (update_self ..).trans ?_
    rw [show d.count p = _ from h]
  | take _ hpc => obtain rfl | rfl := hpc <;> trivial
  | _ => trivial

theorem Act.others (ha : Act p killed d pc pc' e) :
    (∀ q, q ≠ p → e.count q = d.count q) ∧ (d.pipe.readopen = false → e.pipe.readopen = false) := by
  cases ha with
  | start | store => exact ⟨fun q hq => update_of_ne hq _ _, id⟩
  | @close w => cases w <;> exact ⟨fun _ _ => rfl, fun h => by simp [closeEnd, h]⟩
  | _ => exact ⟨fun _ _ => rfl, id⟩

end

/-- What holds in every state reached. -/
structure Inv {n : ℕ} (s : Machine n) : Prop where
  monitor : Monitor.Inv (program n) Pc.locked s
  fifo : s.data.Fifo
  counted : ∀ p, Counted (s.killed p) s.data.pipe.readopen (s.data.count p) (s.pc p)

section

variable {n : ℕ} {s s' : Machine n} {l : Monitor.Label (Fin n) Choice} {killed : Fin n → Bool}
  {data : Fin PIPESIZE → UInt8} {ok : Machine n → Monitor.Label (Fin n) Choice → Prop}

theorem killed_step (hs : Step (program n) s l s') (p : Fin n) (hp : s.killed p = true) :
    s'.killed p = true := by
  cases hs with
  | @kill q hd =>
    by_cases hpq : p = q
    · simp [hpq]
    · simpa [update_of_ne hpq] using hp
  | _ => exact hp

theorem Inv.step (h : Inv s) (hs : Step (program n) s l s') : Inv s' := by
  refine ⟨h.monitor.step brackets hs, ?_, fun q => ?_⟩
  · obtain ⟨p, a, pc, d, rfl, -, ha, rfl⟩ | ⟨hdata, -⟩ := hs.pc_cases h.monitor
    · exact (act_cases ha).fifo h.fifo
    · rw [hdata]
      exact h.fifo
  · have hkill := killed_step hs q
    obtain ⟨p, a, pc, d, rfl, -, ha, rfl⟩ | ⟨hdata, hpc | ⟨p, pc, hpc, hdest⟩⟩ := hs.pc_cases h.monitor
    · by_cases hq : q = p
      · subst hq
        simpa [State.goto] using (act_cases ha).counted (h.counted q)
      · obtain ⟨hcount, hopen⟩ := (act_cases ha).others
        have := (h.counted q).mono hkill hopen
        simp only [State.goto, update_of_ne hq, hcount q hq]
        exact this
    · rw [hdata, hpc]
      exact (h.counted q).mono hkill id
    · rw [hdata, hpc]
      by_cases hq : q = p
      · subst hq
        rw [update_self]
        exact ((h.counted q).mono hkill id).dest hdest
      · rw [update_of_ne hq]
        exact (h.counted q).mono hkill id

theorem init_inv : Inv (Machine.init n killed data) where
  monitor := ⟨fun _ => trivial, fun p => by simp [Machine.init, Mode.holds, Pc.locked]⟩
  fifo := ⟨[], rfl, Nat.zero_le _, rfl, fun k hk => absurd hk (Nat.not_lt_zero k)⟩
  counted _ := trivial

theorem Runs.inv (h : Runs killed data ok s) : Inv s :=
  h.invariant (P := Inv) init_inv fun _ _ _ h _ hs => h.step hs

/-- **The pipe is a queue.** In every run, `nwrite - nread` modulo `2 ^ 32` is between 0 and `PIPESIZE`
and is the number of bytes stored and not yet taken; these are in the ring, in order, and what has been
taken out of the ring is what was stored before them. A call of `pipewrite` returns the number of
bytes that it has stored, or it returns -1 because the process was killed or the read end was closed. -/
theorem pipe_fifo (h : Runs killed data (fun _ _ => True) s) :
    (∃ l, s.data.stored = s.data.taken ++ l ∧ l.length ≤ PIPESIZE ∧
      (s.data.pipe.nwrite - s.data.pipe.nread).toNat = l.length ∧
      Entries s.data.pipe.data s.data.pipe.nread l) ∧
    ∀ p r, s.pc p = .writeReturn r → r = s.data.count p ∨
      r = -1 ∧ (s.killed p = true ∨ s.data.pipe.readopen = false) := by
  have hinv := Runs.inv h
  obtain ⟨l, hstored, hlen, hnwrite, hent⟩ := hinv.fifo
  refine ⟨⟨l, hstored, hlen, sub_eq_length hlen hnwrite, hent⟩, fun p r hp => ?_⟩
  have := hinv.counted p
  rwa [hp] at this

end

/-- Process 0 writes two bytes, of which process 1 reads one. -/
def transfer : List (Monitor.Label (Fin 2) Choice) :=
  let p : Fin 2 := ⟨0, Nat.zero_lt_two⟩
  let q : Fin 2 := ⟨1, Nat.one_lt_two⟩
  [.act p (.pipewrite 2), .acquire p, .act p .go, .act p (.copyin (some 7)), .act p (.copyin (some 8)),
    .act p (.copyin none), .wakeup p, .wakeup p, .wakeup p, .wakeup p, .release p,
    .act q (.piperead 1), .acquire q, .act q .go, .act q (.copyout true)]

theorem pipe_fifo_transfer : ∃ s : Machine 2,
    Runs (fun _ => false) (fun _ => 0) (fun _ _ => True) s ∧ s.data.taken = [7] ∧
    (s.data.pipe.nwrite - s.data.pipe.nread).toNat = 1 ∧ s.pc 0 = .writeReturn 2 ∧
    s.data.count 0 = 2 := by
  have hex : ((execute (next (program 2)) (fun _ _ => true)
      (Machine.init 2 (fun _ => false) fun _ => 0) transfer).map fun s =>
        (s.data.taken, s.data.stored, s.pc 0)) = some ([7], [7, 8], .writeReturn 2) := by
    decide +kernel
  obtain ⟨s, hs, heq⟩ := Option.map_eq_some_iff.mp hex
  simp only [Prod.mk.injEq] at heq
  obtain ⟨htaken, hstored, hpc⟩ := heq
  have hrun : Runs (fun _ => false) (fun _ => 0) (fun _ _ => True) s :=
    Reach.execute (fun _ _ _ => step_of_next) (fun _ _ _ => trivial) .init hs
  obtain ⟨⟨l, hl, -, hlen, -⟩, hret⟩ := pipe_fifo hrun
  refine ⟨s, hrun, htaken, ?_, hpc, ?_⟩
  · rw [hlen]
    rw [htaken, hstored] at hl
    cases hl
    rfl
  · obtain h | h := hret 0 2 hpc
    · exact_mod_cast h.symm
    · exact absurd h.1 (by decide)

/-! ## Wakeups -/

/-- Readers sleep while the pipe is empty and open for writing, writers while it is full and open for
reading. -/
def reason {n : ℕ} : Chan → Traffic n → Prop
  | .nread, d => d.pipe.nread = d.pipe.nwrite ∧ d.pipe.writeopen = true
  | .nwrite, d => d.pipe.full ∧ d.pipe.readopen = true

/-- A process owes a wakeup once it has stored or taken a byte, or closed an end. -/
def debt : Pc → Chan → Prop
  | .writeLoop _ _ dirty, c => dirty = true ∧ c = .nread
  | .writeFull _ _, c | .writeEnd _, c => c = .nread
  | .readLoop _ _, c | .readEnd _, c => c = .nwrite
  | .closeWake writable, c => c = if writable then .nread else .nwrite
  | _, _ => False

/-- What the process that has the lock knows of the pipe. -/
def known {n : ℕ} (_ : Fin n) : Pc → Traffic n → Prop
  | .writeLoop _ _ dirty, d => dirty = true → d.pipe.readopen = true
  | .writeFull _ _, d | .writeSleep _ _, d => reason .nwrite d
  | .readSleep _, d => reason .nread d
  | _, _ => True

/-- No process is killed in the loop of `pipewrite` when it has stored a byte since it last woke up the
readers. -/
def Calm {n : ℕ} (s : Machine n) (l : Monitor.Label (Fin n) Choice) : Prop :=
  ∀ p, l = .kill p → ∀ len i, s.pc p ≠ .writeLoop len i true

section

variable {n : ℕ} {s s' : Machine n} {l : Monitor.Label (Fin n) Choice} {killed : Fin n → Bool}
  {data : Fin PIPESIZE → UInt8} {p : Fin n} {k : Bool} {d e : Traffic n} {pc pc' : Pc}

theorem pays : Pays (program n) debt where
  slots := List.mem_finRange
  release {p pc n} h := by cases pc <;> cases h <;> simp [debt]
  sleep {p pc c n} h := by cases pc <;> cases h <;> simp [debt]
  wakeup {p pc c n} h := by cases pc <;> cases h <;> simp [debt]

theorem Act.known (ha : Act p k d pc pc' e) : known p pc' e := by
  cases ha with
  | call h => obtain ⟨_, rfl⟩ | ⟨_, rfl⟩ | ⟨_, rfl⟩ := h <;> trivial
  | start => exact nofun
  | full hopen hfull => exact ⟨hfull, hopen⟩
  | store hopen => exact fun _ => hopen
  | readSleep hempty hopen => exact ⟨hempty, hopen⟩
  | take _ hpc => obtain rfl | rfl := hpc <;> trivial
  | _ => trivial

/-- An action keeps the reasons of the others to sleep, or owes them a wakeup: all but the early return
of a `pipewrite` that has stored a byte. -/
theorem Act.owes (ha : Act p k d pc pc' e) (hknown : Pipes.known p pc d)
    (hdirty : ∀ len i, pc = .writeLoop len i true → k = false) (c : Chan)
    (h : reason c d ∨ debt pc c) : reason c e ∨ debt pc' c := by
  cases ha with
  | start =>
    obtain h | h := h
    · exact .inl (by cases c <;> exact h)
    · exact h.elim
  | @abort len i dirty hstop =>
    cases dirty with
    | false => exact h.imp id fun h => nomatch h.1
    | true =>
      -- The process would have seen before the byte that it is killed or that the read end is closed.
      rw [hknown rfl, hdirty len i rfl] at hstop
      simp at hstop
  | full | finish => exact h.imp id fun h => h.2
  | store hopen hkilled hfull =>
    cases c with
    | nread => exact .inr ⟨rfl, rfl⟩
    | nwrite =>
      obtain h | h := h
      · exact absurd h.1 hfull
      · exact nomatch h.2
  | ret hpc => obtain ⟨_, rfl⟩ | ⟨_, rfl⟩ := hpc <;> exact h.imp id False.elim
  | take hne hpc =>
    cases c with
    | nread =>
      obtain h | h := h
      · exact absurd h.1 hne
      · exact nomatch h
    | nwrite => exact .inr (by obtain rfl | rfl := hpc <;> rfl)
  | readEnd => exact h.imp id id
  | @close w =>
    obtain h | h := h
    · cases w <;> cases c
      · exact .inl h
      · exact .inr rfl
      · exact .inr rfl
      · exact .inl h
    · exact h.elim
  | _ => exact h.imp id False.elim

theorem knows_step (h : Knows known s) (hinv : Monitor.Inv (program n) Pc.locked s)
    (hs : Step (program n) s l s') : Knows known s' := by
  refine h.step hinv brackets ?_ ?_ ?_ hs
  · rintro p n (hi | ⟨c, hi⟩) <;> cases hpc : s.pc p <;> rw [hpc] at hi <;> cases hi <;> simp [known]
  · intro p c n hi hk
    cases hpc : s.pc p <;> rw [hpc] at hi hk <;> cases hi <;> exact hk
  · intro p a n d ha _ _
    exact (act_cases ha).known

/-- A process with such a byte has not been killed. -/
def Spared (s : Machine n) : Prop := ∀ p len i, s.pc p = .writeLoop len i true → s.killed p = false

theorem Spared.step (h : Spared s) (hinv : Monitor.Inv (program n) Pc.locked s) (hcalm : Calm s l)
    (hs : Step (program n) s l s') : Spared s' := by
  intro q len i hq
  have hkeep : s.pc q = .writeLoop len i true → s'.killed q = false := by
    intro hold
    have hnot := h q len i hold
    cases hs with
    | @kill p hd =>
      have hqp : q ≠ p := by
        rintro rfl
        exact hcalm q rfl len i hold
      simpa [update_of_ne hqp] using hnot
    | _ => exact hnot
  obtain ⟨p, a, pc, d, rfl, -, ha, rfl⟩ | ⟨-, hpc | ⟨p, pc, hpc, hdest⟩⟩ := hs.pc_cases hinv
  · by_cases hqp : q = p
    · subst hqp
      simp only [State.goto, update_self] at hq
      subst hq
      have hact := act_cases ha
      clear ha hs hkeep
      generalize hpc : s.pc q = pc at hact
      cases hact with
      | store _ hkilled => exact hkilled
      | call h | take _ h => simp at h
    · simp only [State.goto, update_of_ne hqp] at hq
      exact hkeep hq
  · rw [hpc] at hq
    exact hkeep hq
  · rw [hpc] at hq
    by_cases hqp : q = p
    · subst hqp
      rw [update_self] at hq
      subst hq
      change (instr (s.pc q)).dest = _ at hdest
      cases hold : s.pc q <;> rw [hold] at hdest <;> cases hdest
    · rw [update_of_ne hqp] at hq
      exact hkeep hq

theorem waits_step (h : Waits reason debt s) (hinv : Monitor.Inv (program n) Pc.locked s)
    (hknows : Knows known s) (hspared : Spared s) (hs : Step (program n) s l s') :
    Waits reason debt s' := by
  refine h.step hinv brackets pays hknows ?_ ?_ hs
  · intro p c n hi hk
    cases hpc : s.pc p <;> rw [hpc] at hi hk <;> cases hi <;> exact hk
  · rintro p a n d rfl ha _ hk c hold
    exact (act_cases ha).owes hk (fun len i hpc => hspared p len i hpc) c hold

theorem Runs.waits (h : Runs killed data Calm s) : Waits reason debt s := by
  refine (h.invariant (P := fun s => Inv s ∧ Knows known s ∧ Spared s ∧ Waits reason debt s)
    ⟨init_inv, nofun, nofun, fun _ _ hp => hp.elim⟩ ?_).2.2.2
  rintro s l s' ⟨hinv, hknows, hspared, hwaits⟩ hcalm hs
  exact ⟨hinv.step hs, knows_step hknows hinv.monitor hs, hspared.step hinv.monitor hcalm hs,
    waits_step hwaits hinv.monitor hknows hspared hs⟩

/-- **Pipes have no lost wakeups**, in runs in which no process is killed in `pipewrite` when it has
stored a byte and not woken up the readers: while `pi->lock` is free, a process sleeps on `&pi->nread`
only if the pipe is empty and `writeopen` is 1, and on `&pi->nwrite` only if it is full and `readopen`
is 1. -/
theorem pipe_wakeups (h : Runs killed data Calm s) (hfree : s.owner = none) (p : Fin n) :
    (s.Sleeping p .nread →
      s.data.pipe.nread = s.data.pipe.nwrite ∧ s.data.pipe.writeopen = true) ∧
    (s.Sleeping p .nwrite → s.data.pipe.full ∧ s.data.pipe.readopen = true) :=
  ⟨(Runs.waits h).reason_of_sleeping hfree, (Runs.waits h).reason_of_sleeping hfree⟩

end

/-- Process 1 reads from the empty pipe and goes to sleep. -/
def readerSleeps : List (Monitor.Label (Fin 2) Choice) :=
  let q : Fin 2 := ⟨1, Nat.one_lt_two⟩
  [.act q (.piperead 1), .acquire q, .act q .go, .sleep q, .sleep q, .sleep q]

/-- Process 0 writes a byte of two, and is killed. -/
def writerKilled : List (Monitor.Label (Fin 2) Choice) :=
  let p : Fin 2 := ⟨0, Nat.zero_lt_two⟩
  [.act p (.pipewrite 2), .acquire p, .act p .go, .act p (.copyin (some 7)), .kill p,
    .act p (.copyin none), .release p]

/-- The process sleeps on `&pi->nread`. -/
def sleepsOnNread {n : ℕ} (s : Machine n) (p : Fin n) : Bool :=
  match s.mode p with
  | .sleep .asleep .nread _ => true
  | _ => false

theorem sleeping_of_sleepsOnNread {n : ℕ} {s : Machine n} {p : Fin n} (h : sleepsOnNread s p = true) :
    s.Sleeping p .nread := by
  unfold sleepsOnNread at h
  split at h
  · exact ⟨_, ‹_›⟩
  · cases h

theorem pipe_wakeups_readerSleeps : ∃ s : Machine 2, Runs (fun _ => false) (fun _ => 0) Calm s ∧
    s.owner = none ∧ s.Sleeping 1 .nread ∧ s.data.pipe.nread = s.data.pipe.nwrite := by
  have hex : ((execute (next (program 2)) (fun _ l => match l with | .kill _ => false | _ => true)
      (Machine.init 2 (fun _ => false) fun _ => 0) readerSleeps).map fun s =>
        (s.owner, sleepsOnNread s 1)) = some (none, true) := by
    decide +kernel
  obtain ⟨s, hs, heq⟩ := Option.map_eq_some_iff.mp hex
  rw [Prod.mk.injEq] at heq
  have hrun : Runs (fun _ => false) (fun _ => 0) Calm s := by
    refine Reach.execute (fun _ _ _ => step_of_next) (fun s l hl => ?_) .init hs
    rintro p rfl
    cases hl
  have hsleep := sleeping_of_sleepsOnNread heq.2
  exact ⟨s, hrun, heq.1, hsleep, ((pipe_wakeups hrun heq.1 1).1 hsleep).1⟩

/-- A writer that is killed between two bytes releases the lock without a wakeup, and the reader sleeps
on with a byte in the pipe. -/
theorem pipewrite_loses_wakeup : ∃ s : Machine 2,
    Runs (fun _ => false) (fun _ => 0) (fun _ _ => True) s ∧ s.owner = none ∧ s.Sleeping 1 .nread ∧
    s.data.pipe.nread ≠ s.data.pipe.nwrite ∧ s.data.pipe.readopen = true ∧
    s.pc 0 = .writeReturn (-1) := by
  have hex : ((execute (next (program 2)) (fun _ _ => true)
      (Machine.init 2 (fun _ => false) fun _ => 0) (readerSleeps ++ writerKilled)).map fun s =>
        (s.owner, sleepsOnNread s 1, s.data.pipe.nread, s.data.pipe.nwrite, s.data.pipe.readopen, s.pc 0)) =
      some (none, true, 0, 1, true, .writeReturn (-1)) := by
    decide +kernel
  obtain ⟨s, hs, heq⟩ := Option.map_eq_some_iff.mp hex
  simp only [Prod.mk.injEq] at heq
  obtain ⟨howner, hreader, hnread, hnwrite, hopen, hpc⟩ := heq
  have hrun : Runs (fun _ => false) (fun _ => 0) (fun _ _ => True) s :=
    Reach.execute (fun _ _ _ => step_of_next) (fun _ _ _ => trivial) .init hs
  refine ⟨s, hrun, howner, sleeping_of_sleepsOnNread hreader, ?_, hopen, hpc⟩
  rw [hnread, hnwrite]
  decide

end Xv6.Pipes
