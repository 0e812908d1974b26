import Xv6.Lib.Ring

/-!
# The console driver

`consoleread` and `consoleintr` of `kernel/console.c`, with the characters that are echoed. What a reader
does while it holds `cons.lock` is one step: it takes characters until it returns or until there are none
and it sleeps. The destination of a read is writable, so that `either_copyout` does not fail. The process
list that `^P` prints is left out.
-/

namespace Xv6.Console

open Lib Function

/-- A `char`, which is unsigned. -/
abbrev Byte : Type := BitVec 8

/-- `C(x)`: Control-x -/
def C (x : Char) : Byte := BitVec.ofNat 8 (x.toNat - '@'.toNat)

/-- `'\n'` -/
def NL : Byte := 10
/-- `'\r'` -/
def CR : Byte := 13
/-- `'\x7f'`, the delete key -/
def DEL : Byte := 0x7f

/-- `INPUT_BUF_SIZE` -/
def INPUT_BUF_SIZE : ℕ := 128

instance : NeZero INPUT_BUF_SIZE := ⟨by decide⟩

/-- `cons` without its lock, and what was sent to the uart. -/
structure Cons where
  buf : Fin INPUT_BUF_SIZE → Byte
  r : BitVec 32
  w : BitVec 32
  e : BitVec 32
  uart : List Byte

/-- `consputc(BACKSPACE)`: `'\b'`, `' '`, `'\b'` -/
def backspace : List Byte := [8, 32, 8]

/-! ## The interrupt handler -/

/-- `cons.e--; consputc(BACKSPACE)` -/
def Cons.erase (s : Cons) : Cons := { s with e := s.e - 1, uart := s.uart ++ backspace }

/-- The loop that kills the line. It makes at most `cons.e - cons.w` rounds. -/
def killLine : ℕ → Cons → Cons
  | 0, s => s
  | n + 1, s =>
    if s.e ≠ s.w ∧ s.buf (place INPUT_BUF_SIZE (s.e - 1)) ≠ NL then killLine n s.erase else s

/-- Echo a character and store it, `cons.buf[cons.e++ % INPUT_BUF_SIZE] = c`. -/
def Cons.store (s : Cons) (c : Byte) : Cons :=
  { s with
    buf := update s.buf (place INPUT_BUF_SIZE s.e) c
    e := s.e + 1
    uart := s.uart ++ [c] }

/-- `consoleintr` -/
def consoleintr (c : Byte) (s : Cons) : Cons :=
  if c = C 'P' then s
  else if c = C 'U' then killLine (s.e - s.w).toNat s
  else if c = C 'H' ∨ c = DEL then if s.e ≠ s.w then s.erase else s
  else if c ≠ 0 ∧ (s.e - s.r).toNat < INPUT_BUF_SIZE then
    let c := if c = CR then NL else c
    let s := s.store c
    if c = NL ∨ c = C 'D' ∨ (s.e - s.r).toNat = INPUT_BUF_SIZE then { s with w := s.e } else s
  else s

/-! ## Readers -/

/-- A call of `consoleread`: `target`, `n`, and the bytes that were copied to the destination. -/
structure Read where
  target : BitVec 32
  n : BitVec 32
  got : List Byte

/-- The loop of `consoleread`, until it sleeps (`none`) or returns. It makes at most `n` rounds. Before
it sleeps, it looks whether the process was killed. -/
def readLoop (killed : Bool) : ℕ → Cons → Read → Cons × Read × Option ℤ
  | 0, s, p => (s, p, some (p.target - p.n).toInt)
  | k + 1, s, p =>
    if 0 < p.n.toInt then
      if s.r = s.w then (s, p, if killed then some (-1) else none)
      else
        let c := s.buf (place INPUT_BUF_SIZE s.r)
        let s := { s with r := s.r + 1 }
        if c = C 'D' then
          -- With something read already, `^D` is saved for the next time.
          (if p.n.toNat < p.target.toNat then { s with r := s.r - 1 } else s, p,
            some (p.target - p.n).toInt)
        else
          let p := { p with n := p.n - 1, got := p.got ++ [c] }
          if c = NL then (s, p, some (p.target - p.n).toInt) else readLoop killed k s p
    else (s, p, some (p.target - p.n).toInt)

/-- `consoleread` after `acquire`, at the beginning and after each `sleep`. -/
def consoleread (killed : Bool) (s : Cons) (p : Read) : Cons × Read × Option ℤ :=
  readLoop killed p.n.toNat s p

/-! ## Runs -/

/-- What can happen: a character arrives, a process calls `consoleread` with `n`, or a process that
sleeps in it goes on. -/
inductive Event (ι : Type)
  | intr (c : Byte)
  | call (i : ι) (n : BitVec 32) (killed : Bool)
  | wake (i : ι) (killed : Bool)

variable {ι : Type} [DecidableEq ι]

/-- The console, the reads that sleep, and the reads that have returned, with what they have read and
what they have returned. -/
structure Machine (ι : Type) where
  cons : Cons
  reads : ι → Option Read
  log : List (ι × List Byte × ℤ)

/-- `cons` is zero in the beginning. -/
def Machine.init : Machine ι := ⟨⟨fun _ => 0, 0, 0, 0, []⟩, fun _ => none, []⟩

/-- The process `i` runs in `consoleread`. -/
def Machine.read (M : Machine ι) (i : ι) (killed : Bool) (p : Read) : Machine ι :=
  match consoleread killed M.cons p with
  | (cons, p, none) => { M with cons := cons, reads := update M.reads i (some p) }
  | (cons, p, some ret) => ⟨cons, update M.reads i none, M.log ++ [(i, p.got, ret)]⟩

/-- A step. A process that is in `consoleread` does not call it, and only such a process wakes up in
it. -/
def Machine.step (M : Machine ι) : Event ι → Machine ι
  | .intr c => { M with cons := consoleintr c M.cons }
  | .call i n killed =>
    match M.reads i with
    | none => M.read i killed ⟨n, n, []⟩
    | some _ => M
  | .wake i killed =>
    match M.reads i with
    | none => M
    | some p => M.read i killed p

/-- The machine after the events `as`. -/
def Machine.run (as : List (Event ι)) : Machine ι := as.foldl Machine.step Machine.init

end Xv6.Console
