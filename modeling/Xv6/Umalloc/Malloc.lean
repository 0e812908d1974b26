import Xv6.Lib.Links
import Xv6.Lib.Run

/-!
# The user-level allocator

`malloc`, `free` and `morecore` of `user/umalloc.c`. A `Header` has 16 bytes; sizes are in units of
headers, and are `uint`s. Addresses are natural numbers. `sbrk` fails, or returns memory above all it has
returned before; it never gives more than `limit` units in all. The loops take a bound on the number of
iterations; a call returns if some bound is large enough.
-/

namespace Xv6.Umalloc

/-- The memory: the fields of the headers by their addresses, `freep`, the end of the memory that `sbrk`
has returned, the pieces of memory with their units, what `sbrk` is going to return, and the headers
that the call has written to. -/
structure State where
  ptr : ℕ → ℕ
  size : ℕ → ℕ
  freep : ℕ
  top : ℕ
  pieces : List (ℕ × ℕ)
  sbrks : List (Option ℕ)
  writes : List ℕ

/-- The link of a header changes. -/
def State.setPtr (s : State) (a v : ℕ) : State :=
  { s with ptr := Function.update s.ptr a v, writes := a :: s.writes }

/-- The size in a header changes. -/
def State.setSize (s : State) (a v : ℕ) : State :=
  { s with size := Function.update s.size a v, writes := a :: s.writes }

/-- The units that `sbrk` has returned. -/
def State.units (s : State) : ℕ := (s.pieces.map Prod.snd).sum

/-- The loop of `free`. -/
def freeLoop (s : State) (bp : ℕ) : ℕ → ℕ → Option ℕ
  | 0, _ => none
  | n + 1, p =>
    if bp > p ∧ bp < s.ptr p then some p
    else if p ≥ s.ptr p ∧ (bp > p ∨ bp < s.ptr p) then some p
    else freeLoop s bp n (s.ptr p)

/-- `free` joins the block with the next one, or links it to it. -/
def joinNext (s : State) (bp p : ℕ) : State :=
  if bp + 16 * s.size bp = s.ptr p then
    (s.setSize bp ((s.size bp + s.size (s.ptr p)) % 2 ^ 32)).setPtr bp (s.ptr (s.ptr p))
  else s.setPtr bp (s.ptr p)

/-- `free` joins the block with the one before it, or links that one to it. -/
def joinPrev (s : State) (bp p : ℕ) : State :=
  if p + 16 * s.size p = bp then
    (s.setSize p ((s.size p + s.size bp) % 2 ^ 32)).setPtr p (s.ptr bp)
  else s.setPtr p bp

/-- `free`, for the block with header `bp`. -/
def free (fuel : ℕ) (s : State) (bp : ℕ) : Option State :=
  (freeLoop s bp fuel s.freep).map fun p => { joinPrev (joinNext s bp p) bp p with freep := p }

/-- `sbrk` for `nu` units. -/
def sbrk (limit : ℕ) (s : State) (nu : ℕ) : Option ℕ × State :=
  match s.sbrks with
  | [] => (none, s)
  | r :: rs =>
    match r with
    | none => (none, { s with sbrks := rs })
    | some a =>
      if s.top ≤ a ∧ s.units + nu ≤ limit then
        (some a, { s with sbrks := rs, top := a + 16 * nu, pieces := (a, nu) :: s.pieces })
      else (none, { s with sbrks := rs })

/-- `morecore`: what it returns, 0 if there is no memory. -/
def morecore (limit fuel : ℕ) (s : State) (nu : ℕ) : Option (ℕ × State) :=
  let nu := if nu < 4096 then 4096 else nu
  match sbrk limit s nu with
  | (none, s) => some (0, s)
  | (some hp, s) => (free fuel (s.setSize hp nu) hp).map fun s => (s.freep, s)

/-- `malloc` once it has found a block `p` behind `prevp` that is large enough: the header of the block
that it returns. -/
def take (s : State) (nunits prevp p : ℕ) : ℕ × State :=
  if s.size p = nunits then (p, { s.setPtr prevp (s.ptr p) with freep := prevp })
  else
    let rest := s.size p - nunits
    (p + 16 * rest, { (s.setSize p rest).setSize (p + 16 * rest) nunits with freep := prevp })

/-- The loop of `malloc`: the header of the block, or `none` without memory. -/
def mallocLoop (limit nunits : ℕ) : ℕ → State → ℕ → ℕ → Option (Option ℕ × State)
  | 0, _, _, _ => none
  | fuel + 1, s, prevp, p =>
    if s.size p ≥ nunits then
      let r := take s nunits prevp p
      some (some r.1, r.2)
    else if p = s.freep then
      match morecore limit fuel s nunits with
      | none => none
      | some (q, s) => if q = 0 then some (none, s) else mallocLoop limit nunits fuel s q (s.ptr q)
    else mallocLoop limit nunits fuel s p (s.ptr p)

/-- The units for `nbytes` bytes and a header. -/
def unitsFor (nbytes : ℕ) : ℕ := (nbytes + 16 - 1) / 16 + 1

/-- The first call of `malloc` makes a list with `base` only. -/
def start (base : ℕ) (s : State) : State :=
  if s.freep = 0 then { (s.setPtr base base).setSize base 0 with freep := base } else s

/-- `malloc`: the header in front of the memory that it returns, or `none` for 0. -/
def malloc (base limit fuel nbytes : ℕ) (s : State) : Option (Option ℕ × State) :=
  let s := start base s
  mallocLoop limit (unitsFor nbytes) fuel s s.freep (s.ptr s.freep)

/-! ## Runs -/

/-- The memory, and the headers of the blocks in use. -/
structure Program where
  mem : State
  live : List ℕ

/-- A call of `malloc` with the results of its calls of `sbrk`, or of `free`. -/
inductive Call
  | malloc (nbytes : ℕ) (sbrks : List (Option ℕ))
  | free (bp : ℕ)

/-- A program calls `malloc` for less than `2 ^ 30` bytes, and `free` for blocks in use. -/
inductive Step (base limit : ℕ) (s : Program) : Call → Program → Prop
  | malloc {nbytes fuel : ℕ} {sbrks : List (Option ℕ)} {r : Option ℕ} {mem : State}
      (hn : nbytes < 2 ^ 30)
      (h : malloc base limit fuel nbytes { s.mem with sbrks := sbrks, writes := [] } = some (r, mem)) :
      Step base limit s (.malloc nbytes sbrks) ⟨mem, r.toList ++ s.live⟩
  | free {bp fuel : ℕ} {mem : State} (hbp : bp ∈ s.live)
      (h : free fuel { s.mem with writes := [] } bp = some mem) :
      Step base limit s (.free bp) ⟨mem, s.live.erase bp⟩

/-- Nothing has been called. The program's memory ends at `top`. -/
def Program.init (ptr size : ℕ → ℕ) (top : ℕ) : Program := ⟨⟨ptr, size, 0, top, [], [], []⟩, []⟩

end Xv6.Umalloc
