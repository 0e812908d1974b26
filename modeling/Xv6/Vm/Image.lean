import Xv6.Vm.Vm

/-!
# What a process sees of its memory

An `Image` gives the contents of each page of a process, and what the process may do with them. It has
no page tables, no physical pages and no sharing: the operations below say what growing, shrinking,
reading and writing memory mean to the process.
-/

namespace Xv6.Vm

open Lib (Bytes)

/-- What a process sees of a page. -/
structure View where
  bytes : Page
  writable : Bool
  executable : Bool
  user : Bool

/-- What a process sees of its memory, by page. -/
abbrev Image : Type := ℕ → Option View

/-- The number of pages that `sz` bytes take. -/
def npages (sz : ℕ) : ℕ := (sz + (PGSIZE - 1)) / PGSIZE

namespace Image

/-- The image of a process without memory. -/
def empty : Image := fun _ => none

/-- The image with pages from `n` on removed. -/
def truncate (img : Image) (n : ℕ) : Image := fun v => if v < n then img v else none

/-- The image with zeroed pages from `n` up to `m` added. -/
def grow (img : Image) (n m xperm : ℕ) : Image := fun v =>
  if n ≤ v ∧ v < m then some ⟨Bytes.fill PGSIZE 0, xperm.testBit 2, xperm.testBit 3, true⟩ else img v

/-- The image with page `v` withdrawn from the user. -/
def clearUser (img : Image) (v : ℕ) : Image :=
  Function.update img v ((img v).map fun pg => { pg with user := false })

/-- The image with `n` bytes of page `v` replaced, from offset `off` on. -/
def setBytes (img : Image) (v off n : ℕ) (src : ℕ → UInt8) : Image :=
  Function.update img v ((img v).map fun pg => { pg with bytes := pg.bytes.splice off n src })

/-- The page at virtual address `va` if the user has access to it. -/
def userPage (img : Image) (va : ℕ) : Option View :=
  (img (va / PGSIZE)).filter (·.user)

/-- `len` bytes of `src` are stored from `dstva` on, page by page, up to the first page that the user
may not write. -/
def copyout (img : Image) : ℕ → ℕ → (ℕ → UInt8) → ℕ → ℤ × Image
  | 0, _, _, _ => (0, img)
  | fuel + 1, dstva, src, len =>
    if len = 0 then (0, img)
    else
      match (userPage img dstva).filter (·.writable) with
      | none => (-1, img)
      | some _ =>
        let n := min (PGSIZE - dstva % PGSIZE) len
        copyout (setBytes img (dstva / PGSIZE) (dstva % PGSIZE) n src) fuel
          (dstva / PGSIZE * PGSIZE + PGSIZE) (fun i => src (n + i)) (len - n)

/-- `len` bytes are read from `srcva` on, up to the first page that the user has no access to. -/
def copyin (img : Image) : ℕ → ℕ → ℕ → ℤ × List UInt8
  | 0, _, _ => (0, [])
  | fuel + 1, srcva, len =>
    if len = 0 then (0, [])
    else
      match userPage img srcva with
      | none => (-1, [])
      | some pg =>
        let n := min (PGSIZE - srcva % PGSIZE) len
        let r := copyin img fuel (srcva / PGSIZE * PGSIZE + PGSIZE) (len - n)
        (r.1, (List.range n).map (fun i => pg.bytes.get (srcva % PGSIZE + i)) ++ r.2)

/-- `copyin` for a string: the bytes up to the first zero, if that is among the first `max`. -/
def copyinstr (img : Image) : ℕ → ℕ → ℕ → ℤ × List UInt8
  | 0, _, _ => (-1, [])
  | fuel + 1, srcva, max =>
    if max = 0 then (-1, [])
    else
      match userPage img srcva with
      | none => (-1, [])
      | some pg =>
        let n := min (PGSIZE - srcva % PGSIZE) max
        let got := takeString pg.bytes n (srcva % PGSIZE)
        if got.getLast? = some 0 then (0, got)
        else
          let r := copyinstr img fuel (srcva / PGSIZE * PGSIZE + PGSIZE) (max - n)
          (r.1, got ++ r.2)

/-- The byte that the process reads at `va`. -/
def byte (img : Image) (va : ℕ) : Option UInt8 :=
  (userPage img va).map fun pg => pg.bytes.get (va % PGSIZE)

/-- The image after a store of `b` to `va`, if the process may write there. -/
def store (img : Image) (va : ℕ) (b : UInt8) : Option Image :=
  ((userPage img va).filter (·.writable)).map fun _ =>
    setBytes img (va / PGSIZE) (va % PGSIZE) 1 fun _ => b

end Image

end Xv6.Vm
