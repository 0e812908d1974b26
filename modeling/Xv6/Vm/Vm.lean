import Xv6.Vm.Kalloc

/-!
# The virtual-memory code

The functions of `kernel/vm.c`, and the store-fault branch of `usertrap` in `kernel/trap.c`, on
physical memory. Page tables are in physical pages, as 512 little-endian words each. A pointer to an
entry is its physical address, and the null pointer is 0.

The loops of the source run over pages; here they recurse on the number of pages that are left.
-/

namespace Xv6.Vm

open Function
open Lib (Bytes)

/-- The 64-bit word at physical address `a`. -/
def load64 (a : ℕ) : M ℕ := do
  return ((← get).mem (a / PGSIZE)).le (a % PGSIZE) 8

/-- `*a = v` for a 64-bit word. -/
def store64 (a v : ℕ) : M Unit :=
  modify fun s => { s with
    mem := update s.mem (a / PGSIZE) ((s.mem (a / PGSIZE)).setLe (a % PGSIZE) 8 v) }

/-- `memset(pa, c, PGSIZE)` -/
def memset (pa : ℕ) (c : UInt8) : M Unit :=
  modify fun s => { s with mem := update s.mem (pa / PGSIZE) (Bytes.fill PGSIZE c) }

/-- `memmove(dst, src, PGSIZE)` for two pages. -/
def copyPage (dst src : ℕ) : M Unit :=
  modify fun s => { s with mem := update s.mem (dst / PGSIZE) (s.mem (src / PGSIZE)) }

/-- The bytes `f 0`, `f 1`, ... `f (n - 1)` are stored from `pa` on, within one page. -/
def writeBytes (pa n : ℕ) (f : ℕ → UInt8) : M Unit :=
  modify fun s => { s with
    mem := update s.mem (pa / PGSIZE) ((s.mem (pa / PGSIZE)).splice (pa % PGSIZE) n f) }

/-! ## Page tables -/

/-- One round of the loop of `walk`: the page table of the next level, or `none` where there is none
and none is to be or can be allocated. -/
def walkStep (pagetable va level : ℕ) (alloc : Bool) : M (Option ℕ) := do
  let pte := pagetable + 8 * px level va
  let x ← load64 pte
  if has x PTE_V then return some (pte2pa x)
  else if !alloc then return none
  else
    let pg ← kalloc
    if pg = 0 then return none
    else
      memset pg 0
      store64 pte (pa2pte pg ||| PTE_V)
      return some pg

/-- `walk`: the address of the entry for `va`, or 0. -/
def walk (pagetable va : ℕ) (alloc : Bool) : M ℕ := do
  if va ≥ MAXVA then throw .walk
  else
    match ← walkStep pagetable va 2 alloc with
    | none => return 0
    | some pagetable =>
      match ← walkStep pagetable va 1 alloc with
      | none => return 0
      | some pagetable => return pagetable + 8 * px 0 va

/-- `walkaddr`: the physical address of a user page, or 0. -/
def walkaddr (pagetable va : ℕ) : M ℕ := do
  if va ≥ MAXVA then return 0
  else
    let pte ← walk pagetable va false
    if pte = 0 then return 0
    else
      let x ← load64 pte
      if !has x PTE_V then return 0
      else if !has x PTE_U then return 0
      else return pte2pa x

/-- The loop of `mappages`, with `n` pages to map. -/
def mapLoop (pagetable perm : ℕ) : ℕ → ℕ → ℕ → M ℤ
  | 0, _, _ => return 0
  | n + 1, a, pa => do
    let pte ← walk pagetable a true
    if pte = 0 then return -1
    else
      let x ← load64 pte
      if has x PTE_V then throw .remap
      else
        store64 pte (pa2pte pa ||| perm ||| PTE_V)
        mapLoop pagetable perm n (a + PGSIZE) (pa + PGSIZE)

/-- `mappages` -/
def mappages (pagetable va size pa perm : ℕ) : M ℤ := do
  if va % PGSIZE ≠ 0 then throw .mapVaAlign
  else if size % PGSIZE ≠ 0 then throw .mapSizeAlign
  else if size = 0 then throw .mapSize
  else mapLoop pagetable perm (size / PGSIZE) va pa

/-- The loop of `uvmunmap`, with `n` pages to unmap. -/
def unmapLoop (L : Layout) (pagetable : ℕ) (doFree : Bool) : ℕ → ℕ → M Unit
  | 0, _ => return
  | n + 1, a => do
    let pte ← walk pagetable a false
    if pte = 0 then throw .unmapWalk
    else
      let x ← load64 pte
      if !has x PTE_V then throw .unmapNotMapped
      else if pteFlags x = PTE_V then throw .unmapNotLeaf
      else
        if doFree then kfree L (pte2pa x)
        store64 pte 0
        unmapLoop L pagetable doFree n (a + PGSIZE)

/-- `uvmunmap`. The end of the range is a 64-bit sum. -/
def uvmunmap (L : Layout) (pagetable va npages : ℕ) (doFree : Bool) : M Unit := do
  if va % PGSIZE ≠ 0 then throw .unmapAlign
  else unmapLoop L pagetable doFree (((va + npages * PGSIZE) % 2 ^ 64 - va) / PGSIZE) va

/-- `uvmcreate` -/
def uvmcreate : M ℕ := do
  let pagetable ← kalloc
  if pagetable = 0 then return 0
  else
    memset pagetable 0
    return pagetable

/-- `uvmfirst`. The result of `kalloc` is not checked. -/
def uvmfirst (pagetable : ℕ) (src : ℕ → UInt8) (sz : ℕ) : M Unit := do
  if sz ≥ PGSIZE then throw .uvmfirst
  else
    let mem ← kalloc
    if mem = 0 then throw .null
    else
      memset mem 0
      let _ ← mappages pagetable 0 PGSIZE mem (PTE_W ||| PTE_R ||| PTE_X ||| PTE_U)
      writeBytes mem sz src

/-- A value stored in an `int` and then converted to `uint64`. -/
def viaInt (n : ℕ) : ℕ := if n % 2 ^ 32 < 2 ^ 31 then n % 2 ^ 32 else n % 2 ^ 32 + (2 ^ 64 - 2 ^ 32)

/-- `uvmdealloc` -/
def uvmdealloc (L : Layout) (pagetable oldsz newsz : ℕ) : M ℕ := do
  if newsz ≥ oldsz then return oldsz
  else
    if pgRoundUp newsz < pgRoundUp oldsz then
      let npages := viaInt ((pgRoundUp oldsz - pgRoundUp newsz) / PGSIZE)
      uvmunmap L pagetable (pgRoundUp newsz) npages true
    return newsz

/-- The loop of `uvmalloc`, with `n` pages to allocate; `oldsz` is already rounded up. -/
def allocLoop (L : Layout) (pagetable xperm oldsz newsz : ℕ) : ℕ → ℕ → M ℕ
  | 0, _ => return newsz
  | n + 1, a => do
    let mem ← kalloc
    if mem = 0 then
      let _ ← uvmdealloc L pagetable a oldsz
      return 0
    else
      memset mem 0
      if (← mappages pagetable a PGSIZE mem (PTE_R ||| PTE_U ||| xperm)) ≠ 0 then
        kfree L mem
        let _ ← uvmdealloc L pagetable a oldsz
        return 0
      else allocLoop L pagetable xperm oldsz newsz n (a + PGSIZE)

/-- `uvmalloc` -/
def uvmalloc (L : Layout) (pagetable oldsz newsz xperm : ℕ) : M ℕ := do
  if newsz < oldsz then return oldsz
  else
    let oldsz := pgRoundUp oldsz
    allocLoop L pagetable xperm oldsz newsz ((newsz - oldsz + (PGSIZE - 1)) / PGSIZE) oldsz

/-- The loop of `freewalk` over the entries from `i` on, `n` of them; `rec` is the recursive call. -/
def freeEntries (pagetable : ℕ) (rec : ℕ → M Unit) : ℕ → ℕ → M Unit
  | 0, _ => return
  | n + 1, i => do
    let pte ← load64 (pagetable + 8 * i)
    if has pte PTE_V && !has pte (PTE_R ||| PTE_W ||| PTE_X) then
      rec (pte2pa pte)
      store64 (pagetable + 8 * i) 0
    else if has pte PTE_V then throw .freewalkLeaf
    freeEntries pagetable rec n (i + 1)

/-- `freewalk`. The recursion is given its depth; a page table of three levels needs three. -/
def freewalk (L : Layout) : ℕ → ℕ → M Unit
  | 0, _ => throw .freewalkLeaf
  | depth + 1, pagetable => do
    freeEntries pagetable (freewalk L depth) 512 0
    kfree L pagetable

/-- `uvmfree` -/
def uvmfree (L : Layout) (pagetable sz : ℕ) : M Unit := do
  if sz > 0 then uvmunmap L pagetable 0 (pgRoundUp sz / PGSIZE) true
  freewalk L 3 pagetable

/-! ## Copy-on-write -/

/-- `page_refcnt[p] += 1` -/
def Phys.addRef (s : Phys) (p : ℕ) : Phys :=
  { s with refcnt := update s.refcnt p (s.refcnt p + 1) }

/-- The loop of `uvmcopy`, with `n` pages to copy from `i` on. -/
def copyLoop (L : Layout) (old new : ℕ) : ℕ → ℕ → M ℤ
  | 0, _ => return 0
  | n + 1, i => do
    let pte ← walk old i false
    if pte = 0 then throw .uvmcopyPte
    else
      let x ← load64 pte
      if !has x PTE_V then throw .uvmcopyPresent
      else
        let pa := pte2pa x
        if has x PTE_W then store64 pte ((x ^^^ PTE_W) ||| PTE_COW)
        let y ← load64 pte
        if (← mappages new i PGSIZE pa (pteFlags y)) ≠ 0 then
          uvmunmap L new 0 (i / PGSIZE) true
          return -1
        else
          modify fun s => s.addRef (pa / PGSIZE)
          copyLoop L old new n (i + PGSIZE)

/-- `uvmcopy`: the child gets the parent's pages, and both lose the right to write them. -/
def uvmcopy (L : Layout) (old new sz : ℕ) : M ℤ :=
  copyLoop L old new ((sz + (PGSIZE - 1)) / PGSIZE) 0

/-- `uvmclear` -/
def uvmclear (pagetable va : ℕ) : M Unit := do
  let pte ← walk pagetable va false
  if pte = 0 then throw .uvmclear
  else
    let x ← load64 pte
    store64 pte (x &&& (2 ^ 64 - 1 - PTE_U))

/-- The flags of a page that is no longer shared: `(flags & (~PTE_COW)) | PTE_W`, in a `uint`. -/
def ownedFlags (flags : ℕ) : ℕ := (flags &&& (2 ^ 32 - 1 - PTE_COW)) ||| PTE_W

/-- What `usertrap` and `copyout` both do once they have a new page `mem`: the shared page of entry `x`
is copied to it, and the copy takes its place at `va0`. -/
def remapCopy (L : Layout) (pagetable va0 x mem : ℕ) : M ℤ := do
  copyPage mem (pte2pa x)
  uvmunmap L pagetable va0 1 true
  mappages pagetable va0 PGSIZE mem (ownedFlags (pteFlags x))

/-- The branch of `usertrap` for a store page fault at `va`: whether the page is writable now and the
store can be retried. Otherwise the process is to be killed. Without memory the branch goes on with a
null pointer. -/
def storeFault (L : Layout) (pagetable va : ℕ) : M Bool := do
  if va ≥ MAXVA then return false
  else
    let pte ← walk pagetable va false
    if pte = 0 then throw .null
    else
      let x ← load64 pte
      if !has x PTE_COW then return false
      else
        let mem ← kalloc
        if mem = 0 then throw .null
        else if (← remapCopy L pagetable (pgRoundDown va) x mem) ≠ 0 then throw .null
        else return true

/-! ## Copying between kernel and user -/

/-- The part of `copyout`'s loop that makes a copy-on-write page writable, given the entry's address
and value: whether it succeeded. -/
def copyoutCow (L : Layout) (pagetable va0 x : ℕ) : M Bool := do
  if !has x PTE_W && has x PTE_COW then
    let mem ← kalloc
    if mem = 0 then return false
    else if (← remapCopy L pagetable va0 x mem) ≠ 0 then
      kfree L mem
      return false
    else return true
  else return true

/-- The loop of `copyout`; `fuel` bounds the number of pages, and `len` is enough. -/
def copyoutLoop (L : Layout) (pagetable : ℕ) : ℕ → ℕ → (ℕ → UInt8) → ℕ → M ℤ
  | 0, _, _, _ => return 0
  | fuel + 1, dstva, src, len => do
    if len = 0 then return 0
    else
      let va0 := pgRoundDown dstva
      if va0 ≥ MAXVA then return -1
      else
        let pte ← walk pagetable va0 false
        if pte = 0 then return -1
        else
          let x ← load64 pte
          if !has x PTE_V || !has x PTE_U || (!has x PTE_W && !has x PTE_COW) then return -1
          else if !(← copyoutCow L pagetable va0 x) then return -1
          else
            let pa0 := pte2pa (← load64 pte)
            let n := min (PGSIZE - (dstva - va0)) len
            writeBytes (pa0 + (dstva - va0)) n src
            copyoutLoop L pagetable fuel (va0 + PGSIZE) (fun i => src (n + i)) (len - n)

/-- `copyout`: `len` bytes of `src` go to virtual address `dstva`. -/
def copyout (L : Layout) (pagetable dstva : ℕ) (src : ℕ → UInt8) (len : ℕ) : M ℤ :=
  copyoutLoop L pagetable len dstva src len

/-- The loop of `copyin`: the return value and the bytes copied, oldest first. -/
def copyinLoop (pagetable : ℕ) : ℕ → ℕ → ℕ → M (ℤ × List UInt8)
  | 0, _, _ => return (0, [])
  | fuel + 1, srcva, len => do
    if len = 0 then return (0, [])
    else
      let va0 := pgRoundDown srcva
      let pa0 ← walkaddr pagetable va0
      if pa0 = 0 then return (-1, [])
      else
        let n := min (PGSIZE - (srcva - va0)) len
        let page := (← get).mem (pa0 / PGSIZE)
        let r ← copyinLoop pagetable fuel (va0 + PGSIZE) (len - n)
        return (r.1, (List.range n).map (fun i => page.get (srcva - va0 + i)) ++ r.2)

/-- `copyin`: `len` bytes from virtual address `srcva`. -/
def copyin (pagetable srcva len : ℕ) : M (ℤ × List UInt8) := copyinLoop pagetable len srcva len

/-- The bytes of `page` from `off` on, `n` at most, up to the first that is zero, which is included:
the inner loop of `copyinstr`. -/
def takeString (page : Page) : ℕ → ℕ → List UInt8
  | 0, _ => []
  | n + 1, off =>
    if page.get off = 0 then [0] else page.get off :: takeString page n (off + 1)

/-- The loop of `copyinstr`: the return value and the bytes copied. -/
def copyinstrLoop (pagetable : ℕ) : ℕ → ℕ → ℕ → M (ℤ × List UInt8)
  | 0, _, _ => return (-1, [])
  | fuel + 1, srcva, max => do
    if max = 0 then return (-1, [])
    else
      let va0 := pgRoundDown srcva
      let pa0 ← walkaddr pagetable va0
      if pa0 = 0 then return (-1, [])
      else
        let n := min (PGSIZE - (srcva - va0)) max
        let got := takeString ((← get).mem (pa0 / PGSIZE)) n (srcva - va0)
        if got.getLast? = some 0 then return (0, got)
        else
          let r ← copyinstrLoop pagetable fuel (va0 + PGSIZE) (max - n)
          return (r.1, got ++ r.2)

/-- `copyinstr`: the string at virtual address `srcva`, with its terminating zero, if that is among
the first `max` bytes. -/
def copyinstr (pagetable srcva max : ℕ) : M (ℤ × List UInt8) :=
  copyinstrLoop pagetable max srcva max

/-! ## User accesses -/

/-- The entry that the hardware finds for `va` with the page table in page `root`, or 0. -/
def pteAt (mem : ℕ → Page) (root va : ℕ) : ℕ :=
  let e2 := (mem root).le (8 * px 2 va) 8
  if va ≥ MAXVA then 0
  else if !has e2 PTE_V then 0
  else
    let e1 := (mem (ppn e2)).le (8 * px 1 va) 8
    if !has e1 PTE_V then 0 else (mem (ppn e1)).le (8 * px 0 va) 8

/-- The byte that a user load from `va` reads, if it does not fault. -/
def userByte (mem : ℕ → Page) (root va : ℕ) : Option UInt8 :=
  let e := pteAt mem root va
  if has e PTE_V && has e PTE_U && has e PTE_R then some ((mem (ppn e)).get (va % PGSIZE)) else none

/-- A user store of byte `b` to `va`, tried up to `n` times: a store that faults is tried again after
`usertrap` has handled the fault. The result is whether the byte was stored; otherwise the process is
to be killed. -/
def userStore (L : Layout) (pagetable va : ℕ) (b : UInt8) : ℕ → M Bool
  | 0 => return false
  | n + 1 => do
    let e := pteAt (← get).mem (pagetable / PGSIZE) va
    if has e PTE_V && has e PTE_U && has e PTE_W then
      writeBytes (pte2pa e + va % PGSIZE) 1 fun _ => b
      return true
    else if ← storeFault L pagetable va then userStore L pagetable va b n
    else return false

end Xv6.Vm
