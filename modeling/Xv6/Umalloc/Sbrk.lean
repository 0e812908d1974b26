import Xv6.Umalloc.System
import Xv6.Vm.Riscv

/-!
# The allocator on top of the kernel's `sbrk`

`malloc` with the `sbrk` that the kernel has: the number of bytes is an `int`, a positive one grows the
process if there is memory, a negative one shrinks it, or does nothing if the process is smaller than
that. `morecore` computes the bytes in 64 bits and passes them as an `int`, but records the units as they
were. Up to `2 ^ 31 - 16` bytes for a piece nothing is lost, and `malloc` is safe; above, the process
shrinks or is killed, or `malloc` returns memory that does not exist (`malloc_safe_iff`).
-/

namespace Xv6.Umalloc

open Function
open Lib (Ring)
open Vm (PGSIZE)

/-- The memory that `kalloc` has for all processes, `PHYSTOP - KERNBASE`. -/
def memory : ℕ := 0x8000000

/-- A process: the memory of the allocator, `p->sz`, and whether `uvmalloc` finds pages the next times
it is called. -/
structure Heap where
  mem : State
  sz : ℕ
  grants : List Bool

/-- A number of bytes as the argument of `sbrk`. -/
def asInt (n : ℕ) : ℤ := (BitVec.ofNat 32 n).toInt

/-- `growproc(n)` finds memory, for `n > 0`. -/
def Heap.granted (h : Heap) (n : ℤ) : Bool := h.grants.head? == some true && h.sz + n.toNat ≤ memory

/-- `sbrk(n)`, with `sys_sbrk` and `growproc`: the old size, or `none` for -1. -/
def Heap.sbrk (h : Heap) (n : ℤ) : Option ℕ × Heap :=
  if 0 < n then
    if h.granted n then (some h.sz, { h with sz := h.sz + n.toNat, grants := h.grants.tail })
    else (none, { h with grants := h.grants.tail })
  else if n < 0 then
    -- `uvmdealloc` does nothing if the new size wraps.
    (some h.sz, { h with sz := if -n ≤ h.sz then h.sz - (-n).toNat else h.sz })
  else (some h.sz, h)

/-- How a call ends. -/
inductive Ends (α : Type)
  | returns (a : α) (h : Heap)
  /-- The process is killed at a page fault. -/
  | faults (h : Heap)

/-- The size in the header at `hp` can be written: `hp->s.size` is in a page below `sz`. -/
def Heap.mapped (h : Heap) (hp : ℕ) : Bool := hp + 12 ≤ (h.sz + PGSIZE - 1) / PGSIZE * PGSIZE

/-- `hp->s.size = nu`, for a piece of memory from `sbrk`. -/
def State.piece (s : State) (hp nu : ℕ) : State :=
  State.setSize { s with top := hp + 16 * nu, pieces := (hp, nu) :: s.pieces } hp nu

/-- `morecore`: what it returns, 0 if there is no memory. -/
def Heap.morecore (fuel : ℕ) (h : Heap) (nu : ℕ) : Option (Ends ℕ) :=
  let nu := if nu < 4096 then 4096 else nu
  match h.sbrk (asInt (nu * 16)) with
  | (none, h) => some (.returns 0 h)
  | (some hp, h) =>
    if h.mapped hp then
      (free fuel (h.mem.piece hp nu) hp).map fun s => .returns s.freep { h with mem := s }
    else some (.faults h)

/-- The loop of `malloc`. -/
def Heap.mallocLoop (nunits : ℕ) : ℕ → Heap → ℕ → ℕ → Option (Ends (Option ℕ))
  | 0, _, _, _ => none
  | fuel + 1, h, prevp, p =>
    if h.mem.size p ≥ nunits then
      let r := take h.mem nunits prevp p
      some (.returns (some r.1) { h with mem := r.2 })
    else if p = h.mem.freep then
      match h.morecore fuel nunits with
      | none => none
      | some (.faults h) => some (.faults h)
      | some (.returns q h) =>
        if q = 0 then some (.returns none h) else mallocLoop nunits fuel h q (h.mem.ptr q)
    else mallocLoop nunits fuel h p (h.mem.ptr p)

/-- `malloc`: the header in front of the memory that it returns, or `none` for 0. -/
def Heap.malloc (base fuel nbytes : ℕ) (h : Heap) : Option (Ends (Option ℕ)) :=
  let s := start base h.mem
  mallocLoop (unitsFor nbytes) fuel { h with mem := s } s.freep (s.ptr s.freep)

/-- A call of `malloc(nbytes)` was safe: it has returned 0 or a block whose bytes lie in the memory from
`lo` on that the process has from `sbrk`, apart from the blocks in use, and the process did not shrink. -/
def Good (lo : ℕ) (h : Heap) (live : List ℕ) (nbytes : ℕ) : Ends (Option ℕ) → Prop
  | .returns r h' => h.sz ≤ h'.sz ∧ ∀ q, r = some q → lo ≤ q ∧ q + 16 + nbytes ≤ h'.sz ∧
      ∀ b ∈ live, q + 16 + nbytes ≤ b ∨ b + 16 * h'.mem.size b ≤ q
  | .faults _ => False

/-- A free block is large enough. -/
def Heap.fits (base : ℕ) (h : Heap) (nbytes : ℕ) : Prop :=
  ∃ k, unitsFor nbytes ≤ (start base h.mem).size ((start base h.mem).ptr^[k] (start base h.mem).freep)

/-- The bytes of a new piece for `nbytes`. -/
def pieceBytes (nbytes : ℕ) : ℕ := max (unitsFor nbytes) 4096 * 16

/-- A free block is large enough, the bytes of a new piece are a positive `int`, or they wrap to a
positive `int` and there is no memory. -/
def Admits (base : ℕ) (h : Heap) (nbytes : ℕ) : Prop :=
  h.fits base nbytes ∨ pieceBytes nbytes < 2 ^ 31 ∨
    0 < asInt (pieceBytes nbytes) ∧ h.granted (asInt (pieceBytes nbytes)) = false

/-! ## Runs -/

/-- A process with the blocks in use. -/
structure Process where
  heap : Heap
  live : List ℕ

/-- The process before a call of `malloc`, in which `uvmalloc` finds pages as `grants` says. -/
def Heap.call (h : Heap) (grants : List Bool) : Heap :=
  ⟨{ h.mem with sbrks := [], writes := [] }, h.sz, grants⟩

/-- What the program calls. It may grow by itself. -/
inductive Use
  | malloc (nbytes : ℕ) (grants : List Bool)
  | free (bp : ℕ)
  | sbrk (n : ℤ) (grants : List Bool)

/-- The calls of a process. -/
inductive Process.Step (base : ℕ) (P : Process) : Use → Process → Prop
  | malloc {nbytes fuel : ℕ} {grants : List Bool} {r : Option ℕ} {heap : Heap} (hn : nbytes < 2 ^ 32)
      (h : ∀ m, fuel ≤ m → (P.heap.call grants).malloc base m nbytes = some (.returns r heap)) :
      Step base P (.malloc nbytes grants) ⟨heap, r.toList ++ P.live⟩
  | free {bp fuel : ℕ} {mem : State} (hbp : bp ∈ P.live)
      (h : Umalloc.free fuel { P.heap.mem with writes := [] } bp = some mem) :
      Step base P (.free bp) ⟨{ P.heap with mem := mem }, P.live.erase bp⟩
  | sbrk {n : ℤ} {grants : List Bool} (hn : 0 ≤ n) :
      Step base P (.sbrk n grants) ⟨((P.heap.call grants).sbrk n).2, P.live⟩

/-- The calls of `malloc` satisfy the condition. -/
def Use.ok (base : ℕ) (P : Process) : Use → Prop
  | .malloc nbytes grants => Admits base (P.heap.call grants) nbytes
  | _ => True

/-- Nothing has been called. The process has `lo` bytes. -/
def Process.init (ptr size : ℕ → ℕ) (lo : ℕ) : Process := ⟨⟨⟨ptr, size, 0, lo, [], [], []⟩, lo, []⟩, []⟩

/-! ## `sbrk` -/

section Sbrk

variable {h h' : Heap} {n : ℤ} {hp m nbytes : ℕ}

theorem asInt_small (hm : m < 2 ^ 31) : asInt m = m := by
  have hnat : (BitVec.ofNat 32 m).toNat = m := by
    rw [BitVec.toNat_ofNat, Nat.mod_eq_of_lt (by omega)]
  rw [asInt, BitVec.toInt_eq_toNat_of_lt (by omega), hnat]

theorem sbrk_mem (h : Heap) (n : ℤ) : (h.sbrk n).2.mem = h.mem := by
  unfold Heap.sbrk
  split_ifs <;> rfl

theorem sbrk_none (hs : h.sbrk n = (none, h')) : 0 < n ∧ h.granted n = false ∧ h'.sz = h.sz := by
  unfold Heap.sbrk at hs
  split_ifs at hs with hpos hgrant <;> cases hs
  exact ⟨hpos, by simpa using hgrant, rfl⟩

/-- `sbrk` returns the old size. The process does not get larger than the memory. -/
theorem sbrk_some (hs : h.sbrk n = (some hp, h')) (hle : h.sz ≤ memory) :
    hp = h.sz ∧ h'.sz ≤ memory ∧ (0 < n → h.granted n = true ∧ h'.sz = h.sz + n.toNat) := by
  unfold Heap.sbrk at hs
  split_ifs at hs with hpos hgrant hneg hfit <;> cases hs
  · have hroom := hgrant
    rw [Heap.granted, Bool.and_eq_true, decide_eq_true_eq] at hroom
    exact ⟨rfl, hroom.2, fun _ => ⟨hgrant, rfl⟩⟩
  · exact ⟨rfl, (Nat.sub_le ..).trans hle, fun h0 => absurd h0 hpos⟩
  · exact ⟨rfl, hle, fun h0 => absurd h0 hpos⟩
  · exact ⟨rfl, hle, fun h0 => absurd h0 hpos⟩

end Sbrk

/-! ## The loop of `malloc` -/

section Loop

variable {base limit nunits f fuel : ℕ} {h h' : Heap} {s s' : State} {live xs : List ℕ} {prevp p k q : ℕ}

theorem free_pieces {bp : ℕ} (hs : free fuel s bp = some s') : s'.pieces = s.pieces ∧ s'.top = s.top := by
  obtain ⟨p, -, rfl⟩ := Option.map_eq_some_iff.mp hs
  unfold joinPrev joinNext
  split_ifs <;> exact ⟨rfl, rfl⟩

theorem take_pieces (s : State) (nunits prevp p : ℕ) :
    (take s nunits prevp p).2.pieces = s.pieces ∧ (take s nunits prevp p).2.top = s.top := by
  unfold take
  split_ifs <;> exact ⟨rfl, rfl⟩

theorem mallocLoop_walk (hinv : Inv base limit h.mem live xs) (hprev : prevp ∈ xs)
    (hp : h.mem.ptr prevp = p)
    (hfar : ∀ i < k, ¬nunits ≤ h.mem.size (h.mem.ptr^[i] p) ∧ h.mem.ptr^[i] p ≠ h.mem.freep) :
    ∃ prevp' ∈ xs, h.mem.ptr prevp' = h.mem.ptr^[k] p ∧ ∀ fuel,
      h.mallocLoop nunits (fuel + k) prevp p = h.mallocLoop nunits fuel prevp' (h.mem.ptr^[k] p) := by
  induction k generalizing prevp p with
  | zero => exact ⟨prevp, hprev, hp, fun _ => rfl⟩
  | succ k ih =>
    obtain ⟨hsmall, hne⟩ := hfar 0 (by omega)
    change ¬nunits ≤ h.mem.size p at hsmall
    change p ≠ h.mem.freep at hne
    have hmem : p ∈ xs := hp ▸ hinv.ring.next_mem hprev
    obtain ⟨prevp', hprev', hptr, hloop⟩ := ih hmem rfl fun i hi => hfar (i + 1) (by omega)
    refine ⟨prevp', hprev', hptr, fun fuel => ?_⟩
    rw [← Nat.add_assoc, Heap.mallocLoop, if_neg hsmall, if_neg hne]
    exact hloop fuel

theorem Inv.exists_end (hinv : Inv base limit s live xs) (nunits : ℕ) (hp : p ∈ xs) :
    ∃ k, (nunits ≤ s.size (s.ptr^[k] p) ∨ s.ptr^[k] p = s.freep) ∧
      ∀ i < k, ¬nunits ≤ s.size (s.ptr^[i] p) ∧ s.ptr^[i] p ≠ s.freep := by
  classical
  obtain ⟨j, hj⟩ := hinv.ring.reaches hp hinv.freep
  have hex : ∃ k, nunits ≤ s.size (s.ptr^[k] p) ∨ s.ptr^[k] p = s.freep := ⟨j, .inr hj⟩
  exact ⟨Nat.find hex, Nat.find_spec hex, fun i hi => not_or.mp (Nat.find_min hex hi)⟩

theorem mallocLoop_fits (hinv : Inv base limit h.mem live xs) (hn : 0 < nunits)
    (hfit : nunits ≤ h.mem.size (h.mem.ptr^[k] h.mem.freep)) :
    ∃ fuel q s', Allocs base limit nunits h.mem s' live (some q) ∧
      (s'.pieces = h.mem.pieces ∧ s'.top = h.mem.top) ∧ ∀ m, fuel ≤ m →
        h.mallocLoop nunits m h.mem.freep (h.mem.ptr h.mem.freep) =
          some (.returns (some q) { h with mem := s' }) := by
  obtain ⟨j, hstop, hfar⟩ := hinv.exists_end nunits (hinv.ring.next_mem hinv.freep)
  obtain ⟨prevp, hprev, hptr, hloop⟩ := mallocLoop_walk hinv hinv.freep rfl hfar
  have hhere : nunits ≤ h.mem.size (h.mem.ptr^[j] (h.mem.ptr h.mem.freep)) := by
    obtain hhere | hfreep := hstop
    · exact hhere
    · -- Otherwise the loop has gone around once without a block that is large enough.
      by_contra hsmall
      have hper : IsPeriodicPt h.mem.ptr (j + 1) h.mem.freep := hfreep
      rw [← hper.iterate_mod_apply k] at hfit
      cases hmod : k % (j + 1) with
      | zero =>
        rw [hmod] at hfit
        rw [hfreep] at hsmall
        exact hsmall hfit
      | succ i =>
        have hlt := Nat.mod_lt k (Nat.succ_pos j)
        rw [hmod] at hfit hlt
        exact (hfar i (by omega)).1 hfit
  refine ⟨j + 1, _, _, hinv.take hprev hptr hhere hn, take_pieces .., fun m hm => ?_⟩
  obtain ⟨m, rfl⟩ : ∃ i, m = i + 1 + j := ⟨m - j - 1, by omega⟩
  rw [hloop, Heap.mallocLoop, if_pos hhere]

theorem mallocLoop_around {r : Ends (Option ℕ)} (hinv : Inv base limit h.mem live xs)
    (hno : ∀ k, ¬nunits ≤ h.mem.size (h.mem.ptr^[k] h.mem.freep))
    (hmore : ∀ m prevp, f ≤ m → h.mallocLoop nunits (m + 1) prevp h.mem.freep = some r) :
    ∃ fuel, ∀ m, fuel ≤ m → h.mallocLoop nunits m h.mem.freep (h.mem.ptr h.mem.freep) = some r := by
  obtain ⟨j, hstop, hfar⟩ := hinv.exists_end nunits (hinv.ring.next_mem hinv.freep)
  obtain ⟨prevp, hprev, hptr, hloop⟩ := mallocLoop_walk hinv hinv.freep rfl hfar
  refine ⟨f + 1 + j, fun m hm => ?_⟩
  obtain ⟨m, rfl⟩ : ∃ i, m = i + 1 + j := ⟨m - j - 1, by omega⟩
  rw [hloop, hstop.resolve_left (hno (j + 1))]
  exact hmore m prevp (by omega)

theorem nu_eq (n : ℕ) : (if n < 4096 then 4096 else n) = max n 4096 := by
  split_ifs <;> omega

theorem morecore_none (hs : h.sbrk (asInt (max nunits 4096 * 16)) = (none, h')) (m : ℕ) :
    h.morecore m nunits = some (.returns 0 h') := by
  unfold Heap.morecore
  dsimp only
  rw [nu_eq, hs]

theorem morecore_faults {hp : ℕ} (hs : h.sbrk (asInt (max nunits 4096 * 16)) = (some hp, h'))
    (hmap : ¬h'.mapped hp = true) (m : ℕ) : h.morecore m nunits = some (.faults h') := by
  unfold Heap.morecore
  dsimp only
  rw [nu_eq, hs]
  exact if_neg hmap

/-- What the allocator takes for a new piece of memory, at `hp`, is among the free blocks. -/
structure Grows (base limit nunits : ℕ) (s s' : State) (hp : ℕ) (live : List ℕ) : Prop where
  inv : ∃ xs, Inv base limit s' live xs
  size : ∀ b ∈ live, s'.size b = s.size b
  freep : s'.freep ≠ 0
  fit : ∃ k, nunits ≤ s'.size (s'.ptr^[k] s'.freep)
  pieces : s'.pieces = (hp, max nunits 4096) :: s.pieces
  top : s'.top = hp + 16 * max nunits 4096

theorem morecore_grows {hp : ℕ} (hinv : Inv base limit h.mem live xs) (hbase : 0 < base)
    (hlim : limit < 2 ^ 32) (hs : h.sbrk (asInt (max nunits 4096 * 16)) = (some hp, h'))
    (hmap : h'.mapped hp = true) (htop : h.mem.top ≤ hp) (hunits : h.mem.units + max nunits 4096 ≤ limit) :
    ∃ fuel s', Grows base limit nunits h.mem s' hp live ∧ ∀ m, fuel ≤ m →
      h.morecore m nunits = some (.returns s'.freep { h' with mem := s' }) := by
  have hmem : h'.mem = h.mem := by
    have := sbrk_mem h (asInt (max nunits 4096 * 16))
    rwa [hs] at this
  obtain ⟨hgrow, hne, -⟩ := hinv.grow h.mem.sbrks htop (by omega) hunits
  obtain ⟨fuel, s', hfree⟩ := hgrow.free_returns
  have hfrees := hgrow.free hlim (hfree fuel le_rfl)
  obtain ⟨xs', hinv'⟩ := hfrees.inv
  have hpieces := free_pieces (hfree fuel le_rfl)
  have hself : update h.mem.size hp (max nunits 4096) hp = max nunits 4096 := update_self ..
  refine ⟨fuel, s', ⟨hfrees.inv, fun b hb => ?_, ?_, ?_, hpieces.1, hpieces.2⟩, fun m hm => ?_⟩
  · rw [hfrees.size b hb]
    exact update_of_ne (hne b hb) ..
  · by_cases hb : s'.freep = base
    · omega
    · have := hinv'.base_lt_free hinv'.freep hb
      omega
  · have hfit := hfrees.fit
    change update h.mem.size hp (max nunits 4096) hp ≤ _ ∨
      update h.mem.size hp (max nunits 4096) hp ≤ _ at hfit
    rw [hself] at hfit
    obtain hfit | hfit := hfit
    · exact ⟨0, (le_max_left ..).trans hfit⟩
    · exact ⟨1, (le_max_left ..).trans hfit⟩
  · unfold Heap.morecore
    dsimp only
    rw [nu_eq, hs]
    dsimp only
    rw [hmap, if_pos rfl, hmem]
    have := hfree m hm
    change free m (h.mem.piece hp (max nunits 4096)) hp = some s' at this
    rw [this]
    rfl

end Loop

/-! ## The process between calls -/

section Process

variable {base limit lo nbytes q b : ℕ} {h h' : Heap} {s s' : State} {live xs : List ℕ} {P P' : Process}
  {grants : List Bool}

/-- The memory of the allocator is memory of the process, from `lo` on. -/
structure Owns (lo : ℕ) (h : Heap) : Prop where
  top : h.mem.top ≤ h.sz
  units : 16 * h.mem.units ≤ h.sz
  le : h.sz ≤ memory
  lo_le : lo ≤ h.sz
  lo : ∀ x, h.mem.total (covers x) ≠ 0 → lo ≤ x

theorem Owns.congr (ho : Owns lo h) (hsz : h'.sz = h.sz) (hpieces : h'.mem.pieces = h.mem.pieces)
    (htop : h'.mem.top = h.mem.top) : Owns lo h' where
  top := by
    rw [htop, hsz]
    exact ho.top
  units := by
    rw [State.units, hpieces, hsz]
    exact ho.units
  le := hsz.trans_le ho.le
  lo_le := ho.lo_le.trans_eq hsz.symm
  lo x hx := by
    rw [State.total, hpieces] at hx
    exact ho.lo x hx

theorem Owns.grow {nu : ℕ} (ho : Owns lo h) (hle : h'.sz ≤ memory) (hsz : h'.sz = h.sz + 16 * nu)
    (hpieces : s.pieces = (h.sz, nu) :: h.mem.pieces) (htop : s.top = h.sz + 16 * nu) :
    Owns lo { h' with mem := s } where
  top := by
    change s.top ≤ h'.sz
    omega
  units := by
    have := ho.units
    unfold State.units at this ⊢
    dsimp only
    rw [hpieces, List.map_cons, List.sum_cons]
    omega
  le := hle
  lo_le := by
    have := ho.lo_le
    change lo ≤ h'.sz
    omega
  lo x hx := by
    have hlo := ho.lo_le
    change s.total (covers x) ≠ 0 at hx
    unfold State.total at hx
    rw [hpieces, List.map_cons, List.sum_cons] at hx
    by_cases hold : h.mem.total (covers x) = 0
    · unfold State.total at hold
      rw [hold, covers] at hx
      split_ifs at hx <;> omega
    · exact ho.lo x hold

theorem Inv.block_in (hinv : Inv base limit h.mem live xs) (ho : Owns lo h) (hb : b ∈ live) :
    lo ≤ b ∧ b + 16 * h.mem.size b ≤ h.sz := by
  have hpos := hinv.live_pos b hb
  have hcov : ∀ x, b ≤ x → x < b + 16 * h.mem.size b → h.mem.total (covers x) ≠ 0 := by
    intro x hx hx'
    have hone : covers x b (h.mem.size b) = 1 := if_pos ⟨hx, hx'⟩
    have h1 := le_total (covers x) h.mem.size hb
    have h2 := hinv.total _ (additive_covers x)
    omega
  have hlast := (hinv.low _ (hcov (b + 16 * h.mem.size b - 1) (by omega) (by omega))).2
  have htop := ho.top
  exact ⟨ho.lo b (hcov b le_rfl (by omega)), by omega⟩

theorem Inv.blocks_apart (hinv : Inv base limit s (q :: live) xs) (hb : b ∈ live) :
    q + 16 * s.size q ≤ b ∨ b + 16 * s.size b ≤ q := by
  have hq := hinv.live_pos q List.mem_cons_self
  have hpos := hinv.live_pos b (List.mem_cons_of_mem _ hb)
  by_contra hnot
  rw [not_or] at hnot
  -- Both blocks cover the larger one of their addresses.
  have hboth : ∀ x, ¬(covers x q (s.size q) = 1 ∧ covers x b (s.size b) = 1) := by
    intro x hx
    have h1 := le_total (covers x) s.size hb
    have h2 := hinv.total _ (additive_covers x)
    have h3 := hinv.once x
    rw [total_cons] at h2
    omega
  refine hboth (max q b) ⟨if_pos ?_, if_pos ?_⟩ <;> omega

/-- What holds between calls. -/
structure Sound (base lo : ℕ) (P : Process) : Prop where
  owns : Owns lo P.heap
  keeps : Keeps base (2 ^ 30) ⟨P.heap.mem, P.live⟩

theorem Allocs.good (ha : Allocs base limit (unitsFor nbytes) s s' live (some q))
    (ho : Owns lo { h' with mem := s' }) (hsz : h.sz ≤ h'.sz) :
    Good lo h live nbytes (.returns (some q) { h' with mem := s' }) := by
  obtain ⟨xs, hinv⟩ := ha.inv
  have hsize := ha.got q rfl
  have hbytes : 16 + nbytes ≤ 16 * s'.size q := by
    rw [hsize, unitsFor]
    omega
  obtain ⟨hlo, hin⟩ := Inv.block_in (h := { h' with mem := s' }) hinv ho List.mem_cons_self
  dsimp only at hin
  refine ⟨hsz, fun q' hq => ?_⟩
  cases hq
  refine ⟨hlo, by dsimp only; omega, fun b hb => ?_⟩
  exact (Inv.blocks_apart hinv hb).imp (fun hle => by omega) id

theorem not_good (hbig : 2 ^ 31 ≤ pieceBytes nbytes) (hle : h'.sz ≤ memory) :
    ¬Good lo h live nbytes (.returns (some q) h') := by
  intro hgood
  obtain ⟨-, hin, -⟩ := hgood.2 q rfl
  have : memory = 2 ^ 27 := rfl
  unfold pieceBytes unitsFor at hbig
  omega

theorem start_pieces (base : ℕ) (s : State) :
    (start base s).pieces = s.pieces ∧ (start base s).top = s.top := by
  unfold start
  split_ifs <;> exact ⟨rfl, rfl⟩

theorem mapped_piece {n : ℕ} (hn : 12 ≤ n) (hsz : h'.sz = h.sz + n) : h'.mapped h.sz = true := by
  rw [Heap.mapped, decide_eq_true_eq, hsz]
  have : PGSIZE = 4096 := rfl
  rw [this]
  omega

/-- How a call of `malloc` ends: well, if and only if the condition holds. -/
theorem Sound.malloc_ends (hS : Sound base lo P) (hbase : 0 < base) (hn : nbytes < 2 ^ 32)
    (grants : List Bool) :
    ∃ fuel r, (∀ m, fuel ≤ m → (P.heap.call grants).malloc base m nbytes = some r) ∧
      (Admits base (P.heap.call grants) nbytes → Good lo (P.heap.call grants) P.live nbytes r ∧
        ∀ q h', r = .returns q h' → Sound base lo ⟨h', q.toList ++ P.live⟩) ∧
      (¬Admits base (P.heap.call grants) nbytes → ¬Good lo (P.heap.call grants) P.live nbytes r) := by
  obtain ⟨⟨xs, hinv⟩, -, -⟩ := hS.keeps.start hbase []
  obtain ⟨hpieces, htop⟩ := start_pieces base (P.heap.call grants).mem
  set h : Heap := { P.heap.call grants with mem := start base (P.heap.call grants).mem } with hh
  change Inv base (2 ^ 30) h.mem P.live xs at hinv
  have ho : Owns lo h := hS.owns.congr rfl hpieces htop
  have hunits : h.mem.units + max (unitsFor nbytes) 4096 ≤ 2 ^ 30 := by
    have h1 := ho.units
    have h2 := ho.le
    rw [show memory = 2 ^ 27 from rfl] at h2
    unfold unitsFor
    omega
  by_cases hfits : (P.heap.call grants).fits base nbytes
  · -- A free block is taken.
    obtain ⟨k, hk⟩ := hfits
    obtain ⟨fuel, q, s', ha, hs', hloop⟩ := mallocLoop_fits (h := h) hinv (Nat.succ_pos _) hk
    have ho' : Owns lo { h with mem := s' } := ho.congr rfl hs'.1 hs'.2
    refine ⟨fuel, _, hloop, fun _ => ⟨ha.good ho' le_rfl, fun q' h' heq => ?_⟩,
      fun hnot => absurd (.inl ⟨k, hk⟩) hnot⟩
    cases heq
    exact ⟨ho', .inr ha.inv⟩
  have hno : ∀ k, ¬unitsFor nbytes ≤ h.mem.size (h.mem.ptr^[k] h.mem.freep) := not_exists.mp hfits
  have hfirst : ¬unitsFor nbytes ≤ h.mem.size h.mem.freep := hno 0
  cases hs : h.sbrk (asInt (max (unitsFor nbytes) 4096 * 16)) with
  | mk res h1 =>
  have hmem : h1.mem = h.mem := by
    have := sbrk_mem h (asInt (max (unitsFor nbytes) 4096 * 16))
    rwa [hs] at this
  cases res with
  | none =>
    -- There is no memory, and `malloc` returns 0.
    obtain ⟨hpos, hgrant, hsz⟩ := sbrk_none hs
    obtain ⟨fuel, hloop⟩ := mallocLoop_around (f := 0) hinv hno fun m prevp _ => by
      rw [Heap.mallocLoop, if_neg hfirst, if_pos rfl, morecore_none hs]
      exact if_pos rfl
    have ho' : Owns lo h1 := ho.congr hsz (by rw [hmem]) (by rw [hmem])
    refine ⟨fuel, _, hloop, fun _ => ⟨⟨hsz.ge, fun q hq => (by cases hq)⟩, fun q' h' heq => ?_⟩,
      fun hnot => absurd (.inr (.inr ⟨hpos, hgrant⟩)) hnot⟩
    cases heq
    refine ⟨ho', .inr ⟨xs, ?_⟩⟩
    rw [hmem]
    exact hinv
  | some hp =>
    obtain ⟨rfl, hle, hgrow⟩ := sbrk_some hs ho.le
    -- With memory, the condition says that the bytes of the piece are a positive `int`.
    have hsmall : Admits base (P.heap.call grants) nbytes → pieceBytes nbytes < 2 ^ 31 := by
      intro hadmits
      obtain hf | hsmall | ⟨hpos, hgrant⟩ := hadmits
      · exact absurd hf hfits
      · exact hsmall
      · exact absurd (hgrow hpos).1 (Bool.not_eq_true _ ▸ hgrant)
    have hsz : pieceBytes nbytes < 2 ^ 31 → h1.sz = h.sz + 16 * max (unitsFor nbytes) 4096 := by
      intro hlt
      have hint : asInt (max (unitsFor nbytes) 4096 * 16) = (max (unitsFor nbytes) 4096 * 16 : ℕ) :=
        asInt_small hlt
      rw [(hgrow (by rw [hint]; omega)).2, hint]
      omega
    by_cases hmap : h1.mapped h.sz = true
    · -- The new block is put among the free ones, and then it is taken.
      obtain ⟨fuel, s', hg, hmore⟩ := morecore_grows hinv hbase (by omega) hs hmap ho.top hunits
      obtain ⟨xs', hinv'⟩ := hg.inv
      obtain ⟨k, hk⟩ := hg.fit
      obtain ⟨fuel', q, s'', ha, hs'', hrest⟩ :=
        mallocLoop_fits (h := { h1 with mem := s' }) hinv' (Nat.succ_pos _) hk
      obtain ⟨fuel'', hloop⟩ := mallocLoop_around (f := max fuel fuel') hinv hno fun m prevp hm => by
        rw [Heap.mallocLoop, if_neg hfirst, if_pos rfl, hmore m (by omega)]
        exact (if_neg hg.freep).trans (hrest m (by omega))
      refine ⟨fuel'', _, hloop, fun hadmits => ?_, fun hnot => not_good ?_ hle⟩
      · have hgrown := hsz (hsmall hadmits)
        have ho' : Owns lo { h1 with mem := s' } := ho.grow hle hgrown hg.pieces hg.top
        have ho'' : Owns lo { h1 with mem := s'' } := ho'.congr rfl hs''.1 hs''.2
        refine ⟨ha.good ho'' (by rw [hgrown]; exact Nat.le_add_right ..), fun q' h' heq => ?_⟩
        cases heq
        exact ⟨ho'', .inr ha.inv⟩
      · by_contra hlt
        exact hnot (.inr (.inl (by omega)))
    · -- The header is not mapped.
      obtain ⟨fuel, hloop⟩ := mallocLoop_around (f := 0) hinv hno fun m prevp _ => by
        rw [Heap.mallocLoop, if_neg hfirst, if_pos rfl, morecore_faults hs hmap]
      refine ⟨fuel, _, hloop, fun hadmits => ?_, fun _ => id⟩
      exact absurd (mapped_piece (by omega) (hsz (hsmall hadmits))) hmap

theorem Sound.step {u : Use} (hS : Sound base lo P) (hbase : 0 < base) (hok : u.ok base P)
    (hs : P.Step base u P') : Sound base lo P' := by
  cases hs with
  | @malloc nbytes fuel grants r heap hn hm =>
    obtain ⟨fuel', e, hloop, hgood, -⟩ := hS.malloc_ends hbase hn grants
    have heq : some e = some (.returns r heap) := by
      rw [← hloop (max fuel fuel') (by omega), hm _ (by omega)]
    exact (hgood hok).2 r heap (Option.some.inj heq)
  | @free bp fuel mem hbp hf =>
    obtain ⟨xs, hinv⟩ := hS.keeps.of_live hbp
    obtain ⟨hpieces, htop⟩ := free_pieces hf
    exact ⟨hS.owns.congr rfl hpieces htop, .inr (hinv.free (by omega) hf).inv⟩
  | @sbrk n grants hn =>
    have hmem : ((P.heap.call grants).sbrk n).2.mem = (P.heap.call grants).mem := sbrk_mem ..
    have hsz : P.heap.sz ≤ ((P.heap.call grants).sbrk n).2.sz ∧
        ((P.heap.call grants).sbrk n).2.sz ≤ memory := by
      cases hs : (P.heap.call grants).sbrk n with
      | mk res h1 =>
      cases res with
      | none =>
        obtain ⟨-, -, hsz⟩ := sbrk_none hs
        exact ⟨hsz.ge, hsz.trans_le hS.owns.le⟩
      | some hp =>
        obtain ⟨-, hle, hgrow⟩ := sbrk_some hs hS.owns.le
        refine ⟨?_, hle⟩
        by_cases hpos : 0 < n
        · rw [(hgrow hpos).2]
          exact Nat.le_add_right ..
        · obtain rfl : n = 0 := by omega
          cases hs
          exact le_rfl
    have ho := hS.owns
    refine ⟨⟨?_, ?_, hsz.2, ho.lo_le.trans hsz.1, ?_⟩, ?_⟩ <;> dsimp only <;> rw [hmem]
    · exact ho.top.trans hsz.1
    · exact ho.units.trans hsz.1
    · exact ho.lo
    · obtain hf | ⟨xs, hinv⟩ := hS.keeps
      · exact .inl ⟨hf.freep, hf.live, hf.pieces, hf.top⟩
      · exact .inr ⟨xs, hinv.call _ _⟩

end Process

/-- **When `malloc` is safe.** In every run in which the calls of `malloc` satisfy the condition, the next
call of `malloc` with any `uint` ends, and it ends well if and only if it satisfies the condition. -/
theorem malloc_safe_iff (base lo : ℕ) (ptr size : ℕ → ℕ) (P : Process) (hbase : 0 < base)
    (hlo : base + 16 ≤ lo) (hle : lo ≤ memory)
    (hP : Lib.Reach (Process.init ptr size lo) (Process.Step base) (fun P u => u.ok base P) P)
    (nbytes : ℕ) (hn : nbytes < 2 ^ 32) (grants : List Bool) :
    ∃ fuel r, (∀ m, fuel ≤ m → (P.heap.call grants).malloc base m nbytes = some r) ∧
      (Good lo (P.heap.call grants) P.live nbytes r ↔ Admits base (P.heap.call grants) nbytes) := by
  have hinit : Sound base lo (Process.init ptr size lo) :=
    ⟨⟨le_rfl, Nat.zero_le _, hle, le_rfl, fun x hx => absurd rfl hx⟩, .inl ⟨rfl, rfl, rfl, hlo⟩⟩
  have hS : Sound base lo P :=
    hP.invariant (P := Sound base lo) hinit fun _ _ _ hs hok hst => hs.step hbase hok hst
  obtain ⟨fuel, r, hloop, hgood, hbad⟩ := hS.malloc_ends hbase hn grants
  refine ⟨fuel, r, hloop, fun hr => ?_, fun hadmits => (hgood hadmits).1⟩
  by_contra hnot
  exact hbad hnot hr

/-- The first `malloc(8)` of a process with four pages. -/
theorem malloc_safe_iff_first : ∃ fuel r, (∀ m, fuel ≤ m →
      ((Process.init (fun _ => 0) (fun _ => 0) 0x4000).heap.call [true]).malloc 16 m 8 = some r) ∧
    Good 0x4000 ((Process.init (fun _ => 0) (fun _ => 0) 0x4000).heap.call [true]) [] 8 r := by
  obtain ⟨fuel, r, hloop, hiff⟩ := malloc_safe_iff 16 0x4000 (fun _ => 0) (fun _ => 0) _
    (by decide) (by decide) (by decide) .init 8 (by decide) [true]
  exact ⟨fuel, r, hloop, hiff.mpr (.inr (.inl (by decide)))⟩

/-- The first `malloc(4294967264)` of a process with four pages asks `sbrk` for -16 bytes: the process
shrinks, and is killed when the header is written. -/
theorem malloc_shrinks : ∃ h', (∀ m, 2 ≤ m →
      ((Process.init (fun _ => 0) (fun _ => 0) 0x4000).heap.call []).malloc 16 m 4294967264 =
        some (.faults h')) ∧
    h'.sz < ((Process.init (fun _ => 0) (fun _ => 0) 0x4000).heap.call []).sz ∧
    ¬Good 0x4000 ((Process.init (fun _ => 0) (fun _ => 0) 0x4000).heap.call []) [] 4294967264
      (.faults h') := by
  refine ⟨{ mem := start 16 ((Process.init (fun _ => 0) (fun _ => 0) 0x4000).heap.call []).mem,
            sz := 0x3ff0, grants := [] }, fun m hm => ?_, by decide, id⟩
  obtain ⟨m, rfl⟩ : ∃ i, m = i + 2 := ⟨m - 2, by omega⟩
  rfl

end Xv6.Umalloc
