import Xv6.Lib.Bytes
import Xv6.Lib.Wp
import Xv6.Vm.Riscv

/-!
# The physical page allocator

`kernel/kalloc.c`: the free list threaded through the free pages, and the reference counts that
copy-on-write added. `Acct L s c` is the allocator's invariant for an ownership `c`, which gives each
page the number of its owners: the pages without an owner are on the free list, each once, and the
reference count of every page is the number of its owners. `kalloc` adds an owner to a page that had
none, `kfree` takes one away.
-/

namespace Xv6.Vm

open Function Lib

/-- The contents of a page. -/
abbrev Page : Type := Bytes PGSIZE

/-- Where the linker puts the kernel: `end`, `etext` and the trampoline page, which is in the text. -/
structure Layout where
  kend : ℕ
  etext : ℕ
  trampoline : ℕ
  base_lt : KERNBASE < etext
  etext_lt : etext < kend
  kend_le : kend ≤ PHYSTOP
  etext_aligned : etext % PGSIZE = 0
  trampoline_aligned : trampoline % PGSIZE = 0
  trampoline_ge : KERNBASE ≤ trampoline
  trampoline_lt : trampoline < etext

/-- Physical memory, by page number, and the allocator's data: `kmem.freelist`, as an address, and
`page_refcnt`. `oom` records whether `kalloc` has ever returned 0. -/
structure Phys where
  mem : ℕ → Page
  freelist : ℕ
  refcnt : ℕ → ℕ
  oom : Bool

/-- The panics of the virtual-memory code, and the kernel fault of an access through address 0. -/
inductive Panic
  | kfree
  | walk
  | mapVaAlign
  | mapSizeAlign
  | mapSize
  | remap
  | unmapAlign
  | unmapWalk
  | unmapNotMapped
  | unmapNotLeaf
  | freewalkLeaf
  | uvmfirst
  | uvmcopyPte
  | uvmcopyPresent
  | uvmclear
  | loadseg
  | kvmmap
  | mapstacks
  | virtio
  | initExiting
  | null
  deriving DecidableEq

/-- Code that runs on physical memory and may panic. -/
abbrev M : Type → Type := StateT Phys (Except Panic)

/-- `kalloc`: the first page of the free list, filled with junk, or 0. -/
def kalloc : M ℕ := do
  let s ← get
  let r := s.freelist
  if r ≠ 0 then
    set { s with
      mem := update s.mem (r / PGSIZE) (Bytes.fill PGSIZE 5)
      freelist := (s.mem (r / PGSIZE)).le 0 8
      refcnt := update s.refcnt (r / PGSIZE) 1 }
  else
    set { s with refcnt := update s.refcnt (r / PGSIZE) 1, oom := true }
  return r

/-- `kfree`: drop a reference; a page without references goes to the front of the free list. -/
def kfree (L : Layout) (pa : ℕ) : M Unit := do
  let i := pa / PGSIZE
  modify fun s =>
    if s.refcnt i > 0 then { s with refcnt := update s.refcnt i (s.refcnt i - 1) } else s
  let s ← get
  if s.refcnt i > 0 then return
  else if pa % PGSIZE ≠ 0 ∨ pa < L.kend ∨ pa ≥ PHYSTOP then throw .kfree
  else
    set { s with
      mem := update s.mem i ((Bytes.fill PGSIZE 1).setLe 0 8 s.freelist)
      freelist := pa }

/-- The loop of `freerange`, for `n` pages from `p` on. -/
def freePages (L : Layout) : ℕ → ℕ → M Unit
  | 0, _ => return
  | n + 1, p => do
    kfree L p
    freePages L n (p + PGSIZE)

/-- `freerange(pa_start, pa_end)`. -/
def freerange (L : Layout) (paStart paEnd : ℕ) : M Unit :=
  freePages L ((paEnd - pgRoundUp paStart) / PGSIZE) (pgRoundUp paStart)

/-- `kinit`. -/
def kinit (L : Layout) : M Unit := freerange L L.kend PHYSTOP

/-- Memory before `kinit`: the static data is zeroed. -/
def Phys.reset (mem : ℕ → Page) : Phys := ⟨mem, 0, fun _ => 0, false⟩

/-! ## Ownership -/

/-- The pages that the allocator manages. -/
def InRam (L : Layout) (p : ℕ) : Prop := pgRoundUp L.kend ≤ p * PGSIZE ∧ p * PGSIZE < PHYSTOP

/-- One owner of page `p`. -/
def ref (p : ℕ) : ℕ → ℕ := fun q => if q = p then 1 else 0

/-- The chain of free pages from address `a` on consists of the pages `l`. -/
def Chain (mem : ℕ → Page) : ℕ → List ℕ → Prop
  | a, [] => a = 0
  | a, p :: l => a = p * PGSIZE ∧ p ≠ 0 ∧ Chain mem ((mem p).le 0 8) l

/-- The allocator's data is right for the ownership `c`. -/
structure Acct (L : Layout) (s : Phys) (c : ℕ → ℕ) : Prop where
  free : ∃ l, Chain s.mem s.freelist l ∧ l.Nodup ∧ ∀ p, p ∈ l ↔ InRam L p ∧ c p = 0
  refcnt : ∀ p, InRam L p → s.refcnt p = c p
  inRam : ∀ p, c p ≠ 0 → InRam L p

section Basic

variable {L : Layout} {s : Phys} {c : ℕ → ℕ} {p q : ℕ}

@[simp]
theorem ref_self (p : ℕ) : ref p p = 1 := if_pos rfl

theorem ref_of_ne (h : q ≠ p) : ref p q = 0 := if_neg h

theorem pgsize_pos : 0 < PGSIZE := by norm_num [PGSIZE]

theorem mul_div_pgsize (p : ℕ) : p * PGSIZE / PGSIZE = p := Nat.mul_div_cancel p pgsize_pos

/-- The pages that the allocator manages lie above the kernel, so their numbers are not 0. -/
theorem InRam.kend_le (h : InRam L p) : L.kend ≤ p * PGSIZE := by
  have h1 := h.1
  have h2 := L.kend_le
  unfold pgRoundUp PGSIZE at h1
  unfold PHYSTOP KERNBASE at h2
  unfold PGSIZE
  omega

theorem InRam.pos (h : InRam L p) : p ≠ 0 := by
  have h1 := h.kend_le
  have h2 := L.base_lt
  have h3 := L.etext_lt
  unfold PGSIZE at h1
  omega

theorem InRam.lt (h : InRam L p) : p < 0x88000 := by
  have h2 := h.2
  unfold PGSIZE PHYSTOP KERNBASE at h2
  omega

theorem Chain.congr {mem mem' : ℕ → Page} {a : ℕ} {l : List ℕ} (h : Chain mem a l)
    (hmem : ∀ p ∈ l, mem' p = mem p) : Chain mem' a l := by
  induction l generalizing a with
  | nil => exact h
  | cons p l ih =>
    obtain ⟨h1, h2, h3⟩ := h
    refine ⟨h1, h2, ?_⟩
    rw [hmem p (by simp)]
    exact ih h3 fun q hq => hmem q (by simp [hq])

/-- A page that is put in front of the free list. -/
theorem Chain.push {mem : ℕ → Page} {a : ℕ} {l : List ℕ} (h : Chain mem a l) (hram : ∀ q ∈ l, InRam L q)
    (hp : InRam L p) (hpl : p ∉ l) :
    Chain (update mem p ((Bytes.fill PGSIZE 1).setLe 0 8 a)) (p * PGSIZE) (p :: l) := by
  have hnext : ((Bytes.fill PGSIZE 1).setLe 0 8 a).le 0 8 = a := by
    rw [Bytes.le_setLe _ _ _ _ (by decide), Nat.mod_eq_of_lt]
    cases l with
    | nil => simp [show a = 0 from h]
    | cons q l =>
      rw [h.1]
      exact (hram q (by simp)).2.trans (by decide)
  refine ⟨rfl, hp.pos, ?_⟩
  rw [update_self, hnext]
  refine h.congr fun q hq => update_of_ne ?_ _ _
  rintro rfl
  exact hpl hq

/-- The address of a page of RAM passes the checks of `kfree`. -/
theorem InRam.valid (h : InRam L p) :
    ¬ (p * PGSIZE % PGSIZE ≠ 0 ∨ p * PGSIZE < L.kend ∨ p * PGSIZE ≥ PHYSTOP) := by
  have h1 := h.kend_le
  have h2 := h.2
  rw [Nat.mul_mod_left]
  omega

theorem Acct.setMem (h : Acct L s c) {mem : ℕ → Page} (hmem : ∀ p, c p = 0 → mem p = s.mem p) :
    Acct L { s with mem := mem } c := by
  obtain ⟨l, hl, hnd, hmem'⟩ := h.free
  exact ⟨⟨l, hl.congr fun p hp => hmem p ((hmem' p).mp hp).2, hnd, hmem'⟩, h.refcnt, h.inRam⟩

end Basic

/-! ## The operations -/

section Specs

variable {L : Layout} {s : Phys} {c : ℕ → ℕ} {p : ℕ}

/-- `kalloc` fails and changes no page, or gives an owner to a page that had none. -/
theorem kalloc_spec (h : Acct L s c) : wp kalloc s fun pa s' =>
    (pa = 0 ∧ Acct L s' c ∧ s'.mem = s.mem ∧ s'.oom = true) ∨
      ∃ p, pa = p * PGSIZE ∧ InRam L p ∧ c p = 0 ∧ Acct L s' (c + ref p) ∧
        s'.mem = update s.mem p (Bytes.fill PGSIZE 5) ∧ s'.oom = s.oom := by
  obtain ⟨l, hl, hnd, hmem⟩ := h.free
  unfold kalloc
  simp only [wp_bind, wp_get, wp_ite]
  cases l with
  | nil =>
    -- The list is empty; the count of page 0, which the allocator does not manage, is set.
    have hzero : s.freelist = 0 := hl
    rw [if_neg (not_not.mpr hzero)]
    simp only [wp_set, wp_pure]
    refine .inl ⟨hzero, ⟨⟨[], hl, hnd, hmem⟩, fun p hp => ?_, h.inRam⟩, trivial, trivial⟩
    have hp0 : p ≠ s.freelist / PGSIZE := by
      rw [hzero, Nat.zero_div]
      exact hp.pos
    simp only [update_of_ne hp0]
    exact h.refcnt p hp
  | cons p l =>
    obtain ⟨ha, hp0, hl⟩ := hl
    obtain ⟨hp, hcp⟩ := (hmem p).mp (by simp)
    obtain ⟨hpl, hnd⟩ := List.nodup_cons.mp hnd
    have hpage : s.freelist / PGSIZE = p := by rw [ha, mul_div_pgsize]
    rw [if_pos (by rw [ha]; exact Nat.mul_ne_zero hp0 pgsize_pos.ne')]
    simp only [wp_set, wp_pure, hpage]
    refine .inr ⟨p, ha, hp, hcp, ⟨⟨l, ?_, hnd, fun q => ?_⟩, fun q hq => ?_, fun q hq => ?_⟩,
      rfl, trivial⟩
    · refine hl.congr fun q hq => update_of_ne ?_ _ _
      rintro rfl
      exact hpl hq
    · by_cases hqp : q = p
      · subst hqp
        simp [hpl]
      · simpa [hqp, ref_of_ne hqp] using hmem q
    · by_cases hqp : q = p
      · subst hqp
        simp [hcp]
      · simp only [update_of_ne hqp, Pi.add_apply, ref_of_ne hqp, add_zero]
        exact h.refcnt q hq
    · by_cases hqp : q = p
      · exact hqp ▸ hp
      · exact h.inRam q (by simpa [ref_of_ne hqp] using hq)

theorem kalloc_result : wp kalloc s fun r _ => r = s.freelist := by
  unfold kalloc
  simp only [wp_bind, wp_get, wp_ite, wp_set, wp_pure, ite_self]

theorem kalloc_eq_zero {pa : ℕ} {s' : Phys} (h : kalloc.run s = .ok (pa, s')) (hpa : pa = 0) :
    s.freelist = 0 := by
  rw [← kalloc_result.of_run h, hpa]

/-- `kfree` takes one owner away, and changes no page that still has one. -/
theorem kfree_spec (h : Acct L s (c + ref p)) : wp (kfree L (p * PGSIZE)) s fun _ s' =>
    Acct L s' c ∧ (∀ q, c q ≠ 0 → s'.mem q = s.mem q) ∧ s'.oom = s.oom := by
  have hp : InRam L p := h.inRam p (by simp)
  have hcount : s.refcnt p = c p + 1 := by simpa using h.refcnt p hp
  obtain ⟨l, hl, hnd, hmem⟩ := h.free
  have hpl : p ∉ l := fun hmem' => by simpa using ((hmem p).mp hmem').2
  -- The counts after the decrement are those of `c`.
  have hrefs : ∀ q, InRam L q →
      update s.refcnt p (s.refcnt p - 1) q = c q := by
    intro q hq
    by_cases hqp : q = p
    · subst hqp
      simp [hcount]
    · simpa [hqp, ref_of_ne hqp] using h.refcnt q hq
  have hown : ∀ q, c q ≠ 0 → InRam L q := fun q hq => h.inRam q (by simp [hq])
  unfold kfree
  simp only [mul_div_pgsize, wp_bind, wp_get, wp_modify]
  have hpos : s.refcnt p > 0 := by omega
  simp only [if_pos hpos, update_self]
  refine .ite (fun hpos => ?_) fun hzero => ?_
  · -- Other owners remain.
    have hcp : c p ≠ 0 := by omega
    simp only [wp_pure]
    refine ⟨⟨⟨l, hl, hnd, fun q => ?_⟩, hrefs, hown⟩, fun _ _ => trivial, trivial⟩
    rw [hmem q]
    by_cases hqp : q = p
    · subst hqp
      simp [hcp]
    · simp [ref_of_ne hqp]
  · -- The last owner is gone: the page becomes the head of the list.
    have hcp : c p = 0 := by omega
    rw [if_neg hp.valid]
    simp only [wp_set]
    refine ⟨⟨⟨p :: l, hl.push (fun q hq => ((hmem q).mp hq).1) hp hpl, List.nodup_cons.mpr ⟨hpl, hnd⟩,
      fun q => ?_⟩, hrefs, hown⟩, fun q hq => update_of_ne ?_ _ _, trivial⟩
    · by_cases hqp : q = p
      · subst hqp
        simp [hp, hcp]
      · simp [hqp, hmem q, ref_of_ne hqp]
    · rintro rfl
      exact hq hcp

/-- The loop of `freerange` puts the pages from `p` on at the front of the free list. -/
theorem freePages_spec (n p : ℕ) {l : List ℕ} (hl : Chain s.mem s.freelist l)
    (href : ∀ q, s.refcnt q = 0) (hram : ∀ q ∈ l, InRam L q) (hnew : ∀ q ∈ l, q < p)
    (hnd : l.Nodup) (hrange : ∀ k, k < n → InRam L (p + k)) :
    wp (freePages L n (p * PGSIZE)) s fun _ s' => ∃ l', Chain s'.mem s'.freelist l' ∧ l'.Nodup ∧
      (∀ q, q ∈ l' ↔ q ∈ l ∨ p ≤ q ∧ q < p + n) ∧ (∀ q, s'.refcnt q = 0) ∧ s'.oom = s.oom := by
  induction n generalizing s p l with
  | zero =>
    simp only [freePages, wp_pure]
    exact ⟨l, hl, hnd, fun q => ⟨.inl, fun h => h.elim id fun h => by omega⟩, href, trivial⟩
  | succ n ih =>
    have hp : InRam L p := by simpa using hrange 0 (by omega)
    have hpl : p ∉ l := fun hmem => (hnew p hmem).false
    have hstep : p * PGSIZE + PGSIZE = (p + 1) * PGSIZE := by ring
    rw [freePages, wp_bind, kfree]
    simp only [mul_div_pgsize, wp_bind, wp_get, wp_modify, href, lt_irrefl, if_false,
      gt_iff_lt, if_neg hp.valid, wp_set, hstep]
    refine wp.mono (ih (p + 1) (l := p :: l) (hl.push hram hp hpl) href ?_ ?_
      (List.nodup_cons.mpr ⟨hpl, hnd⟩) fun k hk => ?_) ?_
    · exact List.forall_mem_cons.mpr ⟨hp, hram⟩
    · exact List.forall_mem_cons.mpr ⟨by omega, fun q hq => (hnew q hq).trans (by omega)⟩
    · simpa [add_assoc, add_comm 1] using hrange (k + 1) (by omega)
    · rintro - s' ⟨l', h1, h2, h3, h4, h5⟩
      refine ⟨l', h1, h2, fun q => ?_, h4, h5⟩
      rw [h3, List.mem_cons]
      constructor
      · rintro ((rfl | h) | h)
        · exact .inr ⟨le_rfl, by omega⟩
        · exact .inl h
        · exact .inr ⟨by omega, by omega⟩
      · rintro (h | ⟨h, h'⟩)
        · exact .inl (.inr h)
        · rcases Nat.eq_or_lt_of_le h with rfl | h
          · exact .inl (.inl rfl)
          · exact .inr ⟨by omega, by omega⟩

/-- After `kinit` every page is free and owned by nobody. -/
theorem kinit_spec (L : Layout) (mem : ℕ → Page) :
    wp (kinit L) (.reset mem) fun _ s' => Acct L s' 0 ∧ s'.oom = false := by
  obtain ⟨p0, hp0⟩ : ∃ p0, pgRoundUp L.kend = p0 * PGSIZE := ⟨_, rfl⟩
  have hle := L.kend_le
  have hram : ∀ q, InRam L q ↔ p0 ≤ q ∧ q < p0 + (PHYSTOP - p0 * PGSIZE) / PGSIZE := by
    intro q
    unfold InRam
    rw [hp0]
    unfold PGSIZE PHYSTOP KERNBASE
    omega
  unfold kinit freerange
  rw [hp0]
  refine wp.mono (freePages_spec (l := []) _ p0 rfl (fun _ => rfl) (by simp) (by simp)
    (by simp) fun k hk => (hram _).mpr ⟨by omega, by omega⟩) ?_
  rintro - s' ⟨l, hl, hnd, hmem, href, hoom⟩
  refine ⟨⟨⟨l, hl, hnd, fun q => ?_⟩, fun q _ => href q, fun q hq => absurd rfl hq⟩, hoom⟩
  rw [hmem, hram]
  simp

end Specs

end Xv6.Vm
