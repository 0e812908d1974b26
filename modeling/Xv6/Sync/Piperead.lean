import Xv6.Process.System
import Xv6.Sync.Pipe

/-!
# What `piperead` takes and what it delivers

`piperead` of `kernel/pipe.c` for one process, with the memory that `copyout` writes to. The loop that
copies runs with `pi->lock` held. It increments `pi->nread` before it calls `copyout`, so it takes
exactly the bytes that it reports if and only if `copyout` succeeds for every byte that it could take
(`piperead_exact_iff`); a read to a bad address loses a byte (`piperead_loses_byte`).
-/

namespace Xv6.Pipes

open Function Lib
open Vm (Layout M Phys Tree Space TopOk Image userByte MAXVA PGSIZE)

/-- The loop of `piperead` that copies, with `n` bytes to go and `i` copied. -/
def pipereadCopy (L : Layout) (pagetable addr : ℕ) : ℕ → ℕ → Pipe → M (ℕ × Pipe)
  | 0, i, pi => return (i, pi)
  | n + 1, i, pi => do
    if pi.nread = pi.nwrite then return (i, pi)
    else
      let ch := pi.data (place PIPESIZE pi.nread)
      let pi := { pi with nread := pi.nread + 1 }
      if (← Vm.copyout L pagetable ((addr + i) % 2 ^ 64) (fun _ => ch) 1) = -1 then return (i, pi)
      else pipereadCopy L pagetable addr n (i + 1) pi

/-- `piperead`, from `acquire(&pi->lock)` to its end, where it returns a value, or to `sleep`, where it
has changed nothing. -/
def piperead (L : Layout) (pagetable addr : ℕ) (n : ℤ) (killed : Bool) (pi : Pipe) :
    M (Option (ℤ × Pipe)) := do
  if pi.nread = pi.nwrite ∧ pi.writeopen = true then
    if killed then return some (-1, pi) else return none
  else
    let r ← pipereadCopy L pagetable addr n.toNat 0 pi
    return some (r.1, r.2)

/-- The bytes that are in the pipe, oldest first. -/
def Pipe.pending (pi : Pipe) : List UInt8 :=
  (List.range (pi.nwrite - pi.nread).toNat).map fun k =>
    pi.data (place PIPESIZE (pi.nread + BitVec.ofNat 32 k))

/-- `copyout` of bytes one by one, up to the first that fails: how many have been copied, and whether
these are all. -/
def copyoutEach (L : Layout) (pagetable addr : ℕ) : List UInt8 → ℕ → M (ℕ × Bool)
  | [], _ => return (0, true)
  | ch :: chs, i => do
    if (← Vm.copyout L pagetable ((addr + i) % 2 ^ 64) (fun _ => ch) 1) = -1 then return (0, false)
    else
      let r ← copyoutEach L pagetable addr chs (i + 1)
      return (r.1 + 1, r.2)

/-- `copyout` succeeds for all of these bytes in turn. -/
def deliverable (L : Layout) (pagetable addr : ℕ) (bytes : List UInt8) (s : Phys) : Bool :=
  match (copyoutEach L pagetable addr bytes 0).run s with
  | .ok (r, _) => r.2
  | .error _ => false

/-- The call that returns `r` has taken `r` bytes out of the pipe and has stored these at `addr`, in the
memory under the page table with root `root`. -/
structure Exact (pi pi' : Pipe) (mem : ℕ → Vm.Page) (root addr : ℕ) (r : ℤ) : Prop where
  taken : pi' = { pi with nread := pi.nread + BitVec.ofNat 32 r.toNat }
  stored : ∀ k, k < r.toNat → userByte mem root ((addr + k) % 2 ^ 64) =
    some (pi.data (place PIPESIZE (pi.nread + BitVec.ofNat 32 k)))

section Pending

variable {pi : Pipe}

theorem counter_succ (c : BitVec 32) (k : ℕ) :
    c + 1 + BitVec.ofNat 32 k = c + BitVec.ofNat 32 (k + 1) := by
  rw [Nat.add_comm k 1, BitVec.ofNat_add, BitVec.add_assoc]
  rfl

theorem Pipe.pending_eq_nil (h : pi.nread = pi.nwrite) : pi.pending = [] := by
  simp [pending, h]

theorem Pipe.pending_eq_cons (h : pi.nread ≠ pi.nwrite) : pi.pending =
    pi.data (place PIPESIZE pi.nread) :: { pi with nread := pi.nread + 1 }.pending := by
  have hlen : (pi.nwrite - pi.nread).toNat = (pi.nwrite - (pi.nread + 1)).toNat + 1 := by
    bv_omega
  unfold pending
  rw [hlen, List.range_succ_eq_map, List.map_cons, List.map_map]
  refine congrArg₂ List.cons (by simp) (List.map_congr_left ?_)
  intro k _
  rw [comp_apply, Nat.succ_eq_add_one, counter_succ]

theorem Pipe.length_pending_lt : pi.pending.length < 2 ^ 32 := by
  rw [pending, List.length_map, List.length_range]
  exact BitVec.isLt _

/-- The loop that copies is `copyoutEach` of the bytes in the pipe; it counts a byte as read before it
knows whether it can be delivered. -/
theorem pipereadCopy_eq (L : Layout) (pagetable addr n i : ℕ) (pi : Pipe) :
    pipereadCopy L pagetable addr n i pi = (do
      let r ← copyoutEach L pagetable addr (pi.pending.take n) i
      return (i + r.1,
        { pi with nread := pi.nread + BitVec.ofNat 32 (if r.2 then r.1 else r.1 + 1) })) := by
  induction n generalizing i pi with
  | zero => simp [pipereadCopy, copyoutEach]
  | succ n ih =>
    rw [pipereadCopy]
    by_cases hempty : pi.nread = pi.nwrite
    · rw [if_pos hempty, Pipe.pending_eq_nil hempty, List.take_nil, copyoutEach, pure_bind]
      simp
    · rw [if_neg hempty, Pipe.pending_eq_cons hempty, List.take_succ_cons, copyoutEach, bind_assoc]
      refine bind_congr fun c => ?_
      by_cases hc : c = -1
      · simp [hc]
      · rw [if_neg hc, if_neg hc, ih, bind_assoc]
        refine bind_congr fun r => ?_
        rw [pure_bind]
        simp only [counter_succ, Nat.add_assoc, Nat.add_comm 1 r.1]
        cases r.2 <;> simp

end Pending

section Delivery

variable {L : Layout} {s : Phys} {T : Tree} {np addr i va : ℕ} {top f : ℕ → ℕ} {ch : UInt8}
  {img : Image}

theorem byte_setBytes (va w : ℕ) : (img.setBytes (va / PGSIZE) (va % PGSIZE) 1 fun _ => ch).byte w =
    if w = va then (img.userPage va).map fun _ => ch else img.byte w := by
  unfold Image.byte Image.userPage Image.setBytes
  have hlt : w % PGSIZE < PGSIZE := Nat.mod_lt _ (by decide)
  by_cases hpage : w / PGSIZE = va / PGSIZE
  · rw [hpage, update_self]
    cases hv : img (va / PGSIZE) with
    | none => simp
    | some pg =>
      by_cases hu : pg.user = true
      · have hiff : (va % PGSIZE ≤ w % PGSIZE ∧ w % PGSIZE < va % PGSIZE + 1) ↔ w = va := by
          constructor
          · intro h
            have hmod : w % PGSIZE = va % PGSIZE := by omega
            rw [← Nat.div_add_mod w PGSIZE, ← Nat.div_add_mod va PGSIZE, hpage, hmod]
          · rintro rfl
            omega
        simp only [Option.map_some, Option.filter_some, hu, if_true,
          Bytes.get_splice _ _ _ _ hlt, hiff]
        split_ifs <;> rfl
      · simp only [Option.map_some, Option.filter_some, hu, Bool.false_eq_true, if_false,
          Option.map_none, ite_self]
  · rw [update_of_ne hpage, if_neg]
    rintro rfl
    exact hpage rfl

theorem copyout_byte (h : Space L s T np top f) (htop : TopOk top) :
    wp (Vm.copyout L (T.root * PGSIZE) va (fun _ => ch) 1) s fun r s' => ∃ T', Space L s' T' np top f ∧
      T'.root = T.root ∧ (r ≠ -1 → ∀ w, (T'.image s'.mem).byte w =
        if w = va then some ch else (T.image s.mem).byte w) := by
  unfold Vm.copyout
  refine (Vm.copyoutLoop_spec h htop le_rfl).mono ?_
  rintro r s' ⟨T', h', hl, ⟨-, heq⟩ | ⟨rfl, -⟩⟩
  · refine ⟨T', h', hl.root, fun hr w => ?_⟩
    rw [Image.copyout, if_neg (by decide)] at heq
    cases hpage : ((T.image s.mem).userPage va).filter (·.writable) with
    | none =>
      rw [hpage] at heq
      exact absurd (congrArg Prod.fst heq) hr
    | some pg =>
      have hlen : min (PGSIZE - va % PGSIZE) 1 = 1 := by
        have : va % PGSIZE < PGSIZE := Nat.mod_lt _ (by decide)
        omega
      obtain ⟨huser, -⟩ := Option.filter_eq_some_iff.mp hpage
      simp only [hpage, hlen, Image.copyout] at heq
      have himg : T'.image s'.mem = _ := congrArg Prod.snd heq
      rw [himg, byte_setBytes, huser, Option.map_some]
  · exact ⟨T', h', hl.root, fun hr => absurd rfl hr⟩

/-- Bytes that are copied out one by one: if none fails they are all in memory. -/
theorem copyoutEach_spec (h : Space L s T np top f) (htop : TopOk top) (addr : ℕ) (bytes : List UInt8)
    (hlen : i + bytes.length ≤ 2 ^ 32) :
    wp (copyoutEach L (T.root * PGSIZE) addr bytes i) s fun r s' => ∃ T', Space L s' T' np top f ∧
      T'.root = T.root ∧ (r.2 = true → r.1 = bytes.length ∧
        (∀ k (hk : k < bytes.length),
          (T'.image s'.mem).byte ((addr + (i + k)) % 2 ^ 64) = some (bytes.get ⟨k, hk⟩)) ∧
        ∀ w, (∀ k < bytes.length, w ≠ (addr + (i + k)) % 2 ^ 64) →
          (T'.image s'.mem).byte w = (T.image s.mem).byte w) := by
  induction bytes generalizing s T i with
  | nil =>
    rw [copyoutEach, wp_pure]
    exact ⟨T, h, rfl, fun _ => ⟨rfl, fun k hk => absurd hk (Nat.not_lt_zero k), fun _ _ => rfl⟩⟩
  | cons c bytes ih =>
    rw [List.length_cons] at hlen
    rw [copyoutEach]
    refine (copyout_byte h htop).bind ?_
    rintro r t ⟨T1, h1, hroot1, hbyte1⟩
    by_cases hr : r = -1
    · rw [if_pos hr, wp_pure]
      exact ⟨T1, h1, hroot1, fun hfalse => by cases hfalse⟩
    rw [if_neg hr, ← hroot1]
    refine (ih h1 (by omega)).bind ?_
    rintro ⟨m, ok⟩ u ⟨T2, h2, hroot2, hok⟩
    rw [wp_pure]
    refine ⟨T2, h2, hroot2, fun htrue => ?_⟩
    obtain ⟨hm, hstored, hrest⟩ := hok htrue
    refine ⟨congrArg (· + 1) hm, ?_, ?_⟩
    · intro k hk
      cases k with
      | zero =>
        -- The later bytes go to other addresses.
        rw [hrest _ fun k hk => ?_, hbyte1 hr, Nat.add_zero, if_pos rfl]
        · rfl
        · omega
      | succ k =>
        have := hstored k (by simpa using hk)
        rw [Nat.add_assoc i 1 k, Nat.add_comm 1 k] at this
        exact this
    · intro w hw
      rw [hrest w fun k hk => ?_, hbyte1 hr, if_neg]
      · exact hw 0 (by simp)
      · have := hw (k + 1) (by simpa using hk)
        rwa [Nat.add_assoc, Nat.add_comm 1 k]

/-- **`piperead` and its count.** A call returns or sleeps. It takes exactly the bytes that it reports
out of the pipe and stores these in the reader's memory if and only if `copyout` succeeds for each of
the bytes that it could take: as many as are in the pipe, `n` at most. -/
theorem piperead_exact_iff (h : Space L s T np top f) (htop : TopOk top) (pi : Pipe) (addr : ℕ) (n : ℤ)
    (killed : Bool) :
    wp (piperead L (T.root * PGSIZE) addr n killed pi) s fun out s' =>
      (∀ r pi', out = some (r, pi') → Exact pi pi' s'.mem T.root addr r) ↔
        deliverable L (T.root * PGSIZE) addr (pi.pending.take n.toNat) s = true := by
  unfold piperead
  by_cases hwait : pi.nread = pi.nwrite ∧ pi.writeopen = true
  · -- Nothing is in the pipe, and nothing is taken.
    have hall : deliverable L (T.root * PGSIZE) addr (pi.pending.take n.toNat) s = true := by
      rw [Pipe.pending_eq_nil hwait.1, List.take_nil]
      rfl
    rw [if_pos hwait]
    refine .ite (fun _ => (wp_pure _).mpr ?_) fun _ => (wp_pure _).mpr ?_
    · refine iff_of_true ?_ hall
      rintro r pi' ⟨⟩
      exact ⟨by simp, fun k hk => absurd hk (Nat.not_lt_zero k)⟩
    · exact iff_of_true (fun r pi' hnone => by cases hnone) hall
  rw [if_neg hwait, pipereadCopy_eq, bind_assoc]
  have hshort : (pi.pending.take n.toNat).length < 2 ^ 32 :=
    lt_of_le_of_lt (List.length_take_le' _ _) Pipe.length_pending_lt
  obtain ⟨⟨m, ok⟩, s', hrun, T', h', hroot, hok⟩ :=
    copyoutEach_spec (i := 0) h htop addr (pi.pending.take n.toNat) (by omega)
  have hdeliver : deliverable L (T.root * PGSIZE) addr (pi.pending.take n.toNat) s = ok := by
    unfold deliverable
    rw [hrun]
  refine wp.bind (Q := fun r t => r = (m, ok) ∧ t = s') ⟨_, _, hrun, rfl, rfl⟩ ?_
  rintro _ _ ⟨rfl, rfl⟩
  rw [pure_bind, wp_pure, hdeliver]
  cases ok with
  | false =>
    -- One more byte has been taken than is reported.
    refine iff_of_false (fun hexact => ?_) (by decide)
    have htaken := congrArg Pipe.nread (hexact _ _ rfl).taken
    have hone : BitVec.ofNat 32 (m + 1) = BitVec.ofNat 32 m := by
      simpa using htaken
    rw [BitVec.ofNat_add] at hone
    bv_omega
  | true =>
    refine iff_of_true ?_ rfl
    obtain ⟨hm, hstored, -⟩ := hok rfl
    rintro r pi' ⟨⟩
    refine ⟨by simp, fun k hk => ?_⟩
    have hk' : k < (pi.pending.take n.toNat).length := by
      rw [← hm]
      simpa using hk
    have hbyte := hstored k hk'
    rw [← hroot, h'.userByte_eq htop, ← Nat.zero_add k, hbyte, List.get_eq_getElem, List.getElem_take]
    simp [Pipe.pending]

end Delivery

/-- A pipe that holds one byte. -/
def oneByte : Pipe := ⟨fun _ => 65, 0, 1, true, true⟩

/-- The first process reads one byte to its first page. -/
theorem piperead_exact_iff_userinit : ∃ (k : Process.Kernel) (T : Tree),
    (k.proc Process.proc0).pagetable = T.root * PGSIZE ∧
    wp (piperead Process.small (T.root * PGSIZE) 0 1 false oneByte) k.phys fun out s' =>
      ∀ r pi', out = some (r, pi') → Exact oneByte pi' s'.mem T.root 0 r := by
  have hex : ((execute (Process.next Process.small) (Process.served Process.small)
      (Process.Kernel.boot Process.small Process.blank) [.userinit]).map
      fun k => ((k.proc Process.proc0).state,
        deliverable Process.small (k.proc Process.proc0).pagetable 0 [65] k.phys)) =
      some (.runnable, true) := by
    decide +kernel
  obtain ⟨k, hk, heq⟩ := Option.map_eq_some_iff.mp hex
  simp only [Prod.mk.injEq] at heq
  obtain ⟨hstate, hdeliver⟩ := heq
  have hrun : Process.Run Process.small Process.blank [.userinit] k := Process.Run.boot.execute hk
  obtain ⟨T, Kt, hinv, -⟩ := hrun.inv
  have hok := hinv.ok (i := Process.proc0) (by rw [hstate]; decide)
  rw [hok.root] at hdeliver
  refine ⟨k, T Process.proc0, hok.root, ?_⟩
  refine (piperead_exact_iff hok.space Process.topOk_topEntries oneByte 0 1 false).mono ?_
  exact fun out s' hiff => hiff.mpr hdeliver

/-- The first process reads one byte to an address above its memory: `piperead` returns 0, and the byte
is gone. -/
theorem piperead_loses_byte : ∃ k : Process.Kernel,
    Process.Run Process.small Process.blank [.userinit] k ∧
    (k.proc Process.proc0).state = .runnable ∧
    (piperead Process.small (k.proc Process.proc0).pagetable MAXVA 1 false oneByte).run k.phys =
      .ok (some (0, { oneByte with nread := 1 }), k.phys) ∧
    ∀ mem root, ¬ Exact oneByte { oneByte with nread := 1 } mem root MAXVA 0 := by
  have hex : ((execute (Process.next Process.small) (Process.served Process.small)
      (Process.Kernel.boot Process.small Process.blank) [.userinit]).map
      fun k => (k.proc Process.proc0).state) = some .runnable := by
    decide +kernel
  obtain ⟨k, hk, hstate⟩ := Option.map_eq_some_iff.mp hex
  refine ⟨k, Process.Run.boot.execute hk, hstate, rfl, ?_⟩
  intro mem root hexact
  have htaken := congrArg Pipe.nread hexact.taken
  exact absurd htaken (by decide)

end Xv6.Pipes
