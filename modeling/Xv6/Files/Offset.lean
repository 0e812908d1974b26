import Xv6.Fs.Inode
import Xv6.Lib.Run

/-!
# File offsets

`fileread` and `filewrite` of `kernel/file.c` on inodes, by any number of processes that share any
number of `struct file`s. The offset is a field of the `struct file`, and the lock that protects it is
that of the inode; `filewrite` gives the lock up between two chunks. Another `struct file` can change
the size of the inode while the lock is free. What `bmap` and the copy to or from user memory do is
chosen for each block.

`file_offsets` says that the operations on a `struct file` follow each other without gap or overlap, and
when `filewrite` reports success.
-/

namespace Xv6.Offsets

open Function
open Fs (MAXFILE)

/-! ## Reading and writing an inode -/

/-- What happens at a block: both the block and the copy are there, `bmap` finds no block, or the copy
fails. -/
inductive Io
  | ok
  | noBlock
  | badCopy

/-- The loop of `readi` and `writei`: the value of `tot` at its end, where `bad` gives it after a copy
that failed. `bmap` panics behind the last block of a file. -/
def copyLoop (io : ℕ → Io) (bad : ℕ → ℤ) (n : ℕ) : ℕ → ℕ → ℕ → Option ℤ
  | 0, tot, _ => some tot
  | fuel + 1, tot, off =>
    if tot < n then
      if MAXFILE ≤ off / BSIZE then none
      else
        match io (off / BSIZE) with
        | .noBlock => some tot
        | .badCopy => some (bad tot)
        | .ok =>
          let m := min (n - tot) (BSIZE - off % BSIZE)
          copyLoop io bad n fuel (tot + m) (off + m)
    else some tot

/-- What `readi` returns for an inode with `size` bytes. -/
def readi (size : ℕ) (io : ℕ → Io) (off n : ℕ) : Option ℤ :=
  if off > size ∨ (off + n) % 2 ^ 32 < off then some 0
  else
    let n := if (off + n) % 2 ^ 32 > size then size - off else n
    copyLoop io (fun _ => -1) n n 0 off

/-- What `writei` returns, and the new size. -/
def writei (size : ℕ) (io : ℕ → Io) (off n : ℕ) : Option (ℤ × ℕ) :=
  if off > size ∨ (off + n) % 2 ^ 32 < off then some (-1, size)
  else if (off + n) % 2 ^ 32 > MAXFILE * BSIZE then some (-1, size)
  else (copyLoop io (fun tot => tot) n n 0 off).map fun tot => (tot, max size (off + tot.toNat))

section Inode

variable {io : ℕ → Io} {bad : ℕ → ℤ} {n fuel tot off size size' : ℕ} {r : ℤ}

/-- The loop transfers no more than it was asked to, and nothing behind the last block. -/
theorem copyLoop_spec (hbad : ∀ t, bad t = -1 ∨ bad t = t) (htot : tot ≤ n)
    (h : copyLoop io bad n fuel tot off = some r) :
    r = -1 ∨ ∃ t, r = (t : ℕ) ∧ tot ≤ t ∧ t ≤ n ∧ (t = tot ∨ off + (t - tot) ≤ MAXFILE * BSIZE) := by
  induction fuel generalizing tot off with
  | zero =>
    cases h
    exact .inr ⟨tot, rfl, le_rfl, htot, .inl rfl⟩
  | succ fuel ih =>
    rw [copyLoop] at h
    split_ifs at h with hlt hmax
    · cases hio : io (off / BSIZE) with
      | noBlock =>
        rw [hio] at h
        cases h
        exact .inr ⟨tot, rfl, le_rfl, htot, .inl rfl⟩
      | badCopy =>
        rw [hio] at h
        cases h
        exact (hbad tot).imp id fun hb => ⟨tot, hb, le_rfl, htot, .inl rfl⟩
      | ok =>
        rw [hio] at h
        have hm : min (n - tot) (BSIZE - off % BSIZE) ≤ n - tot := min_le_left _ _
        have hblock : off + min (n - tot) (BSIZE - off % BSIZE) ≤ MAXFILE * BSIZE := by
          have := min_le_right (n - tot) (BSIZE - off % BSIZE)
          unfold BSIZE at *
          omega
        obtain hr | ⟨t, hr, hle, hn, ht⟩ := ih (by omega) h
        · exact .inl hr
        · exact .inr ⟨t, hr, by omega, hn, by omega⟩
    · cases h
      exact .inr ⟨tot, rfl, le_rfl, htot, .inl rfl⟩

/-- `readi` returns a part of the file, and changes nothing. -/
theorem readi_spec (hn : n < 2 ^ 32) (hsize : size < 2 ^ 32) (h : readi size io off n = some r) (hr : 0 < r) :
    off + r.toNat < 2 ^ 32 := by
  unfold readi at h
  split_ifs at h with hguard hend
  · cases h
    exact absurd hr (by decide)
  · obtain rfl | ⟨t, rfl, -, hle, -⟩ := copyLoop_spec (fun _ => .inl rfl) (Nat.zero_le _) h
    · exact absurd hr (by decide)
    · rw [Int.toNat_natCast]
      omega
  · obtain rfl | ⟨t, rfl, -, hle, -⟩ := copyLoop_spec (fun _ => .inl rfl) (Nat.zero_le _) h
    · exact absurd hr (by decide)
    · rw [Int.toNat_natCast]
      omega

/-- What is written lies in a file of the largest size, and is no more than was asked for. -/
theorem writei_spec (hoff : off < 2 ^ 32) (hn : n < 2 ^ 32) (hsize : size < 2 ^ 32)
    (h : writei size io off n = some (r, size')) :
    size' < 2 ^ 32 ∧ r ≤ n ∧ (0 < r → off + r.toNat < 2 ^ 32) := by
  unfold writei at h
  split_ifs at h with hguard hmax
  · cases h
    exact ⟨hsize, by omega, fun hr => absurd hr (by decide)⟩
  · cases h
    exact ⟨hsize, by omega, fun hr => absurd hr (by decide)⟩
  · obtain ⟨tot, htot, heq⟩ := Option.map_eq_some_iff.mp h
    cases heq
    have hoffn : off + n < 2 ^ 32 := by omega
    obtain rfl | ⟨t, rfl, -, hle, -⟩ := copyLoop_spec (fun _ => .inr rfl) (Nat.zero_le _) htot
    · refine ⟨max_lt hsize ?_, by omega, fun hr => absurd hr (by decide)⟩
      simpa using hoff
    · rw [Int.toNat_natCast]
      exact ⟨max_lt hsize (by omega), by omega, fun _ => by omega⟩

end Inode

/-! ## The machine -/

/-- The constant fields of the `struct file`s. -/
structure Files (φ κ : Type) where
  readable : φ → Bool
  writable : φ → Bool
  ip : φ → κ

/-- A part of a call that holds the lock of the inode once: a whole `fileread(f, addr, n)`, or the chunk
of `n1` bytes from `i` on of a `filewrite(f, addr, n)`. -/
inductive Chunk (φ : Type)
  | read (f : φ) (n : ℤ)
  | write (f : φ) (n i n1 : ℤ)
  deriving DecidableEq

/-- The file that a turn of a loop reads or writes. -/
def Chunk.file {φ : Type} : Chunk φ → φ
  | .read f _ | .write f _ _ _ => f

/-- Where a process is. -/
inductive Pc (φ : Type)
  | out
  /-- the condition of the loop of `filewrite(f, addr, n)` -/
  | loop (f : φ) (n i : ℤ)
  /-- before `ilock` -/
  | lock (c : Chunk φ)
  /-- before `readi` or `writei` -/
  | io (c : Chunk φ)
  /-- before `if (r > 0) f->off += r` -/
  | add (c : Chunk φ) (r : ℤ)
  /-- before `iunlock` -/
  | unlock (c : Chunk φ) (r : ℤ)
  /-- before `fileread` returns `r`, or a call fails because the file is not open for it -/
  | ret (r : ℤ)
  /-- before `filewrite` of `n` bytes returns `r` -/
  | writeRet (n r : ℤ)
  deriving DecidableEq

/-- An operation that transferred bytes. -/
structure Op where
  start : ℕ
  len : ℕ
  deriving DecidableEq

/-- The `off` fields, the locks and sizes of the inodes, the operations on each `struct file` in the
order in which they held the lock, and the chunks of each process's last `filewrite`, with what was
asked for and what `writei` returned. -/
structure State (ι φ κ : Type) where
  pc : ι → Pc φ
  off : φ → ℕ
  lock : κ → Option ι
  size : κ → ℕ
  ops : φ → List Op
  chunks : ι → List (ℤ × ℤ)

/-- `max` in `filewrite` -/
def maxChunk : ℤ := ((MAXOPBLOCKS - 1 - 1 - 2) / 2 : ℕ) * BSIZE

/-- A step: a process calls `fileread` or `filewrite` or goes on, or the size of an inode changes. -/
inductive Label (ι φ κ : Type)
  | fileread (p : ι) (f : φ) (n : ℤ)
  | filewrite (p : ι) (f : φ) (n : ℤ)
  | go (p : ι) (io : ℕ → Io)
  | resize (k : κ) (size : ℕ)

section

variable {ι φ κ : Type} [DecidableEq ι] [DecidableEq φ] [DecidableEq κ]

/-- The process goes on at `pc`. -/
def State.goto (s : State ι φ κ) (p : ι) (pc : Pc φ) : State ι φ κ :=
  { s with pc := update s.pc p pc }

/-- An operation that returned `r`, in the list of operations. -/
def record (l : List Op) (off : ℕ) (r : ℤ) : List Op := if 0 < r then l ++ [⟨off, r.toNat⟩] else l

/-- The call of `readi` or `writei` in a chunk. -/
def transfer (F : Files φ κ) (s : State ι φ κ) (p : ι) (io : ℕ → Io) :
    Chunk φ → Option (State ι φ κ)
  | .read f n => (readi (s.size (F.ip f)) io (s.off f) (n % 2 ^ 32).toNat).map fun r =>
    { s.goto p (.add (.read f n) r) with
      ops := update s.ops f (record (s.ops f) (s.off f) r) }
  | .write f n i n1 => (writei (s.size (F.ip f)) io (s.off f) (n1 % 2 ^ 32).toNat).map fun r =>
    { s.goto p (.add (.write f n i n1) r.1) with
      size := update s.size (F.ip f) r.2
      ops := update s.ops f (record (s.ops f) (s.off f) r.1)
      chunks := update s.chunks p (s.chunks p ++ [(n1, r.1)]) }

/-- `ret` at the end of the loop of `filewrite`. -/
def writeResult (n i : ℤ) : ℤ := if i = n then n else -1

/-- What follows `iunlock`; `filewrite` calls `end_op` there. -/
def afterUnlock : Chunk φ → ℤ → Pc φ
  | .read _ _, r => .ret r
  | .write f n i n1, r => if r ≠ n1 then .writeRet n (writeResult n i) else .loop f n (i + r)

/-- The next step of a process. -/
def go (F : Files φ κ) (s : State ι φ κ) (p : ι) (io : ℕ → Io) : Option (State ι φ κ) :=
  match s.pc p with
  | .out => none
  | .loop f n i =>
    if i < n then some (s.goto p (.lock (.write f n i (min (n - i) maxChunk))))
    else some (s.goto p (.writeRet n (writeResult n i)))
  | .lock c =>
    if s.lock (F.ip c.file) = none then
      some { s.goto p (.io c) with lock := update s.lock (F.ip c.file) (some p) }
    else none
  | .io c => transfer F s p io c
  | .add c r =>
    some { s.goto p (.unlock c r) with
      off := if 0 < r then update s.off c.file ((s.off c.file + r.toNat) % 2 ^ 32) else s.off }
  | .unlock c r =>
    some { s.goto p (afterUnlock c r) with lock := update s.lock (F.ip c.file) none }
  | .ret _ => some (s.goto p .out)
  | .writeRet _ _ => some (s.goto p .out)

/-- The state after a step, if it is possible. -/
def next (F : Files φ κ) (s : State ι φ κ) : Label ι φ κ → Option (State ι φ κ)
  | .fileread p f n =>
    match s.pc p with
    | .out => some (s.goto p (if F.readable f then .lock (.read f n) else .ret (-1)))
    | _ => none
  | .filewrite p f n =>
    match s.pc p with
    | .out =>
      if F.writable f then some { s.goto p (.loop f n 0) with chunks := update s.chunks p [] }
      else some (s.goto p (.ret (-1)))
    | _ => none
  | .go p io => go F s p io
  | .resize k size =>
    if s.lock k = none ∧ size < 2 ^ 32 then some { s with size := update s.size k size }
    else none

/-- No process has called anything; the offsets are `off`. -/
def State.init (off : φ → ℕ) (size : κ → ℕ) : State ι φ κ where
  pc _ := .out
  off := off
  lock _ := none
  size := size
  ops _ := []
  chunks _ := []

/-- The states reached. -/
def Run (F : Files φ κ) (off : φ → ℕ) (size : κ → ℕ) : State ι φ κ → Prop :=
  Lib.Reach (State.init off size) (fun s l s' => next F s l = some s') fun _ _ => True

end

/-! ## Operations that follow each other -/

/-- Each operation starts where the one before it ended, the first at `start`. -/
def Chain : ℕ → List Op → Prop
  | _, [] => True
  | start, a :: l => a.start = start ∧ Chain (start + a.len) l

/-- The number of bytes transferred. -/
def total (l : List Op) : ℕ := (l.map Op.len).sum

section Chain

variable {start : ℕ} {l : List Op} {a : Op}

theorem total_append (l : List Op) (a : Op) : total (l ++ [a]) = total l + a.len := by
  simp [total]

theorem Chain.append (h : Chain start l) (ha : a.start = start + total l) : Chain start (l ++ [a]) := by
  induction l generalizing start with
  | nil => exact ⟨ha, trivial⟩
  | cons b l ih =>
    refine ⟨h.1, ih h.2 ?_⟩
    rw [ha, total, List.map_cons, List.sum_cons, ← add_assoc]
    rfl

theorem Chain.le_start (h : Chain start l) (ha : a ∈ l) : start ≤ a.start := by
  induction l generalizing start with
  | nil => exact absurd ha List.not_mem_nil
  | cons b l ih =>
    obtain rfl | ha := List.mem_cons.mp ha
    · exact h.1.ge
    · exact (Nat.le_add_right _ _).trans (ih h.2 ha)

theorem Chain.pairwise (h : Chain start l) : l.Pairwise fun a b => a.start + a.len ≤ b.start := by
  induction l generalizing start with
  | nil => exact List.Pairwise.nil
  | cons a l ih =>
    refine List.Pairwise.cons (fun b hb => ?_) (ih h.2)
    rw [h.1]
    exact h.2.le_start hb

end Chain

/-! ## Chunks -/

/-- After the first `i` bytes of `n`, all chunks were written completely. -/
structure Progress (n i : ℤ) (l : List (ℤ × ℤ)) : Prop where
  complete : ∀ x ∈ l, x.2 = x.1
  sum : (l.map Prod.fst).sum = i
  le : ∀ x ∈ l, x.1 ≤ maxChunk
  done : 0 ≤ n → i ≤ n
  none : n < 0 → l = []

/-- What a `filewrite` of `n` bytes with chunks `l` returns. -/
structure Returns (n r : ℤ) (l : List (ℤ × ℤ)) : Prop where
  iff : 0 ≤ n → (r = n ↔ ∀ x ∈ l, x.2 = x.1)
  sum : 0 ≤ n → r = n → (l.map Prod.fst).sum = n
  fails : r = n ∨ r = -1
  neg : n < 0 → r = -1 ∧ l = []
  le : ∀ x ∈ l, x.1 ≤ maxChunk

/-- The chunks of a process are those of its `filewrite` so far. -/
def Chunks {φ : Type} (l : List (ℤ × ℤ)) : Pc φ → Prop
  | .loop _ n i => Progress n i l
  | .lock (.write _ n i n1) | .io (.write _ n i n1) =>
    Progress n i l ∧ i < n ∧ n1 = min (n - i) maxChunk
  | .add (.write _ n i n1) r | .unlock (.write _ n i n1) r =>
    ∃ l₀, l = l₀ ++ [(n1, r)] ∧ Progress n i l₀ ∧ i < n ∧ n1 = min (n - i) maxChunk
  | .writeRet n r => Returns n r l
  | _ => True

section Chunks

variable {n i n1 r : ℤ} {l : List (ℤ × ℤ)}

theorem progress_nil : Progress n 0 [] where
  complete _ hx := absurd hx List.not_mem_nil
  sum := rfl
  le _ hx := absurd hx List.not_mem_nil
  done := id
  none _ := rfl

theorem Progress.nonneg (h : Progress n i l) (hi : i < n) : 0 ≤ n := by
  by_contra hn
  have hnil := h.none (not_le.mp hn)
  have hsum := h.sum
  rw [hnil] at hsum
  change 0 = i at hsum
  omega

theorem Progress.add (h : Progress n i l) (hi : i < n) (hn1 : n1 = min (n - i) maxChunk) :
    Progress n (i + n1) (l ++ [(n1, n1)]) where
  complete x hx := by
    obtain hx | hx := List.mem_append.mp hx
    · exact h.complete x hx
    · rw [List.mem_singleton.mp hx]
  sum := by simp [h.sum]
  le x hx := by
    obtain hx | hx := List.mem_append.mp hx
    · exact h.le x hx
    · rw [List.mem_singleton.mp hx, hn1]
      exact min_le_right _ _
  done _ := by
    have := min_le_left (n - i) maxChunk
    omega
  none hn := absurd (h.nonneg hi) (by omega)

theorem Progress.returns (h : Progress n i l) (hi : ¬ i < n) : Returns n (writeResult n i) l := by
  unfold writeResult
  by_cases hn : 0 ≤ n
  · have hin : i = n := le_antisymm (h.done hn) (not_lt.mp hi)
    rw [if_pos hin]
    exact ⟨fun _ => iff_of_true rfl h.complete, fun _ _ => h.sum.trans hin, .inl rfl, fun _ => by omega,
      h.le⟩
  · have hnil := h.none (not_le.mp hn)
    have hi0 : i = 0 := by
      rw [← h.sum, hnil]
      rfl
    rw [if_neg (by omega)]
    exact ⟨fun hn' => absurd hn' hn, fun hn' => absurd hn' hn, .inr rfl, fun _ => ⟨rfl, hnil⟩, h.le⟩

theorem Progress.breaks (h : Progress n i l) (hi : i < n) (hn1 : n1 = min (n - i) maxChunk)
    (hr : r ≠ n1) : Returns n (writeResult n i) (l ++ [(n1, r)]) := by
  have hn := h.nonneg hi
  rw [writeResult, if_neg hi.ne]
  refine ⟨fun _ => iff_of_false (by omega) fun hall => hr ?_, fun _ h1 => by omega, .inr rfl,
    fun hneg => by omega, fun x hx => ?_⟩
  · exact hall (n1, r) (by simp)
  · obtain hx | hx := List.mem_append.mp hx
    · exact h.le x hx
    · rw [List.mem_singleton.mp hx, hn1]
      exact min_le_right _ _

end Chunks

/-! ## The invariant -/

/-- The lock of the inode is held. -/
def Pc.holds {φ : Type} (c : Chunk φ) (pc : Pc φ) : Prop :=
  pc = .io c ∨ (∃ r, pc = .add c r) ∨ ∃ r, pc = .unlock c r

/-- Who is in a chunk has the lock; the operations follow each other from the first offset on; the
offset is behind the last one, except that `r` bytes are still to be added. -/
structure Inv {ι φ κ : Type} (F : Files φ κ) (off₀ : φ → ℕ) (s : State ι φ κ) : Prop where
  lock : ∀ p c, (s.pc p).holds c → s.lock (F.ip c.file) = some p
  chain : ∀ f, Chain (off₀ f) (s.ops f)
  lt : ∀ f, off₀ f + total (s.ops f) < 2 ^ 32
  size : ∀ k, s.size k < 2 ^ 32
  off : ∀ f, (∀ p c r, s.pc p = .add c r → c.file ≠ f) → s.off f = off₀ f + total (s.ops f)
  adding : ∀ p c r, s.pc p = .add c r → s.off c.file + r.toNat = off₀ c.file + total (s.ops c.file)
  chunks : ∀ p, Chunks (s.chunks p) (s.pc p)

section Steps

variable {ι φ κ : Type} {F : Files φ κ} {off₀ : φ → ℕ} {s s' : State ι φ κ} {p q : ι} {pc : Pc φ}
  {c d : Chunk φ} {r : ℤ}

theorem Inv.eq_of_holds (h : Inv F off₀ s) (hp : (s.pc p).holds c) (hq : (s.pc q).holds d)
    (hcd : F.ip c.file = F.ip d.file) : q = p := by
  have hlp := h.lock p c hp
  have hlq := h.lock q d hq
  rw [← hcd, hlp, Option.some.injEq] at hlq
  exact hlq.symm

theorem Inv.off_lt (h : Inv F off₀ s) (hp : s.pc p = .io c) : s.off c.file < 2 ^ 32 := by
  have hat : s.off c.file = off₀ c.file + total (s.ops c.file) := by
    refine h.off _ fun q d t hq heq => ?_
    have hqp := h.eq_of_holds (.inl hp) (.inr (.inl ⟨t, hq⟩)) (by rw [heq])
    rw [hqp, hp] at hq
    cases hq
  rw [hat]
  exact h.lt _

variable [DecidableEq ι]

theorem Inv.goto (h : Inv F off₀ s) (p : ι) (pc : Pc φ) (hoff : s'.off = s.off) (hops : s'.ops = s.ops)
    (hsize : s'.size = s.size) (hpc : s'.pc = update s.pc p pc)
    (hfrom : ∀ c r, s.pc p ≠ .add c r) (hto : ∀ c r, pc ≠ .add c r)
    (hlock : ∀ c, pc.holds c → s'.lock (F.ip c.file) = some p)
    (hothers : ∀ q c, q ≠ p → (s.pc q).holds c → s'.lock (F.ip c.file) = s.lock (F.ip c.file))
    (hchunks : Chunks (s'.chunks p) pc) (hrest : ∀ q, q ≠ p → s'.chunks q = s.chunks q) :
    Inv F off₀ s' := by
  have hpcq : ∀ q, s'.pc q = if q = p then pc else s.pc q := fun q => by rw [hpc, update_apply]
  refine ⟨fun q c => ?_, by rw [hops]; exact h.chain, by rw [hops]; exact h.lt,
    by rw [hsize]; exact h.size, fun f hf => ?_, fun q c r => ?_, fun q => ?_⟩
  · have := h.lock q c
    grind
  · rw [hoff, hops]
    exact h.off f fun q c r hq => hf q c r (by grind)
  · have := h.adding q c r
    grind
  · have := h.chunks q
    grind

theorem Inv.idle (h : Inv F off₀ s) (hfrom : ∀ c r, s.pc p ≠ .add c r) (hto : ∀ c, ¬ pc.holds c)
    (hchunks : Chunks (s.chunks p) pc) : Inv F off₀ (s.goto p pc) :=
  h.goto _ _ rfl rfl rfl rfl hfrom (fun c r hpc => hto c (.inr (.inl ⟨r, hpc⟩)))
    (fun c hc => absurd hc (hto c)) (fun _ _ _ _ => rfl) hchunks fun _ _ => rfl

variable [DecidableEq φ]

theorem Inv.add (h : Inv F off₀ s) (hp : s.pc p = .add c r) :
    Inv F off₀ { s.goto p (.unlock c r) with
      off := if 0 < r then update s.off c.file ((s.off c.file + r.toNat) % 2 ^ 32)
        else s.off } := by
  have hend := h.adding p c r hp
  have hoff : (if 0 < r then update s.off c.file ((s.off c.file + r.toNat) % 2 ^ 32)
      else s.off) = update s.off c.file (off₀ c.file + total (s.ops c.file)) := by
    split_ifs with hr
    · rw [hend, Nat.mod_eq_of_lt (h.lt _)]
    · rw [Int.toNat_of_nonpos (not_lt.mp hr), add_zero] at hend
      rw [← hend, update_eq_self]
  rw [hoff]
  have hholds : (s.pc p).holds c := .inr (.inl ⟨r, hp⟩)
  -- No other process is about to add to the same offset.
  have hother : ∀ q d t, q ≠ p → s.pc q = .add d t → d.file ≠ c.file := by
    intro q d t hqp hq heq
    exact hqp (h.eq_of_holds hholds (.inr (.inl ⟨t, hq⟩)) (by rw [heq]))
  refine ⟨fun q d => ?_, h.chain, h.lt, h.size, fun f hf => ?_, fun q d t => ?_, fun q => ?_⟩
  · have := h.lock q d
    simp only [State.goto, update_apply]
    grind [Pc.holds]
  · have := h.off f
    simp only [State.goto, update_apply] at hf ⊢
    grind
  · have := h.adding q d t
    have := hother q d t
    simp only [State.goto, update_apply]
    grind
  · have hold := h.chunks q
    simp only [State.goto, update_apply]
    split_ifs with hqp
    · subst hqp
      rw [hp] at hold
      cases c with
      | read => trivial
      | write => exact hold
    · exact hold

theorem Inv.record (h : Inv F off₀ s) (hp : s.pc p = .io c)
    (hr : 0 < r → s.off c.file + r.toNat < 2 ^ 32) (hpc : s'.pc = update s.pc p (.add c r))
    (hoff : s'.off = s.off) (hlock : s'.lock = s.lock) (hsize : ∀ k, s'.size k < 2 ^ 32)
    (hops : s'.ops = update s.ops c.file (record (s.ops c.file) (s.off c.file) r))
    (hchunks : Chunks (s'.chunks p) (.add c r)) (hrest : ∀ q, q ≠ p → s'.chunks q = s.chunks q) :
    Inv F off₀ s' := by
  have hholds : (s.pc p).holds c := .inl hp
  have hother : ∀ q d t, s.pc q = .add d t → d.file ≠ c.file := by
    intro q d t hq heq
    have hqp := h.eq_of_holds hholds (.inr (.inl ⟨t, hq⟩)) (by rw [heq])
    rw [hqp, hp] at hq
    cases hq
  have hat : s.off c.file = off₀ c.file + total (s.ops c.file) := h.off _ hother
  have htotal : off₀ c.file + total (Offsets.record (s.ops c.file) (s.off c.file) r) =
      s.off c.file + r.toNat := by
    unfold Offsets.record
    split_ifs with hpos
    · rw [total_append, ← add_assoc, ← hat]
    · rw [← hat, Int.toNat_of_nonpos (not_lt.mp hpos), add_zero]
  have hpcq : ∀ q, s'.pc q = if q = p then .add c r else s.pc q := fun q => by rw [hpc, update_apply]
  refine ⟨fun q d => ?_, fun f => ?_, fun f => ?_, hsize, fun f hf => ?_, fun q d t => ?_, fun q => ?_⟩
  · have := h.lock q d
    grind [Pc.holds]
  · have := h.chain f
    rw [hops, update_apply]
    split_ifs with hfc
    · subst hfc
      unfold Offsets.record
      split_ifs
      · exact this.append hat
      · exact this
    · exact this
  · have := h.lt f
    rw [hops, update_apply]
    grind
  · have hfc : f ≠ c.file := by
      rintro rfl
      exact hf p c r (by rw [hpcq, if_pos rfl]) rfl
    rw [hoff, hops, update_of_ne hfc]
    exact h.off f fun q d t hq => hf q d t (by grind)
  · have := h.adding q d t
    have := hother q d t
    rw [hops, update_apply]
    grind
  · have := h.chunks q
    grind

theorem toNat_emod_lt (n : ℤ) : (n % 2 ^ 32).toNat < 2 ^ 32 := by
  have := Int.emod_lt_of_pos n (show (0 : ℤ) < 2 ^ 32 by decide)
  omega

variable [DecidableEq κ]

theorem Inv.transfer (h : Inv F off₀ s) (hp : s.pc p = .io c) {io : ℕ → Io}
    (hs : transfer F s p io c = some s') : Inv F off₀ s' := by
  have hoff := h.off_lt hp
  have hold := h.chunks p
  rw [hp] at hold
  cases c with
  | read f n =>
    obtain ⟨r, hr, rfl⟩ := Option.map_eq_some_iff.mp hs
    exact h.record hp (readi_spec (toNat_emod_lt n) (h.size _) hr) rfl rfl rfl h.size rfl trivial
      fun _ _ => rfl
  | write f n i n1 =>
    obtain ⟨⟨r, size⟩, hr, rfl⟩ := Option.map_eq_some_iff.mp hs
    obtain ⟨hsize, -, hlt⟩ := writei_spec hoff (toNat_emod_lt n1) (h.size _) hr
    refine h.record hp hlt rfl rfl rfl (fun k => ?_) rfl ?_ fun q hq => update_of_ne hq _ _
    · have := h.size k
      change update s.size (F.ip f) size k < _
      rw [update_apply]
      grind
    · exact ⟨s.chunks p, update_self .., hold⟩

theorem Inv.go (h : Inv F off₀ s) {io : ℕ → Io} (hs : go F s p io = some s') : Inv F off₀ s' := by
  unfold Offsets.go at hs
  have hold := h.chunks p
  cases hp : s.pc p with
  | out =>
    rw [hp] at hs
    cases hs
  | loop f n i =>
    rw [hp] at hs hold
    dsimp only at hs
    split_ifs at hs with hi
    · cases hs
      exact h.idle (by simp [hp]) (by simp [Pc.holds]) ⟨hold, hi, rfl⟩
    · cases hs
      exact h.idle (by simp [hp]) (by simp [Pc.holds]) (hold.returns hi)
  | lock c =>
    rw [hp] at hs hold
    dsimp only at hs
    split_ifs at hs with hfree
    cases hs
    refine h.goto p (.io c) rfl rfl rfl rfl (by simp [hp]) (by simp) (fun d hd => ?_)
      (fun q d hqp hq => ?_) (by cases c <;> exact hold) fun _ _ => rfl
    · obtain hd | ⟨t, hd⟩ | ⟨t, hd⟩ := hd
      · cases hd
        exact update_self ..
      · cases hd
      · cases hd
    · refine update_of_ne ?_ _ _
      intro heq
      have := h.lock q d hq
      rw [heq, hfree] at this
      cases this
  | io c =>
    rw [hp] at hs
    exact h.transfer hp hs
  | add c r =>
    rw [hp] at hs
    cases hs
    exact h.add hp
  | unlock c r =>
    rw [hp] at hs hold
    cases hs
    have hout : ∀ d, ¬ (afterUnlock c r).holds d := by
      intro d
      unfold afterUnlock
      split
      · simp [Pc.holds]
      · split_ifs <;> simp [Pc.holds]
    refine h.goto p (afterUnlock c r) rfl rfl rfl rfl (by simp [hp])
      (fun d t hd => hout d (.inr (.inl ⟨t, hd⟩))) (fun d hd => absurd hd (hout d))
      (fun q d hqp hq => ?_) ?_ fun _ _ => rfl
    · refine update_of_ne ?_ _ _
      intro heq
      exact hqp (h.eq_of_holds (.inr (.inr ⟨r, hp⟩)) hq heq.symm)
    · cases c with
      | read => trivial
      | write f n i n1 =>
        obtain ⟨l, hl, hprog, hi, hn1⟩ := hold
        change Chunks (s.chunks p) _
        rw [hl]
        unfold afterUnlock
        dsimp only
        split_ifs with hr
        · exact hprog.breaks hi hn1 hr
        · obtain rfl := not_not.mp hr
          exact hprog.add hi hn1
  | ret r | writeRet n r =>
    rw [hp] at hs
    cases hs
    exact h.idle (by simp [hp]) (by simp [Pc.holds]) trivial

theorem Inv.step (h : Inv F off₀ s) {l : Label ι φ κ} (hs : next F s l = some s') : Inv F off₀ s' := by
  cases l with
  | fileread p f n =>
    simp only [next] at hs
    split at hs
    next hp =>
      cases hs
      refine h.idle (by simp [hp]) (by split_ifs <;> simp [Pc.holds]) ?_
      split_ifs <;> trivial
    next => cases hs
  | filewrite p f n =>
    simp only [next] at hs
    split at hs
    next hp =>
      split_ifs at hs
      · cases hs
        refine h.goto p (.loop f n 0) rfl rfl rfl rfl (by simp [hp]) (by simp)
          (by simp [Pc.holds]) (fun _ _ _ _ => rfl) ?_ fun q hq => update_of_ne hq _ _
        simp only [update_self]
        exact progress_nil
      · cases hs
        exact h.idle (by simp [hp]) (by simp [Pc.holds]) trivial
    next => cases hs
  | go p io => exact h.go hs
  | resize k size =>
    simp only [next] at hs
    split_ifs at hs with hk
    cases hs
    refine ⟨h.lock, h.chain, h.lt, fun j => ?_, h.off, h.adding, h.chunks⟩
    change update s.size k size j < _
    by_cases hjk : j = k
    · rw [hjk, update_self]
      exact hk.2
    · rw [update_of_ne hjk]
      exact h.size j

theorem Run.inv {size0 : κ → ℕ} (hoff : ∀ f, off₀ f < 2 ^ 32) (hsize : ∀ k, size0 k < 2 ^ 32)
    (h : Run F off₀ size0 s) : Inv F off₀ s := by
  refine h.invariant (P := Inv F off₀) ?_ fun s l s' hinv _ hs => hinv.step hs
  exact ⟨fun p c hp => by simp [State.init, Pc.holds] at hp, fun _ => trivial, hoff, hsize, fun _ _ => rfl,
    fun p c r hp => by simp [State.init] at hp, fun _ => trivial⟩

end Steps

/-- **Shared offsets lose no update.** In every run, the operations on a `struct file` that transferred
bytes, in the order in which they held the lock of the inode, each start where the one before it
ended, so that no two overlap; while the lock is free, the offset is its first value plus the number
of bytes transferred. A `filewrite` of `n` bytes returns `n` exactly if all its chunks were written
completely, and then they make up the `n` bytes; each chunk has at most `maxChunk` bytes; and for a
negative `n` it writes nothing and returns -1. -/
theorem file_offsets {ι φ κ : Type} [DecidableEq ι] [DecidableEq φ] [DecidableEq κ] {F : Files φ κ}
    {off₀ : φ → ℕ} {size₀ : κ → ℕ} {s : State ι φ κ} (hoff : ∀ f, off₀ f < 2 ^ 32)
    (hsize : ∀ k, size₀ k < 2 ^ 32) (h : Run F off₀ size₀ s) :
    (∀ f, Chain (off₀ f) (s.ops f)) ∧
    (∀ f, (s.ops f).Pairwise fun a b => a.start + a.len ≤ b.start) ∧
    (∀ f, s.lock (F.ip f) = none → s.off f = off₀ f + total (s.ops f)) ∧
    (∀ p n r, s.pc p = .writeRet n r → Returns n r (s.chunks p)) := by
  have hinv := Run.inv hoff hsize h
  refine ⟨hinv.chain, fun f => (hinv.chain f).pairwise, fun f hfree => ?_, fun p n r hp => ?_⟩
  · refine hinv.off f fun p c r hp heq => ?_
    have := hinv.lock p c (.inr (.inl ⟨r, hp⟩))
    rw [heq, hfree] at this
    cases this
  · have := hinv.chunks p
    rwa [hp] at this

/-- One `struct file` of one inode, open for reading and writing. -/
def oneFile : Files Unit Unit := ⟨fun _ => true, fun _ => true, fun _ => ()⟩

/-- Two processes write 4000 bytes and 10 bytes to the file, the second one between the two chunks of the
first. -/
def interleaved : List (Label (Fin 2) Unit Unit) :=
  [.filewrite 0 () 4000, .go 0 fun _ => .ok, .go 0 fun _ => .ok, .filewrite 1 () 10, .go 0 fun _ => .ok,
    .go 1 fun _ => .ok, .go 0 fun _ => .ok, .go 0 fun _ => .ok, .go 1 fun _ => .ok, .go 0 fun _ => .ok,
    .go 1 fun _ => .ok, .go 1 fun _ => .ok, .go 1 fun _ => .ok, .go 1 fun _ => .ok, .go 0 fun _ => .ok,
    .go 0 fun _ => .ok, .go 0 fun _ => .ok, .go 0 fun _ => .ok, .go 0 fun _ => .ok]

theorem file_offsets_interleaved : ∃ s : State (Fin 2) Unit Unit,
    Run oneFile (fun _ => 0) (fun _ => 0) s ∧ s.ops () = [⟨0, 3072⟩, ⟨3072, 10⟩, ⟨3082, 928⟩] ∧
    s.pc 0 = .writeRet 4000 4000 ∧ s.off () = 4010 := by
  have hex : ((Lib.execute (next oneFile) (fun _ _ => true)
      (State.init (fun _ => 0) fun _ => 0 : State (Fin 2) Unit Unit) interleaved).map fun s =>
        (s.ops (), s.pc 0, s.lock ())) =
      some ([⟨0, 3072⟩, ⟨3072, 10⟩, ⟨3082, 928⟩], .writeRet 4000 4000, none) := by
    decide +kernel
  obtain ⟨s, hs, heq⟩ := Option.map_eq_some_iff.mp hex
  simp only [Prod.mk.injEq] at heq
  obtain ⟨hops, hpc, hlock⟩ := heq
  have hrun : Run oneFile (fun _ => 0) (fun _ => 0) s :=
    Lib.Reach.execute (fun _ _ _ h => h) (fun _ _ _ => trivial) .init hs
  refine ⟨s, hrun, hops, hpc, ?_⟩
  have hoff := (file_offsets (by simp) (by simp) hrun).2.2.1 () hlock
  rw [hoff, hops]
  rfl

end Xv6.Offsets
