import Xv6.Param
import Xv6.Lib.CList

/-!
# The buffer cache

The data of `kernel/bio.c` and its functions, cut at the points where a lock is taken or released, so
that any number of processes can interleave. `bread` is the critical section of `bget`, then the wait
for the buffer's sleep lock, then the read from the disk if the buffer is not valid. `brelse` is the
release of the sleep lock, then a critical section of its own.

`CacheInv` is the invariant of the cache by itself: the list contains every buffer, no block has two
buffers, and a reference count counts the processes between `bget` and the end of `brelse`, and the
pins. It does not mention the contents of the buffers.
-/

namespace Xv6.Bio

open Lib (CList)
open Function (update_of_ne update_self)

/-- An index into `bcache.buf`. -/
abbrev BufId : Type := Fin NBUF

/-- `struct buf`, without the fields of the list and of the disk driver. `lock` is the process that
holds the sleep lock. -/
structure Buf where
  valid : Bool
  dev : ℕ
  blockno : ℕ
  lock : Option ℕ
  refcnt : ℕ
  data : Block

/-- `bcache`. The head of the list is its node `none`. -/
structure Bcache where
  buf : BufId → Buf
  list : CList BufId

/-- The cache with buffer `i` changed by `f`. -/
def Bcache.modify (c : Bcache) (i : BufId) (f : Buf → Buf) : Bcache :=
  { c with buf := Function.update c.buf i (f (c.buf i)) }

/-- `binit`: the buffers are zeroed and inserted one after the other. -/
def binit : Bcache where
  buf := fun _ => ⟨false, 0, 0, none, 0, Lib.Bytes.fill BSIZE 0⟩
  list := (List.finRange NBUF).foldl CList.insertFront CList.empty

/-- The first loop of `bget`: look for the block from the most recently used buffer on. -/
def bgetFind (c : Bcache) (dev blockno : ℕ) : Option BufId :=
  CList.scan c.list.next (fun i => (c.buf i).dev = dev ∧ (c.buf i).blockno = blockno) (NBUF + 1)
    (c.list.next none)

/-- The second loop of `bget`: look for an unused buffer from the least recently used one on. -/
def bgetRecycle (c : Bcache) : Option BufId :=
  CList.scan c.list.prev (fun i => (c.buf i).refcnt = 0) (NBUF + 1) (c.list.prev none)

/-- The critical section of `bget`: the buffer and the new cache, or `none` where it panics for lack
of buffers. -/
def bget (c : Bcache) (dev blockno : ℕ) : Option (BufId × Bcache) :=
  match bgetFind c dev blockno with
  | some i => some (i, c.modify i fun b => { b with refcnt := b.refcnt + 1 })
  | none =>
    match bgetRecycle c with
    | some i => some (i, c.modify i fun b =>
        { b with dev := dev, blockno := blockno, valid := false, refcnt := 1 })
    | none => none

/-- The critical section of `brelse`: drop the reference, and move a buffer that is no longer used to
the front of the list. -/
def brelse (c : Bcache) (i : BufId) : Bcache :=
  let c := c.modify i fun b => { b with refcnt := b.refcnt - 1 }
  if (c.buf i).refcnt = 0 then { c with list := (c.list.unlink i).insertFront i } else c

/-- `bpin`. -/
def bpin (c : Bcache) (i : BufId) : Bcache := c.modify i fun b => { b with refcnt := b.refcnt + 1 }

/-- `bunpin`. -/
def bunpin (c : Bcache) (i : BufId) : Bcache :=
  c.modify i fun b => { b with refcnt := b.refcnt - 1 }

/-- Where a process is inside `bread` or `brelse`. -/
inductive Call
  /-- in `bget` for the block, past the critical section, before `acquiresleep` returns -/
  | lock (dev blockno : ℕ) (i : BufId)
  /-- in `bread`, with the lock held, reading the block from the disk -/
  | fill (dev blockno : ℕ) (i : BufId)
  /-- in `brelse`, past `releasesleep`, before the critical section -/
  | rel (i : BufId)
  deriving DecidableEq

/-! ## What the operations do to the buffers -/

section Modify

variable (c : Bcache) (i : BufId) (f : Buf → Buf)

@[simp]
theorem Bcache.modify_self : (c.modify i f).buf i = f (c.buf i) := by
  simp [Bcache.modify]

theorem Bcache.modify_of_ne {j : BufId} (h : j ≠ i) : (c.modify i f).buf j = c.buf j := by
  simp [Bcache.modify, h]

@[simp]
theorem Bcache.modify_list : (c.modify i f).list = c.list := rfl

theorem brelse_buf (j : BufId) :
    (brelse c i).buf j = (c.modify i fun b => { b with refcnt := b.refcnt - 1 }).buf j := by
  simp only [brelse]
  split_ifs <;> rfl

end Modify

/-- The list is circular through the head and contains every buffer once. -/
def Complete (c : Bcache) : Prop := ∃ l, c.list.Lists l ∧ ∀ i, i ∈ l

theorem lists_binit : binit.list.Lists (List.finRange NBUF).reverse := by
  have hfold : ∀ (is l : List BufId) (cl : CList BufId), cl.Lists l → is.Nodup →
      (∀ i ∈ is, i ∉ l) → (is.foldl CList.insertFront cl).Lists (is.reverse ++ l) := by
    intro is
    induction is with
    | nil => exact fun l cl h _ _ => by simpa using h
    | cons i is ih =>
      intro l cl h hnd hnew
      obtain ⟨hi, hnd⟩ := List.nodup_cons.mp hnd
      have := ih (i :: l) _ (h.insertFront (hnew i (by simp))) hnd fun j hj => by
        have hji : j ≠ i := fun e => hi (e ▸ hj)
        simpa [hji] using hnew j (by simp [hj])
      simpa using this
  have := hfold _ [] _ CList.lists_empty (List.nodup_finRange NBUF) (by simp)
  rwa [List.append_nil] at this

theorem complete_binit : Complete binit := ⟨_, lists_binit, fun i => by simp⟩

theorem length_lt_of_nodup {l : List BufId} (h : l.Nodup) : l.length < NBUF + 1 := by
  have := h.length_le_card
  rw [Fintype.card_fin] at this
  omega

theorem bgetFind_eq_none {c : Bcache} (hc : Complete c) {dev b : ℕ} (h : bgetFind c dev b = none)
    (i : BufId) : ¬ ((c.buf i).dev = dev ∧ (c.buf i).blockno = b) := by
  obtain ⟨l, hl, hall⟩ := hc
  rw [bgetFind, hl.seg.scan_next _ (length_lt_of_nodup hl.nodup)] at h
  simpa using List.find?_eq_none.mp h i (hall i)

theorem bgetFind_eq_some {c : Bcache} (hc : Complete c) {dev b : ℕ} {i : BufId}
    (h : bgetFind c dev b = some i) : (c.buf i).dev = dev ∧ (c.buf i).blockno = b := by
  obtain ⟨l, hl, -⟩ := hc
  rw [bgetFind, hl.seg.scan_next _ (length_lt_of_nodup hl.nodup)] at h
  simpa using List.find?_some h

theorem bgetRecycle_eq_some {c : Bcache} (hc : Complete c) {i : BufId}
    (h : bgetRecycle c = some i) : (c.buf i).refcnt = 0 := by
  obtain ⟨l, hl, -⟩ := hc
  rw [bgetRecycle, hl.seg.scan_prev _ (length_lt_of_nodup hl.nodup)] at h
  simpa using List.find?_some h

/-! ## The invariant of the cache -/

/-- The buffer on which a call counts as a reference besides the holder of the lock. -/
def Call.ref : Call → Option BufId
  | .lock _ _ i => some i
  | .fill _ _ _ => none
  | .rel i => some i

/-- The processes that have a reference to `i` without holding its lock. -/
def Waiters (call : ℕ → Option Call) (i : BufId) (W : Finset ℕ) : Prop :=
  ∀ p, p ∈ W ↔ (call p).bind Call.ref = some i

/-- The invariant of the cache: the list is complete; a block of a device has at most one buffer; a
reference count is the number of processes that wait for the lock, hold it or are releasing the
buffer, and the pins; the buffer of a process inside `bget` or `bread` has the block asked for; and a
locked buffer is valid, unless its holder is reading it from the disk. -/
structure CacheInv (c : Bcache) (call : ℕ → Option Call) (pins : BufId → ℕ) : Prop where
  complete : Complete c
  unique : ∀ i j, (c.buf i).dev ≠ 0 → (c.buf i).dev = (c.buf j).dev →
    (c.buf i).blockno = (c.buf j).blockno → i = j
  refs : ∀ i, ∃ W, Waiters call i W ∧
    (c.buf i).refcnt = W.card + (if (c.buf i).lock.isSome then 1 else 0) + pins i
  lockCall : ∀ p dev b i, call p = some (.lock dev b i) →
    (c.buf i).dev = dev ∧ (c.buf i).blockno = b
  fillCall : ∀ p dev b i, call p = some (.fill dev b i) →
    (c.buf i).dev = dev ∧ (c.buf i).blockno = b ∧ (c.buf i).lock = some p ∧
      (c.buf i).valid = false
  valid : ∀ i p, (c.buf i).lock = some p →
    (c.buf i).valid = true ∨ ∃ dev b, call p = some (.fill dev b i)

theorem CacheInv.binit : CacheInv Bio.binit (fun _ => none) fun _ => 0 := by
  refine ⟨complete_binit, fun i j h => absurd rfl h, fun i => ⟨∅, fun p => by simp, rfl⟩, ?_, ?_, ?_⟩
  · simp
  · simp
  · simp [Bio.binit]

theorem Waiters.update {call : ℕ → Option Call} {i : BufId} {W : Finset ℕ} (h : Waiters call i W)
    (p : ℕ) (x : Option Call) : ∃ W', Waiters (Function.update call p x) i W' ∧
      W'.card + (if (call p).bind Call.ref = some i then 1 else 0) =
        W.card + if x.bind Call.ref = some i then 1 else 0 := by
  have hmem := h p
  have hother : ∀ q, q ≠ p → Function.update call p x q = call q :=
    fun q hq => update_of_ne hq _ _
  by_cases hx : x.bind Call.ref = some i
  · refine ⟨insert p W, fun q => ?_, ?_⟩
    · by_cases hq : q = p
      · simp [hq, hx]
      · simp [hq, h q]
    · rw [if_pos hx]
      split_ifs with hp
      · rw [Finset.insert_eq_of_mem (hmem.mpr hp)]
      · rw [Finset.card_insert_of_notMem (fun hmem' => hp (hmem.mp hmem'))]
  · refine ⟨W.erase p, fun q => ?_, ?_⟩
    · by_cases hq : q = p
      · simp [hq, hx]
      · simp [hq, h q]
    · rw [if_neg hx]
      split_ifs with hp
      · exact Finset.card_erase_add_one (hmem.mpr hp)
      · rw [Finset.erase_eq_of_notMem (fun hmem' => hp (hmem.mp hmem'))]

namespace CacheInv

variable {c : Bcache} {call : ℕ → Option Call} {pins : BufId → ℕ} {p dev b : ℕ} {i : BufId}

theorem of_refcnt_zero (h : CacheInv c call pins) (hi : (c.buf i).refcnt = 0) :
    (c.buf i).lock = none ∧ pins i = 0 ∧ ∀ q, (call q).bind Call.ref ≠ some i := by
  obtain ⟨W, hW, hcount⟩ := h.refs i
  rw [hi] at hcount
  have hlock : ¬ (c.buf i).lock.isSome := fun hsome => by
    rw [if_pos hsome] at hcount
    omega
  have hcard : W.card = 0 := by omega
  refine ⟨by simpa using hlock, by omega, fun q hq => ?_⟩
  have := (hW q).mpr hq
  simp [Finset.card_eq_zero.mp hcard] at this

theorem keep (h : CacheInv c call pins) {f : Buf → Buf} {pins' : BufId → ℕ}
    (hv : (f (c.buf i)).valid = (c.buf i).valid) (hd : (f (c.buf i)).dev = (c.buf i).dev)
    (hb : (f (c.buf i)).blockno = (c.buf i).blockno) (hl : (f (c.buf i)).lock = (c.buf i).lock)
    (hr : (f (c.buf i)).refcnt + pins i = (c.buf i).refcnt + pins' i)
    (hpins : ∀ j, j ≠ i → pins' j = pins j) : CacheInv (c.modify i f) call pins' := by
  have hall : ∀ j, ((c.modify i f).buf j).valid = (c.buf j).valid ∧
      ((c.modify i f).buf j).dev = (c.buf j).dev ∧
      ((c.modify i f).buf j).blockno = (c.buf j).blockno ∧
      ((c.modify i f).buf j).lock = (c.buf j).lock := by
    intro j
    by_cases hj : j = i
    · subst hj
      simp [hv, hd, hb, hl]
    · simp [c.modify_of_ne i f hj]
  refine ⟨h.complete, ?_, fun j => ?_, ?_, ?_, ?_⟩
  · simpa only [hall] using h.unique
  · obtain ⟨W, hW, hcount⟩ := h.refs j
    refine ⟨W, hW, ?_⟩
    rw [(hall j).2.2.2]
    by_cases hj : j = i
    · subst hj
      rw [Bcache.modify_self]
      omega
    · rw [c.modify_of_ne i f hj, hpins j hj, hcount]
  · simpa only [hall] using h.lockCall
  · simpa only [hall] using h.fillCall
  · simpa only [hall] using h.valid

/-- What a step of process `p` on buffer `i` has to keep: `f` is what happens to the buffer and `x` the
new call of `p`. The conditions say that the references add up, that the block of a buffer in use stays
the same, and that the new call and the new holder fit. -/
structure Fits (c : Bcache) (call : ℕ → Option Call) (p : ℕ) (i : BufId) (f : Buf → Buf)
    (x : Option Call) (n n' : ℕ) : Prop where
  unique : ∀ j, j ≠ i → (f (c.buf i)).dev ≠ 0 → (f (c.buf i)).dev = (c.buf j).dev →
    (f (c.buf i)).blockno ≠ (c.buf j).blockno
  same : ∀ q, q ≠ p → ((call q).bind Call.ref = some i ∨ (c.buf i).lock = some q) →
    (f (c.buf i)).dev = (c.buf i).dev ∧ (f (c.buf i)).blockno = (c.buf i).blockno
  old : ∀ j, (call p).bind Call.ref = some j → j = i
  new : ∀ j, x.bind Call.ref = some j → j = i
  count : (f (c.buf i)).refcnt + (if (call p).bind Call.ref = some i then 1 else 0) +
      (if (c.buf i).lock.isSome then 1 else 0) + n =
    (c.buf i).refcnt + (if x.bind Call.ref = some i then 1 else 0) +
      (if (f (c.buf i)).lock.isSome then 1 else 0) + n'
  oldFill : ∀ dev b j, call p = some (.fill dev b j) → j = i
  lockCall : ∀ dev b j, x = some (.lock dev b j) →
    (f (c.buf i)).dev = dev ∧ (f (c.buf i)).blockno = b
  fillCall : ∀ dev b j, x = some (.fill dev b j) →
    j = i ∧ (f (c.buf i)).dev = dev ∧ (f (c.buf i)).blockno = b ∧ (f (c.buf i)).lock = some p ∧
      (f (c.buf i)).valid = false
  lock : ∀ q, q ≠ p → ((c.buf i).lock = some q ↔ (f (c.buf i)).lock = some q)
  valid : ((f (c.buf i)).lock = some p →
      (f (c.buf i)).valid = true ∨ ∃ dev b, x = some (.fill dev b i)) ∧
    ∀ q, q ≠ p → (f (c.buf i)).lock = some q → (f (c.buf i)).valid = (c.buf i).valid

theorem update (h : CacheInv c call pins) {f : Buf → Buf} {x : Option Call} {c' : Bcache}
    {pins' : BufId → ℕ} (hbuf : ∀ j, c'.buf j = (c.modify i f).buf j) (hc : Complete c')
    (hpins : ∀ j, j ≠ i → pins' j = pins j) (hf : Fits c call p i f x (pins i) (pins' i)) :
    CacheInv c' (Function.update call p x) pins' := by
  have hself : c'.buf i = f (c.buf i) := by rw [hbuf, Bcache.modify_self]
  have hne : ∀ j, j ≠ i → c'.buf j = c.buf j := fun j hj => by rw [hbuf, c.modify_of_ne i f hj]
  refine ⟨hc, fun j k hdev hjk hbk => ?_, fun j => ?_, fun q dev b j hq => ?_,
    fun q dev b j hq => ?_, fun j q hq => ?_⟩
  · have := h.unique j k
    have := hf.unique j
    have := hf.unique k
    have := hne j
    have := hne k
    grind
  · obtain ⟨W, hW, hcount⟩ := h.refs j
    obtain ⟨W', hW', hcard⟩ := hW.update p x
    refine ⟨W', hW', ?_⟩
    by_cases hj : j = i
    · subst hj
      have := hf.count
      rw [hself]
      omega
    · rw [hne j hj, hpins j hj, hcount]
      rw [if_neg fun e => hj (hf.old j e), if_neg fun e => hj (hf.new j e)] at hcard
      omega
  · by_cases hqp : q = p
    · subst hqp
      rw [update_self] at hq
      obtain rfl : j = i := hf.new j (by rw [hq]; rfl)
      rw [hself]
      exact hf.lockCall dev b j hq
    · rw [update_of_ne hqp] at hq
      have hold := h.lockCall q dev b j hq
      have := fun hj : j = i => hf.same q hqp (.inl (by rw [hq, hj]; rfl))
      have := hne j
      grind
  · have hold := h.fillCall q dev b j
    have := hf.fillCall dev b j
    have := hf.same q
    have := hf.lock q
    have := hf.valid.2 q
    have := hne j
    rw [Function.update_apply] at hq
    grind
  · have hold := h.valid j q
    have := hf.valid.1
    have := hf.valid.2 q
    have := hf.lock q
    have := fun dev b => hf.oldFill dev b j
    have := hne j
    simp only [Function.update_apply]
    grind

theorem unique_of_same (h : CacheInv c call pins) {d : Buf} (hd : d.dev = (c.buf i).dev)
    (hb : d.blockno = (c.buf i).blockno) (j : BufId) (hj : j ≠ i) (h0 : d.dev ≠ 0)
    (hdev : d.dev = (c.buf j).dev) : d.blockno ≠ (c.buf j).blockno := by
  intro hbj
  exact hj (h.unique i j (hd ▸ h0) (hd ▸ hdev) (hb ▸ hbj)).symm

/-- The buffer that `bget` returns has the block and is as it was, apart from its count, or it was
unused, is not valid, and no buffer had the block. -/
theorem bget_spec (hc : Complete c) {c' : Bcache} (hget : bget c dev b = some (i, c')) :
    ((c.buf i).dev = dev ∧ (c.buf i).blockno = b ∧
        c' = c.modify i fun d => { d with refcnt := d.refcnt + 1 }) ∨
      ((∀ j, ¬ ((c.buf j).dev = dev ∧ (c.buf j).blockno = b)) ∧ (c.buf i).refcnt = 0 ∧
        c' = c.modify i fun d =>
          { d with dev := dev, blockno := b, valid := false, refcnt := 1 }) := by
  unfold Bio.bget at hget
  split at hget
  · next hfind =>
    cases hget
    obtain ⟨h1, h2⟩ := bgetFind_eq_some hc hfind
    exact .inl ⟨h1, h2, rfl⟩
  · next hfind =>
    split at hget
    · next hrec =>
      cases hget
      exact .inr ⟨bgetFind_eq_none hc hfind, bgetRecycle_eq_some hc hrec, rfl⟩
    · cases hget

theorem bget (h : CacheInv c call pins) (hp : call p = none) {c' : Bcache}
    (hget : bget c dev b = some (i, c')) :
    CacheInv c' (Function.update call p (some (.lock dev b i))) pins := by
  rcases bget_spec h.complete hget with ⟨h1, h2, rfl⟩ | ⟨hno, hzero, rfl⟩
  · refine h.update (fun _ => rfl) h.complete (fun _ _ => rfl) ?_
    exact {
      unique := h.unique_of_same rfl rfl
      same := fun _ _ _ => ⟨rfl, rfl⟩
      old := by simp [hp]
      new := by simp [Call.ref]
      count := by simp [hp, Call.ref, add_right_comm]
      oldFill := by simp [hp]
      lockCall := by simp [h1, h2]
      fillCall := by simp
      lock := fun _ _ => Iff.rfl
      valid := ⟨fun hl => by simpa [hp] using h.valid i p hl, fun _ _ _ => rfl⟩ }
  · obtain ⟨hlock, -, hwait⟩ := h.of_refcnt_zero hzero
    refine h.update (fun _ => rfl) h.complete (fun _ _ => rfl) ?_
    exact {
      unique := fun j _ _ hd hb => hno j ⟨hd.symm, hb.symm⟩
      same := fun q _ hq => by
        rcases hq with hq | hq
        · exact absurd hq (hwait q)
        · simp [hlock] at hq
      old := by simp [hp]
      new := by simp [Call.ref]
      count := by simp [hp, Call.ref, hzero, hlock]
      oldFill := by simp [hp]
      lockCall := by simp
      fillCall := by simp
      lock := fun _ _ => Iff.rfl
      valid := by simp [hlock] }

theorem lock (h : CacheInv c call pins) (hp : call p = some (.lock dev b i))
    (hfree : (c.buf i).lock = none) :
    CacheInv (c.modify i fun d => { d with lock := some p })
      (Function.update call p (if (c.buf i).valid then none else some (.fill dev b i))) pins := by
  obtain ⟨h1, h2⟩ := h.lockCall p dev b i hp
  have href : (if (c.buf i).valid then none else some (Call.fill dev b i)).bind Call.ref = none := by
    split_ifs <;> rfl
  refine h.update (fun _ => rfl) h.complete (fun _ _ => rfl) ?_
  exact {
    unique := h.unique_of_same rfl rfl
    same := fun _ _ _ => ⟨rfl, rfl⟩
    old := by simp [hp, Call.ref]
    new := by simp [href]
    count := by simp [hp, href, Call.ref, hfree]
    oldFill := by simp [hp]
    lockCall := fun dev' b' j hx => by split_ifs at hx; simp at hx
    fillCall := fun dev' b' j hx => by
      split_ifs at hx with hv
      simp only [Option.some.injEq, Call.fill.injEq] at hx
      obtain ⟨rfl, rfl, rfl⟩ := hx
      exact ⟨rfl, h1, h2, rfl, by simpa using hv⟩
    lock := fun q hq => by simp [hfree, hq.symm]
    valid := by
      refine ⟨fun _ => ?_, fun q hq hl => absurd (Option.some.inj hl).symm hq⟩
      by_cases hv : (c.buf i).valid <;> simp [hv] }

theorem fill (h : CacheInv c call pins) (hp : call p = some (.fill dev b i)) (d : Block) :
    CacheInv (c.modify i fun x => { x with data := d, valid := true })
      (Function.update call p none) pins := by
  obtain ⟨-, -, hl, -⟩ := h.fillCall p dev b i hp
  refine h.update (fun _ => rfl) h.complete (fun _ _ => rfl) ?_
  exact {
    unique := h.unique_of_same rfl rfl
    same := fun _ _ _ => ⟨rfl, rfl⟩
    old := by simp [hp, Call.ref]
    new := by simp
    count := by simp [hp, Call.ref]
    oldFill := by simp [hp]
    lockCall := by simp
    fillCall := by simp
    lock := fun _ _ => Iff.rfl
    valid := ⟨fun _ => .inl rfl, fun q hq hq' => absurd (by simpa [hl] using hq') (Ne.symm hq)⟩ }

theorem release (h : CacheInv c call pins) (hp : call p = none) (hl : (c.buf i).lock = some p) :
    CacheInv (c.modify i fun d => { d with lock := none })
      (Function.update call p (some (.rel i))) pins := by
  refine h.update (fun _ => rfl) h.complete (fun _ _ => rfl) ?_
  exact {
    unique := h.unique_of_same rfl rfl
    same := fun _ _ _ => ⟨rfl, rfl⟩
    old := by simp [hp]
    new := by simp [Call.ref]
    count := by simp [hp, Call.ref, hl]
    oldFill := by simp [hp]
    lockCall := by simp
    fillCall := by simp
    lock := fun q hq => by simp [hl, hq.symm]
    valid := by simp }

theorem rel (h : CacheInv c call pins) (hp : call p = some (.rel i)) :
    CacheInv (brelse c i) (Function.update call p none) pins := by
  have hpos : 0 < (c.buf i).refcnt := by
    by_contra h0
    have := (h.of_refcnt_zero (i := i) (by omega)).2.2 p
    simp [hp, Call.ref] at this
  refine h.update (brelse_buf c i) ?_ (fun _ _ => rfl) ?_
  · -- Moving a buffer within the list leaves it complete.
    obtain ⟨l, hl, hall⟩ := h.complete
    simp only [brelse]
    split_ifs
    · refine ⟨_, hl.moveFront (hall i), fun j => ?_⟩
      by_cases hj : j = i
      · simp [hj]
      · simp [hj, List.mem_erase_of_ne hj, hall j]
    · exact ⟨l, hl, hall⟩
  · exact {
      unique := h.unique_of_same rfl rfl
      same := fun _ _ _ => ⟨rfl, rfl⟩
      old := by simp [hp, Call.ref]
      new := by simp
      count := by simp [hp, Call.ref]; omega
      oldFill := by simp [hp]
      lockCall := by simp
      fillCall := by simp
      lock := fun _ _ => Iff.rfl
      valid := ⟨fun hl => by simpa [hp] using h.valid i p hl, fun _ _ _ => rfl⟩ }

end CacheInv

end Xv6.Bio
