import Xv6.Bio.Cache
import Xv6.Lib.Run

/-!
# The buffer cache by itself

Any number of processes call `bget`, `brelse`, `bpin` and `bunpin`; a step is what one of them does
while it holds `bcache.lock`, or the taking or release of a buffer's sleep lock. What the holder of a
buffer does with its contents is a step of its own.

The state has two things that the code has not: the pins of each buffer that are not yet undone, and a
clock, which gives each buffer the time at which `brelse` last left it without references. The list is
sorted by these times.
-/

namespace Xv6.Bio.Lru

open Function

open Lib (CList)

/-- The cache, where each process is in `bget` or `brelse`, the pins, and the time of the last `brelse`
that left a buffer without references. -/
structure State where
  cache : Bcache
  call : ℕ → Option Call
  pins : BufId → ℕ
  time : BufId → ℕ
  clock : ℕ

/-- The state after `binit`, which inserts the buffers one after the other. -/
def init : State := ⟨binit, fun _ => none, fun _ => 0, fun i => i, NBUF⟩

/-- The steps of process `p`. -/
inductive Act
  /-- it passes the critical section of `bget` -/
  | bget (p dev blockno : ℕ)
  /-- it takes the sleep lock and returns from `bget` -/
  | lock (p : ℕ)
  /-- it changes the contents of a buffer that it has locked -/
  | put (p : ℕ) (i : BufId) (valid : Bool) (data : Block)
  /-- it calls `brelse` and releases the sleep lock -/
  | brelse (p : ℕ) (i : BufId)
  /-- it passes the critical section of `brelse` -/
  | rel (p : ℕ)
  | bpin (p : ℕ) (i : BufId)
  /-- it undoes a pin -/
  | bunpin (p : ℕ) (i : BufId)

/-- A step, where it is possible. A `bget` that finds no buffer panics. -/
def step (s : State) : Act → Option State
  | .bget p dev b =>
    if s.call p = none then
      match Bio.bget s.cache dev b with
      | some (i, c) =>
        some { s with cache := c, call := update s.call p (some (.lock dev b i)) }
      | none => none
    else none
  | .lock p =>
    match s.call p with
    | some (.lock _ _ i) =>
      if (s.cache.buf i).lock = none then
        some { s with
          cache := s.cache.modify i fun d => { d with lock := some p }
          call := update s.call p none }
      else none
    | _ => none
  | .put p i valid data =>
    if (s.cache.buf i).lock = some p then
      some { s with cache := s.cache.modify i fun d => { d with valid := valid, data := data } }
    else none
  | .brelse p i =>
    if s.call p = none ∧ (s.cache.buf i).lock = some p then
      some { s with
        cache := s.cache.modify i fun d => { d with lock := none }
        call := update s.call p (some (.rel i)) }
    else none
  | .rel p =>
    match s.call p with
    | some (.rel i) =>
      let s := { s with cache := Bio.brelse s.cache i, call := update s.call p none }
      if (s.cache.buf i).refcnt = 0 then
        some { s with time := update s.time i s.clock, clock := s.clock + 1 }
      else some s
    | _ => none
  | .bpin p i =>
    if s.call p = none then
      some { s with
        cache := Bio.bpin s.cache i
        pins := update s.pins i (s.pins i + 1) }
    else none
  | .bunpin p i =>
    if s.call p = none ∧ 0 < s.pins i then
      some { s with
        cache := Bio.bunpin s.cache i
        pins := update s.pins i (s.pins i - 1) }
    else none

/-- The states of runs. -/
def Reach : State → Prop := Lib.Reach init (fun s a s' => step s a = some s') fun _ _ => True

/-! ## The invariant -/

/-- The list has every buffer, the one released last in front; a block of a device has at most one
buffer; a reference count is the number of processes that wait for the lock or are about to drop their
reference, the holder of the lock, and the pins. -/
structure Inv (s : State) : Prop where
  order : ∃ l, s.cache.list.Lists l ∧ (∀ i, i ∈ l) ∧ l.Pairwise fun i j => s.time j < s.time i
  past : ∀ i, s.time i < s.clock
  unique : ∀ i j, (s.cache.buf i).dev ≠ 0 → (s.cache.buf i).dev = (s.cache.buf j).dev →
    (s.cache.buf i).blockno = (s.cache.buf j).blockno → i = j
  refs : ∀ i, ∃ W, Waiters s.call i W ∧ (s.cache.buf i).refcnt =
    W.card + (if (s.cache.buf i).lock.isSome then 1 else 0) + s.pins i

theorem Inv.complete {s : State} (h : Inv s) : Complete s.cache := by
  obtain ⟨l, hl, hall, -⟩ := h.order
  exact ⟨l, hl, hall⟩

theorem inv_init : Inv init := by
  refine ⟨⟨_, lists_binit, fun i => by simp, ?_⟩, fun i => i.isLt, fun i j h => absurd rfl h,
    fun i => ⟨∅, fun p => by simp [init], rfl⟩⟩
  rw [List.pairwise_reverse]
  exact List.pairwise_lt_finRange NBUF

section Rules

variable {s : State} {p : ℕ} {i : BufId}

theorem Inv.unique_modify (h : Inv s) {f : Buf → Buf}
    (hunique : ∀ j, j ≠ i → (f (s.cache.buf i)).dev ≠ 0 →
      (f (s.cache.buf i)).dev = (s.cache.buf j).dev →
      (f (s.cache.buf i)).blockno ≠ (s.cache.buf j).blockno) (j k : BufId)
    (hdev : ((s.cache.modify i f).buf j).dev ≠ 0)
    (hjk : ((s.cache.modify i f).buf j).dev = ((s.cache.modify i f).buf k).dev)
    (hbk : ((s.cache.modify i f).buf j).blockno = ((s.cache.modify i f).buf k).blockno) :
    j = k := by
  have hne : ∀ j, j ≠ i → (s.cache.modify i f).buf j = s.cache.buf j := fun j hj =>
    s.cache.modify_of_ne i f hj
  by_cases hj : j = i <;> by_cases hk : k = i
  · rw [hj, hk]
  · subst hj
    rw [Bcache.modify_self] at hdev
    rw [Bcache.modify_self, hne k hk] at hjk hbk
    exact absurd hbk (hunique k hk hdev hjk)
  · subst hk
    rw [hne j hj] at hdev
    rw [Bcache.modify_self, hne j hj] at hjk hbk
    exact absurd hbk.symm (hunique j hj (hjk ▸ hdev) hjk.symm)
  · rw [hne j hj] at hdev
    rw [hne j hj, hne k hk] at hjk hbk
    exact h.unique j k hdev hjk hbk

/-- A step of process `p` on buffer `i`: `f` is what happens to the buffer, and `x` is the new call of
`p`. It keeps the invariant if no other buffer has the block and the references add up. -/
theorem Inv.modify (h : Inv s) (f : Buf → Buf) (x : Option Call) (pins' : BufId → ℕ)
    (hunique : ∀ j, j ≠ i → (f (s.cache.buf i)).dev ≠ 0 →
      (f (s.cache.buf i)).dev = (s.cache.buf j).dev →
      (f (s.cache.buf i)).blockno ≠ (s.cache.buf j).blockno)
    (hold : ∀ j, (s.call p).bind Call.ref = some j → j = i)
    (hnew : ∀ j, x.bind Call.ref = some j → j = i) (hpins : ∀ j, j ≠ i → pins' j = s.pins j)
    (hcount : (f (s.cache.buf i)).refcnt + (if (s.call p).bind Call.ref = some i then 1 else 0) +
        (if (s.cache.buf i).lock.isSome then 1 else 0) + s.pins i =
      (s.cache.buf i).refcnt + (if x.bind Call.ref = some i then 1 else 0) +
        (if (f (s.cache.buf i)).lock.isSome then 1 else 0) + pins' i) :
    Inv { s with
      cache := s.cache.modify i f, call := update s.call p x, pins := pins' } := by
  have hne : ∀ j, j ≠ i → (s.cache.modify i f).buf j = s.cache.buf j := fun j hj =>
    s.cache.modify_of_ne i f hj
  refine ⟨h.order, h.past, h.unique_modify hunique, fun j => ?_⟩
  obtain ⟨W, hW, hrefs⟩ := h.refs j
  obtain ⟨W', hW', hcard⟩ := hW.update p x
  refine ⟨W', hW', ?_⟩
  by_cases hj : j = i
  · subst hj
    simp only [Bcache.modify_self]
    omega
  · simp only [hne j hj, hpins j hj, hrefs]
    rw [if_neg fun e => hj (hold j e), if_neg fun e => hj (hnew j e)] at hcard
    omega

theorem Inv.unique_of_same (h : Inv s) {d : Buf} (hd : d.dev = (s.cache.buf i).dev)
    (hb : d.blockno = (s.cache.buf i).blockno) (j : BufId) (hj : j ≠ i) (h0 : d.dev ≠ 0)
    (hdev : d.dev = (s.cache.buf j).dev) : d.blockno ≠ (s.cache.buf j).blockno := by
  intro hbj
  exact hj (h.unique i j (hd ▸ h0) (hd ▸ hdev) (hb ▸ hbj)).symm

theorem Inv.keep (h : Inv s) (f : Buf → Buf) (pins' : BufId → ℕ)
    (hd : (f (s.cache.buf i)).dev = (s.cache.buf i).dev)
    (hb : (f (s.cache.buf i)).blockno = (s.cache.buf i).blockno)
    (hl : (f (s.cache.buf i)).lock = (s.cache.buf i).lock)
    (hpins : ∀ j, j ≠ i → pins' j = s.pins j)
    (hcount : (f (s.cache.buf i)).refcnt + s.pins i = (s.cache.buf i).refcnt + pins' i) :
    Inv { s with cache := s.cache.modify i f, pins := pins' } := by
  refine ⟨h.order, h.past, h.unique_modify (h.unique_of_same hd hb), fun j => ?_⟩
  obtain ⟨W, hW, hrefs⟩ := h.refs j
  refine ⟨W, hW, ?_⟩
  by_cases hj : j = i
  · subst hj
    simp only [Bcache.modify_self, hl]
    omega
  · simp only [s.cache.modify_of_ne i f hj, hpins j hj, hrefs]

theorem Inv.of_refcnt_zero (h : Inv s) (hi : (s.cache.buf i).refcnt = 0) :
    (s.cache.buf i).lock = none ∧ s.pins i = 0 ∧ ∀ q, (s.call q).bind Call.ref ≠ some i := by
  obtain ⟨W, hW, hrefs⟩ := h.refs i
  have hlock : ¬ (s.cache.buf i).lock.isSome := fun hsome => by
    rw [if_pos hsome] at hrefs
    omega
  refine ⟨by simpa using hlock, by omega, fun q hq => ?_⟩
  have hcard : W.card = 0 := by omega
  have := (hW q).mpr hq
  simp [Finset.card_eq_zero.mp hcard] at this

theorem Inv.moveFront (h : Inv s) (i : BufId) :
    Inv { s with
      cache := { s.cache with list := (s.cache.list.unlink i).insertFront i }
      time := update s.time i s.clock
      clock := s.clock + 1 } := by
  obtain ⟨l, hl, hall, hsorted⟩ := h.order
  refine ⟨⟨_, hl.moveFront (hall i), fun j => ?_, ?_⟩, fun j => ?_, h.unique, h.refs⟩
  · by_cases hj : j = i
    · simp [hj]
    · simp [hj, List.mem_erase_of_ne hj, hall j]
  · have hne : ∀ j ∈ l.erase i, j ≠ i := fun j hj => (hl.nodup.mem_erase_iff.mp hj).1
    refine List.pairwise_cons.mpr ⟨fun j hj => ?_, ?_⟩
    · simp only [update_self, update_of_ne (hne j hj)]
      exact h.past j
    · refine (hsorted.sublist List.erase_sublist).imp_of_mem fun {a b} ha hb hab => ?_
      simpa only [update_of_ne (hne a ha), update_of_ne (hne b hb)] using hab
  · by_cases hj : j = i
    · simp [hj]
    · simp only [update_of_ne hj]
      exact (h.past j).trans (Nat.lt_succ_self _)

end Rules

section Steps

variable {s s' : State} {p dev b : ℕ} {i : BufId} {c : Bcache}

theorem Inv.recycle_least (h : Inv s) (hrec : bgetRecycle s.cache = some i) (j : BufId)
    (hj : (s.cache.buf j).refcnt = 0) : s.time i ≤ s.time j := by
  obtain ⟨l, hl, hall, hsorted⟩ := h.order
  rw [bgetRecycle, hl.seg.scan_prev _ (length_lt_of_nodup hl.nodup), List.find?_eq_some_iff_append]
    at hrec
  obtain ⟨-, before, after, hsplit, hnone⟩ := hrec
  rw [← List.pairwise_reverse, hsplit, List.pairwise_append, List.pairwise_cons] at hsorted
  have hmem : j ∈ before ++ i :: after := by
    rw [← hsplit]
    simpa using hall j
  rcases List.mem_append.mp hmem with hbefore | hrest
  · -- The buffers that the loop passes are in use.
    have := hnone j hbefore
    simp [hj] at this
  · rcases List.mem_cons.mp hrest with rfl | hafter
    · exact le_rfl
    · exact (hsorted.2.1.1 j hafter).le

/-- A buffer whose block `bget` changes has no references, and was released least recently of
those. -/
theorem Inv.bget_changes (h : Inv s) (hs : step s (.bget p dev b) = some s')
    (hchange : ((s'.cache.buf i).dev, (s'.cache.buf i).blockno) ≠
      ((s.cache.buf i).dev, (s.cache.buf i).blockno)) :
    (s.cache.buf i).refcnt = 0 ∧ ∀ j, (s.cache.buf j).refcnt = 0 → s.time i ≤ s.time j := by
  have hmod : ∀ (j : BufId) (f : Buf → Buf), ((s.cache.modify j f).buf i).dev ≠ (s.cache.buf i).dev ∨
      ((s.cache.modify j f).buf i).blockno ≠ (s.cache.buf i).blockno → i = j := by
    intro j f hne
    by_contra hij
    rw [s.cache.modify_of_ne j f hij] at hne
    simp at hne
  rw [Ne, Prod.mk.injEq, not_and_or] at hchange
  simp only [Lru.step, Bio.bget] at hs
  split_ifs at hs
  split at hs
  · next hget =>
    cases hs
    dsimp only at hchange
    split at hget
    · cases hget
      obtain rfl := hmod _ _ hchange
      simp at hchange
    · split at hget
      · next hrec =>
        cases hget
        obtain rfl := hmod _ _ hchange
        exact ⟨bgetRecycle_eq_some h.complete hrec, h.recycle_least hrec⟩
      · cases hget
  · cases hs

theorem Inv.bget (h : Inv s) (hp : s.call p = none) (hget : Bio.bget s.cache dev b = some (i, c)) :
    Inv { s with cache := c, call := update s.call p (some (.lock dev b i)) } := by
  have hold : ∀ j, (s.call p).bind Call.ref = some j → j = i := by simp [hp]
  have hnew : ∀ j, (some (Call.lock dev b i)).bind Call.ref = some j → j = i := by simp [Call.ref]
  rcases CacheInv.bget_spec h.complete hget with ⟨-, -, rfl⟩ | ⟨hno, hzero, rfl⟩
  · refine h.modify _ _ s.pins (h.unique_of_same rfl rfl) hold hnew (fun _ _ => rfl) ?_
    simp [hp, Call.ref]
  · obtain ⟨hlock, -, -⟩ := h.of_refcnt_zero hzero
    refine h.modify _ _ s.pins (fun j _ _ hd hb => hno j ⟨hd.symm, hb.symm⟩) hold hnew
      (fun _ _ => rfl) ?_
    simp [hp, Call.ref, hzero, hlock]

theorem Inv.refcnt_pos_of_rel (h : Inv s) (hp : s.call p = some (.rel i)) :
    0 < (s.cache.buf i).refcnt := by
  by_contra h0
  have := (h.of_refcnt_zero (i := i) (by omega)).2.2 p
  simp [hp, Call.ref] at this

theorem Inv.refcnt_pos_of_pin (h : Inv s) (hi : 0 < s.pins i) : 0 < (s.cache.buf i).refcnt := by
  by_contra h0
  have := (h.of_refcnt_zero (i := i) (by omega)).2.1
  omega

theorem Inv.rel (h : Inv s) (hp : s.call p = some (.rel i)) (hs : step s (.rel p) = some s') :
    Inv s' := by
  have hpos := h.refcnt_pos_of_rel hp
  have hdrop : Inv { s with
      cache := s.cache.modify i fun b => { b with refcnt := b.refcnt - 1 }
      call := update s.call p none } := by
    refine h.modify _ none s.pins (h.unique_of_same rfl rfl) (by simp [hp, Call.ref]) (by simp)
      (fun _ _ => rfl) ?_
    simp [hp, Call.ref]
    omega
  have hcnt : ((Bio.brelse s.cache i).buf i).refcnt = (s.cache.buf i).refcnt - 1 := by
    rw [brelse_buf, Bcache.modify_self]
  simp only [step, hp, hcnt] at hs
  split_ifs at hs with hzero
  · cases hs
    have hlist : Bio.brelse s.cache i =
        { s.cache.modify i (fun b => { b with refcnt := b.refcnt - 1 }) with
          list := (s.cache.list.unlink i).insertFront i } := by
      simp [Bio.brelse, hzero]
    rw [hlist]
    exact hdrop.moveFront i
  · cases hs
    have hsame : Bio.brelse s.cache i =
        s.cache.modify i (fun b => { b with refcnt := b.refcnt - 1 }) := by
      simp [Bio.brelse, hzero]
    rw [hsame]
    exact hdrop

theorem Inv.step {a : Act} (h : Inv s) (hs : step s a = some s') : Inv s' := by
  cases a with
  | bget p dev b =>
    simp only [Lru.step] at hs
    split_ifs at hs with hp
    split at hs
    · next hget =>
      cases hs
      exact h.bget hp hget
    · cases hs
  | lock p =>
    simp only [Lru.step] at hs
    split at hs
    · next hp =>
      split_ifs at hs with hfree
      cases hs
      refine h.modify _ none s.pins (h.unique_of_same rfl rfl) (by simp [hp, Call.ref]) (by simp)
        (fun _ _ => rfl) ?_
      simp [hp, Call.ref, hfree]
    · cases hs
  | put p i valid data =>
    simp only [Lru.step] at hs
    split_ifs at hs
    cases hs
    exact h.keep _ s.pins rfl rfl rfl (fun _ _ => rfl) rfl
  | brelse p i =>
    simp only [Lru.step] at hs
    split_ifs at hs with hp
    cases hs
    refine h.modify _ (some (.rel i)) s.pins (h.unique_of_same rfl rfl) (by simp [hp.1])
      (by simp [Call.ref]) (fun _ _ => rfl) ?_
    simp [hp.1, hp.2, Call.ref]
  | rel p =>
    cases hp : s.call p with
    | none => simp [Lru.step, hp] at hs
    | some x =>
      cases x with
      | rel i => exact h.rel hp hs
      | lock _ _ _ | fill _ _ _ => simp [Lru.step, hp] at hs
  | bpin p i =>
    simp only [Lru.step] at hs
    split_ifs at hs
    cases hs
    refine h.keep _ _ rfl rfl rfl (fun j hj => update_of_ne hj _ _) ?_
    simp only [update_self]
    omega
  | bunpin p i =>
    simp only [Lru.step] at hs
    split_ifs at hs with hp
    cases hs
    have hpos := h.refcnt_pos_of_pin hp.2
    refine h.keep _ _ rfl rfl rfl (fun j hj => update_of_ne hj _ _) ?_
    simp only [update_self]
    omega

theorem Reach.inv (h : Reach s) : Inv s :=
  Lib.Reach.invariant inv_init (fun _ _ _ hinv _ hs => hinv.step hs) h

end Steps

/-! ## The representation of the cache -/

/-- **The buffer cache.** In every state of a run:
* `next` leads from the head through each buffer once and back, and `prev` is its inverse;
* a block of a device has at most one buffer;
* a reference count is the number of processes that wait for the lock in `bget` or have released it in
  `brelse` and not yet dropped the reference, of those that hold it, and of pins; no count is
  decremented below zero;
* where `bget` changes the block of a buffer, the buffer has no references, and of the buffers without
  references it is the one for which the last `brelse` that left it so is longest ago. -/
theorem cache_representation {s : State} (h : Reach s) :
    (∃ l : List BufId, l.Nodup ∧ l.length = NBUF ∧
      ∀ n, n ≤ NBUF → s.cache.list.next^[n + 1] none = l[n]?) ∧
    (∀ x, s.cache.list.prev (s.cache.list.next x) = x ∧
      s.cache.list.next (s.cache.list.prev x) = x) ∧
    (∀ i j, (s.cache.buf i).dev ≠ 0 → (s.cache.buf i).dev = (s.cache.buf j).dev →
      (s.cache.buf i).blockno = (s.cache.buf j).blockno → i = j) ∧
    (∀ i, ∃ W : Finset ℕ,
      (∀ p, p ∈ W ↔ (∃ dev b, s.call p = some (.lock dev b i)) ∨ s.call p = some (.rel i)) ∧
      (s.cache.buf i).refcnt =
        W.card + (if (s.cache.buf i).lock.isSome then 1 else 0) + s.pins i) ∧
    (∀ p i, s.call p = some (.rel i) ∨ 0 < s.pins i → 0 < (s.cache.buf i).refcnt) ∧
    ∀ p dev b s' i, step s (.bget p dev b) = some s' →
      ((s'.cache.buf i).dev, (s'.cache.buf i).blockno) ≠
        ((s.cache.buf i).dev, (s.cache.buf i).blockno) →
      (s.cache.buf i).refcnt = 0 ∧ ∀ j, (s.cache.buf j).refcnt = 0 → s.time i ≤ s.time j := by
  have hinv := h.inv
  obtain ⟨l, hl, hall, -⟩ := hinv.order
  have hlen : l.length = NBUF := by
    have hcard := List.toFinset_card_of_nodup hl.nodup
    rw [show l.toFinset = Finset.univ from Finset.eq_univ_iff_forall.mpr fun i => by simp [hall i],
      Finset.card_univ, Fintype.card_fin] at hcard
    exact hcard.symm
  have hwhere : ∀ x : Option BufId, x = none ∨ ∃ i ∈ l, x = some i := by
    intro x
    cases x with
    | none => exact .inl rfl
    | some i => exact .inr ⟨i, hall i, rfl⟩
  refine ⟨⟨l, hl.nodup, hlen, fun n hn => hl.seg.iterate_next (by omega)⟩,
    fun x => ⟨hl.seg.prev_next (hwhere x), hl.seg.next_prev (hwhere x)⟩, hinv.unique, fun i => ?_,
    fun p i hp => ?_, fun p dev b s' i hs hchange => ?_⟩
  · obtain ⟨W, hW, hrefs⟩ := hinv.refs i
    refine ⟨W, fun p => (hW p).trans ?_, hrefs⟩
    cases s.call p with
    | none => simp
    | some x => cases x <;> simp [Call.ref]
  · rcases hp with hp | hp
    · exact hinv.refcnt_pos_of_rel hp
    · exact hinv.refcnt_pos_of_pin hp
  · exact hinv.bget_changes hs hchange

/-- Process 0 gets block 1 of device 1, in the buffer that `binit` inserted first, and begins to
release it. -/
def release : List Act := [.bget 0 1 1, .lock 0, .brelse 0 ⟨0, by decide⟩]

theorem cache_representation_release : ∃ s, Reach s ∧
    (s.cache.buf ⟨0, by decide⟩).refcnt = 1 ∧
    (∀ x, s.cache.list.prev (s.cache.list.next x) = x ∧
      s.cache.list.next (s.cache.list.prev x) = x) := by
  have hex : ((Lib.execute step (fun _ _ => true) init release).map fun s =>
      (s.cache.buf ⟨0, by decide⟩).refcnt) = some 1 := by decide +kernel
  obtain ⟨s, hs, hcnt⟩ := Option.map_eq_some_iff.mp hex
  have hreach : Reach s :=
    Lib.Reach.execute (fun _ _ _ h => h) (fun _ _ _ => trivial) .init hs
  exact ⟨s, hreach, hcnt, (cache_representation hreach).2.1⟩

/-- Between the two parts of `brelse` the process neither holds the lock nor waits for it, and still
counts as a reference. -/
theorem releasing_counts : ∃ s, Reach s ∧ ∃ i, ∃ W : Finset ℕ,
    (∀ p, p ∈ W ↔ ∃ dev b, s.call p = some (.lock dev b i)) ∧
    (s.cache.buf i).refcnt ≠
      W.card + (if (s.cache.buf i).lock.isSome then 1 else 0) + s.pins i := by
  have hex : ((Lib.execute step (fun _ _ => true) init release).map fun s =>
      ((s.cache.buf ⟨0, by decide⟩).refcnt, (s.cache.buf ⟨0, by decide⟩).lock.isSome,
        s.pins ⟨0, by decide⟩, s.call 0)) = some (1, false, 0, some (.rel ⟨0, by decide⟩)) := by
    decide +kernel
  obtain ⟨s, hs, hval⟩ := Option.map_eq_some_iff.mp hex
  simp only [Prod.mk.injEq] at hval
  obtain ⟨hcnt, hlock, hpins, hcall⟩ := hval
  have hreach : Reach s := Lib.Reach.execute (fun _ _ _ h => h) (fun _ _ _ => trivial) .init hs
  refine ⟨s, hreach, ⟨0, by decide⟩, ∅, fun p => ⟨by simp, ?_⟩, ?_⟩
  · -- The one reference is that of process 0, which is in `brelse`.
    rintro ⟨dev, b, hp⟩
    obtain ⟨W, hW, hrefs⟩ := hreach.inv.refs ⟨0, by decide⟩
    rw [hcnt, hlock, hpins] at hrefs
    obtain ⟨q, rfl⟩ := Finset.card_eq_one.mp (show W.card = 1 by simpa using hrefs.symm)
    have h0 : 0 = q := by simpa using (hW 0).mpr (by rw [hcall]; rfl)
    have hpq : p = q := by simpa using (hW p).mpr (by rw [hp]; rfl)
    rw [hpq, ← h0, hcall] at hp
    cases hp
  · rw [hcnt, hlock, hpins]
    decide

end Xv6.Bio.Lru
