import Xv6.Umalloc.Malloc

/-!
# What the allocator keeps

The free blocks form a ring that starts at `base`, in the order of their addresses, and no two of them
touch; the free blocks and the blocks in use together are the memory that `sbrk` has returned. The
last is said with additive weights: whatever is counted of blocks, so that two parts of a block count as
much as the block, is the same for the blocks and for the memory. `free` and the parts of `malloc` keep
this (`Inv.free`, `Inv.take`, `Inv.morecore`).
-/

namespace Xv6.Umalloc

open Function
open Lib (Seg Ring)

/-! ## Weights -/

/-- A weight of blocks: two parts of a block weigh as much as the block. -/
def Additive (w : ℕ → ℕ → ℕ) : Prop := ∀ a m n, w a (m + n) = w a m + w (a + 16 * m) n

/-- Whether a block covers the address `x`. -/
def covers (x a m : ℕ) : ℕ := if a ≤ x ∧ x < a + 16 * m then 1 else 0

/-- The weight of the blocks with headers `l`. -/
def total (w : ℕ → ℕ → ℕ) (size : ℕ → ℕ) (l : List ℕ) : ℕ := (l.map fun a => w a (size a)).sum

/-- The weight of the memory that `sbrk` has returned. -/
def State.total (w : ℕ → ℕ → ℕ) (s : State) : ℕ := (s.pieces.map fun r => w r.1 r.2).sum

/-- Blocks are in the order of their addresses and do not touch. -/
def Gap (size : ℕ → ℕ) (l : List ℕ) : Prop := l.Pairwise fun a b => a + 16 * size a < b

section Weights

variable {w : ℕ → ℕ → ℕ} {size size' : ℕ → ℕ} {l r : List ℕ} {x a b m : ℕ}

theorem additive_covers (x : ℕ) : Additive (covers x) := by
  intro a m n
  unfold covers
  split_ifs <;> omega

theorem additive_size : Additive fun _ m => m := fun _ _ _ => rfl

theorem Additive.zero (h : Additive w) (a : ℕ) : w a 0 = 0 := by
  have := h a 0 0
  simp only [Nat.add_zero, Nat.mul_zero] at this
  omega

theorem total_cons : total w size (a :: l) = w a (size a) + total w size l := by
  simp [total]

theorem total_append : total w size (l ++ r) = total w size l + total w size r := by
  simp [total]

theorem total_congr (h : ∀ a ∈ l, size' a = size a) : total w size' l = total w size l := by
  unfold total
  rw [List.map_congr_left fun a ha => by rw [h a ha]]

theorem total_perm (h : l.Perm r) : total w size l = total w size r := (h.map _).sum_eq

theorem le_total (w : ℕ → ℕ → ℕ) (size : ℕ → ℕ) (ha : a ∈ l) : w a (size a) ≤ total w size l :=
  List.single_le_sum (by simp) _ (List.mem_map_of_mem ha)

theorem Gap.congr (h : Gap size l) (hsize : ∀ a ∈ l, size' a = size a) : Gap size' l :=
  List.Pairwise.imp_of_mem (fun ha _ hab => by rwa [hsize _ ha]) h

theorem covers_self (h : 0 < m) : covers a a m = 1 := if_pos (by omega)

end Weights

/-! ## The invariant -/

/-- The free blocks are `xs`, with `base`, and the blocks in use are `live`. -/
structure Inv (base limit : ℕ) (s : State) (live xs : List ℕ) : Prop where
  ring : Ring s.ptr xs base
  freep : s.freep ∈ xs
  base_size : s.size base = 0
  gap : Gap s.size xs
  pos : ∀ a ∈ xs, a ≠ base → 0 < s.size a
  live_pos : ∀ a ∈ live, 0 < s.size a
  nodup : live.Nodup
  total : ∀ w, Additive w → total w s.size xs + Umalloc.total w s.size live = s.total w
  once : ∀ x, s.total (covers x) ≤ 1
  low : ∀ x, s.total (covers x) ≠ 0 → base + 16 ≤ x ∧ x < s.top
  limit : s.units ≤ limit
  top : base + 16 ≤ s.top

/-- The call has not written to a header inside a block in use. -/
def Safe (s : State) (live : List ℕ) : Prop :=
  ∀ a ∈ s.writes, ∀ b ∈ live, a + 16 ≤ b ∨ b + 16 * s.size b ≤ a

section Basic

variable {base limit : ℕ} {s : State} {live live' xs : List ℕ} {a b x : ℕ}

theorem Inv.not_both (h : Inv base limit s live xs) (ha : a ∈ xs) (hb : b ∈ live)
    (hxa : covers x a (s.size a) = 1) (hxb : covers x b (s.size b) = 1) : False := by
  have h1 := le_total (covers x) s.size ha
  have h2 := le_total (covers x) s.size hb
  have h3 := h.total _ (additive_covers x)
  have h4 := h.once x
  omega

theorem Inv.base_lt (h : Inv base limit s live xs) (hb : b ∈ live) : base + 16 ≤ b := by
  have h1 := le_total (covers b) s.size hb
  rw [covers_self (h.live_pos b hb)] at h1
  have h3 := h.total _ (additive_covers b)
  exact (h.low b (by omega)).1

theorem Inv.base_lt_free (h : Inv base limit s live xs) (ha : a ∈ xs) (hne : a ≠ base) :
    base + 16 ≤ a := by
  have h1 := le_total (covers a) s.size ha
  rw [covers_self (h.pos a ha hne)] at h1
  have h3 := h.total _ (additive_covers a)
  exact (h.low a (by omega)).1

theorem Inv.apart (h : Inv base limit s live xs) (ha : a ∈ xs) (hne : a ≠ base) (hb : b ∈ live) :
    a + 16 * s.size a ≤ b ∨ b + 16 * s.size b ≤ a := by
  by_contra hover
  rw [not_or, not_le, not_le] at hover
  have hpa := h.pos a ha hne
  have hpb := h.live_pos b hb
  by_cases hab : a ≤ b
  · exact h.not_both ha hb (x := b) (if_pos (by omega)) (if_pos (by omega))
  · exact h.not_both ha hb (x := a) (if_pos (by omega)) (if_pos (by omega))

theorem Inv.not_mem (h : Inv base limit s live xs) (hb : b ∈ live) : b ∉ xs := by
  intro hmem
  have hlow := h.base_lt hb
  have hpos := h.live_pos b hb
  have := h.apart hmem (by omega) hb
  omega

theorem Inv.header_apart (h : Inv base limit s live xs) (ha : a ∈ xs) (hb : b ∈ live) :
    a + 16 ≤ b ∨ b + 16 * s.size b ≤ a := by
  by_cases hne : a = base
  · exact .inl (by rw [hne]; exact h.base_lt hb)
  · have hpos := h.pos a ha hne
    have := h.apart ha hne hb
    omega

theorem Inv.perm (h : Inv base limit s live xs) (hp : live.Perm live') : Inv base limit s live' xs :=
  { h with
    live_pos := fun a ha => h.live_pos a (hp.mem_iff.mpr ha)
    nodup := hp.nodup_iff.mp h.nodup
    total := fun w hw => by rw [← total_perm hp]; exact h.total w hw }

theorem Inv.sizes (h : Inv base limit s live xs) :
    Umalloc.total (fun _ m => m) s.size xs + Umalloc.total (fun _ m => m) s.size live ≤ limit := by
  rw [h.total _ additive_size]
  exact h.limit

theorem Inv.sorted (h : Inv base limit s live xs) : xs.Pairwise (· < ·) :=
  h.gap.imp fun hab => by omega

theorem Inv.split (h : Inv base limit s live xs) (ha : a ∈ xs) :
    ∃ A R, xs = A ++ a :: R ∧ s.ptr a = R.headD base := by
  obtain ⟨A, R, rfl⟩ := List.append_of_mem ha
  exact ⟨A, R, rfl, (Seg.append.mp h.ring.2).2.1⟩

end Basic

/-! ## Freeing -/

section Free

variable {base limit : ℕ} {s s' : State} {live xs A R : List ℕ} {bp p : ℕ}

/-- The loop of `free` ends at `p`. -/
def Stops (s : State) (bp p : ℕ) : Prop :=
  bp > p ∧ bp < s.ptr p ∨ p ≥ s.ptr p ∧ (bp > p ∨ bp < s.ptr p)

theorem freeLoop_returns {k a : ℕ} (hk : s.ptr^[k] a = p) (hp : Stops s bp p) :
    ∃ fuel q, freeLoop s bp fuel a = some q := by
  induction k generalizing a with
  | zero =>
    obtain rfl : a = p := hk
    refine ⟨1, a, ?_⟩
    rw [freeLoop]
    split_ifs with h1 h2
    · rfl
    · rfl
    · exact absurd hp (by rw [Stops]; tauto)
  | succ k ih =>
    by_cases ha : Stops s bp a
    · refine ⟨1, a, ?_⟩
      rw [freeLoop]
      split_ifs with h1 h2
      · rfl
      · rfl
      · exact absurd ha (by rw [Stops]; tauto)
    · obtain ⟨fuel, q, hq⟩ := ih hk
      refine ⟨fuel + 1, q, ?_⟩
      rw [freeLoop, if_neg (fun h => ha (.inl h)), if_neg (fun h => ha (.inr h))]
      exact hq

theorem freeLoop_mono {fuel fuel' a q : ℕ} (h : freeLoop s bp fuel a = some q) (hle : fuel ≤ fuel') :
    freeLoop s bp fuel' a = some q := by
  induction fuel generalizing a fuel' with
  | zero => cases h
  | succ fuel ih =>
    obtain ⟨m, rfl⟩ : ∃ m, fuel' = m + 1 := ⟨fuel' - 1, by omega⟩
    rw [freeLoop] at h ⊢
    split_ifs at h ⊢ with h1 h2
    · exact h
    · exact h
    · exact ih h (by omega)

theorem freeLoop_stops {fuel a q : ℕ} (hring : Ring s.ptr xs base) (ha : a ∈ xs)
    (h : freeLoop s bp fuel a = some q) : q ∈ xs ∧ Stops s bp q := by
  induction fuel generalizing a with
  | zero => cases h
  | succ fuel ih =>
    rw [freeLoop] at h
    split_ifs at h with h1 h2
    · cases h
      exact ⟨ha, .inl h1⟩
    · cases h
      exact ⟨ha, .inr h2⟩
    · exact ih (hring.next_mem ha) h

theorem Inv.stops_split (h : Inv base limit s live xs) (hbp : base < bp) (hp : p ∈ xs)
    (hstop : Stops s bp p) : ∃ A R, xs = A ++ p :: R ∧ p < bp ∧ ∀ r ∈ R, bp < r := by
  obtain ⟨A, R, rfl, hptr⟩ := h.split hp
  refine ⟨A, R, rfl, ?_⟩
  have hsorted := (List.pairwise_append.mp h.sorted).2.1
  rw [List.pairwise_cons] at hsorted
  unfold Stops at hstop
  rw [hptr] at hstop
  cases R with
  | nil =>
    simp only [List.headD_nil] at hstop
    exact ⟨by omega, by simp⟩
  | cons n R =>
    simp only [List.headD_cons] at hstop
    have hpn := hsorted.1 n List.mem_cons_self
    refine ⟨by omega, fun r hr => ?_⟩
    obtain rfl | hr := List.mem_cons.mp hr
    · omega
    · have := (List.pairwise_cons.mp hsorted.2).1 r hr
      omega

theorem Inv.exists_stop (h : Inv base limit s live xs) (hbp : base < bp) (hnot : bp ∉ xs) :
    ∃ p ∈ xs, Stops s bp p := by
  obtain ⟨hhead, -⟩ := h.ring
  -- The free blocks in front of `bp` are those up to the one that is sought.
  have hne : xs.takeWhile (· < bp) ≠ [] := by
    cases xs with
    | nil => cases hhead
    | cons a l =>
      obtain rfl : a = base := by simpa using hhead
      rw [List.takeWhile_cons_of_pos (by simpa using hbp)]
      simp
  obtain ⟨A, p, hA⟩ := List.eq_nil_or_concat (xs.takeWhile (· < bp)) |>.resolve_left hne
  have hxs : xs = A ++ p :: xs.dropWhile (· < bp) := by
    conv_lhs => rw [← List.takeWhile_append_dropWhile (p := (· < bp)) (l := xs), hA]
    simp
  have hp : p ∈ xs := by
    rw [hxs]
    simp
  have hlt : p < bp := by
    have : p ∈ xs.takeWhile (· < bp) := by rw [hA]; simp
    simpa using List.all_eq_true.mp List.all_takeWhile p this
  refine ⟨p, hp, ?_⟩
  have hseg := h.ring.2
  rw [hxs] at hseg
  have hptr := (Seg.append.mp hseg).2.1
  unfold Stops
  cases hR : xs.dropWhile (· < bp) with
  | nil =>
    rw [hR, List.headD_nil] at hptr
    rw [hptr]
    have hle : base ≤ p := by
      by_cases hpb : p = base
      · exact hpb.ge
      · have := h.base_lt_free hp hpb
        omega
    omega
  | cons n R =>
    rw [hR, List.headD_cons] at hptr
    have hnlt : ¬ n < bp := by
      have := List.head_dropWhile_not (p := fun a => decide (a < bp)) (l := xs) (by rw [hR]; simp)
      simpa [hR] using this
    have hn : n ≠ bp := by
      rintro rfl
      refine hnot ?_
      rw [hxs, hR]
      simp
    rw [hptr]
    omega

/-- What joining the freed block with the next one does. -/
structure JoinsNext (s s' : State) (base bp : ℕ) (R R' : List ℕ) : Prop where
  seg : Seg s'.ptr (bp :: R') base
  ptr : ∀ a, a ≠ bp → s'.ptr a = s.ptr a
  size : ∀ a, a ≠ bp → s'.size a = s.size a
  le : s.size bp ≤ s'.size bp
  total : ∀ w, Additive w → total w s'.size (bp :: R') = w bp (s.size bp) + Umalloc.total w s.size R
  gap : Gap s'.size (bp :: R')
  sub : ∀ a ∈ R', a ∈ R
  rest : s'.top = s.top ∧ s'.pieces = s.pieces ∧ s'.sbrks = s.sbrks
  writes : ∀ a ∈ s'.writes, a = bp ∨ a ∈ s.writes

/-- The freed block is joined with the next one if they touch, and linked to it otherwise. -/
theorem joinNext_spec (hptr : s.ptr p = R.headD base) (hR : Seg s.ptr R base) (hgap : Gap s.size R)
    (hbase : base < bp) (hbp : bp ∉ R) (hle : ∀ r ∈ R, bp + 16 * s.size bp ≤ r)
    (hlim : s.size bp + total (fun _ m => m) s.size R < 2 ^ 32) :
    ∃ R', JoinsNext s (joinNext s bp p) base bp R R' := by
  unfold joinNext
  split_ifs with hjoin
  · cases R with
    | nil =>
      rw [hptr, List.headD_nil] at hjoin
      omega
    | cons n R =>
      rw [hptr, List.headD_cons] at hjoin ⊢
      rw [List.mem_cons, not_or] at hbp
      rw [total_cons] at hlim
      have hmod : (s.size bp + s.size n) % 2 ^ 32 = s.size bp + s.size n :=
        Nat.mod_eq_of_lt (by omega)
      have hsize : ∀ a, a ≠ bp →
          (update s.size bp (s.size bp + s.size n)) a = s.size a :=
        fun a ha => update_of_ne ha _ _
      have hnotmem : ∀ a ∈ R, a ≠ bp := fun a ha hab => hbp.2 (hab ▸ ha)
      rw [hmod]
      refine ⟨R, ⟨?_, hR.2.update hbp.2⟩, fun a ha => update_of_ne ha _ _, hsize, ?_, ?_, ?_,
        fun a ha => List.mem_cons_of_mem _ ha, ⟨rfl, rfl, rfl⟩, ?_⟩
      · change update s.ptr bp (s.ptr n) bp = _
        rw [update_self, hR.1]
      · change _ ≤ update s.size bp _ bp
        rw [update_self]
        omega
      · intro w hw
        change Umalloc.total w (update s.size bp _) (bp :: R) = _
        rw [total_cons, update_self, total_congr fun a ha => hsize a (hnotmem a ha), hw,
          ← hjoin, total_cons, add_assoc]
      · rw [Gap, List.pairwise_cons] at hgap ⊢
        refine ⟨fun r hr => ?_, Gap.congr hgap.2 fun a ha => hsize a (hnotmem a ha)⟩
        change bp + 16 * update s.size bp _ bp < r
        rw [update_self]
        have := hgap.1 r hr
        omega
      · intro a ha
        simp only [State.setPtr, State.setSize, List.mem_cons] at ha
        tauto
  · have hnotmem : ∀ a ∈ R, a ≠ bp := fun a ha hab => hbp (hab ▸ ha)
    refine ⟨R, ⟨?_, hR.update hbp⟩, fun a ha => update_of_ne ha _ _, fun _ _ => rfl, le_rfl, ?_,
      ?_, fun _ => id, ⟨rfl, rfl, rfl⟩, ?_⟩
    · change update s.ptr bp (s.ptr p) bp = _
      rw [update_self, hptr]
    · intro w _
      exact total_cons
    · rw [Gap, List.pairwise_cons]
      refine ⟨fun r hr => ?_, hgap⟩
      change bp + 16 * s.size bp < r
      have hr' := hle r hr
      cases R with
      | nil => cases hr
      | cons n R =>
        rw [hptr, List.headD_cons] at hjoin
        rw [Gap, List.pairwise_cons] at hgap
        have hn := hle n List.mem_cons_self
        obtain rfl | hr := List.mem_cons.mp hr
        · omega
        · have := hgap.1 r hr
          omega
    · intro a ha
      simp only [State.setPtr, List.mem_cons] at ha
      exact ha

/-- What joining it with the one before it does, or linking that one to it. -/
structure JoinsPrev (s s' : State) (base bp p : ℕ) (A R R' : List ℕ) : Prop where
  seg : Seg s'.ptr (A ++ p :: R') base
  size : ∀ a, a ≠ p → s'.size a = s.size a
  le : s.size p ≤ s'.size p
  total : ∀ w, Additive w → total w s'.size (A ++ p :: R') = Umalloc.total w s.size (A ++ p :: bp :: R)
  gap : Gap s'.size (A ++ p :: R')
  base_size : s.size base = 0 → s'.size base = 0
  mem : ∀ a ∈ R', a = bp ∨ a ∈ R
  fit : s.size bp ≤ s'.size p ∨ s'.ptr p = bp ∧ s'.size bp = s.size bp
  rest : s'.top = s.top ∧ s'.pieces = s.pieces ∧ s'.sbrks = s.sbrks
  writes : ∀ a ∈ s'.writes, a = p ∨ a ∈ s.writes

/-- The block before is joined with the freed one if they touch, and linked to it otherwise. -/
theorem joinPrev_spec (base : ℕ) (hA : Seg s.ptr A p) (hseg : Seg s.ptr (bp :: R) base)
    (hgapA : ∀ a ∈ A, a + 16 * s.size a < p ∧ p < bp) (hsorted : Gap s.size A) (hgap : Gap s.size (bp :: R))
    (hle : p + 16 * s.size p ≤ bp) (hR : ∀ r ∈ R, p + 16 * s.size p < r ∧ p < r) (hpbp : p < bp)
    (hbase : base < bp) (hlim : s.size p + s.size bp < 2 ^ 32) :
    ∃ R', JoinsPrev s (joinPrev s bp p) base bp p A R R' := by
  have hpA : p ∉ A := fun h => by have := (hgapA p h).1; omega
  have hpR : p ∉ R := fun h => by have := (hR p h).2; omega
  have hApos : ∀ a ∈ A, ∀ r ∈ R, a + 16 * s.size a < r := fun a ha r hr => by
    have := (hgapA a ha).1
    have := (hR r hr).2
    omega
  unfold joinPrev
  split_ifs with hjoin
  · have hmod : (s.size p + s.size bp) % 2 ^ 32 = s.size p + s.size bp := Nat.mod_eq_of_lt hlim
    rw [hmod]
    have hsize : ∀ a, a ≠ p → (update s.size p (s.size p + s.size bp)) a = s.size a :=
      fun a ha => update_of_ne ha _ _
    have hsizeA : ∀ a ∈ A, (update s.size p (s.size p + s.size bp)) a = s.size a :=
      fun a ha => hsize a fun h => hpA (h ▸ ha)
    have hsizeR : ∀ a ∈ R, (update s.size p (s.size p + s.size bp)) a = s.size a :=
      fun a ha => hsize a fun h => hpR (h ▸ ha)
    rw [Gap, List.pairwise_cons] at hgap
    refine ⟨R, Seg.append.mpr ⟨hA.update hpA, ?_, hseg.2.update hpR⟩, hsize, ?_, ?_, ?_, ?_,
      fun a ha => .inr ha, .inl ?_, ⟨rfl, rfl, rfl⟩, ?_⟩
    · change update s.ptr p (s.ptr bp) p = _
      rw [update_self, hseg.1]
    · change _ ≤ update s.size p _ p
      rw [update_self]
      omega
    · intro w hw
      change Umalloc.total w (update s.size p _) (A ++ p :: R) = _
      rw [total_append, total_cons, update_self, total_congr hsizeA, total_congr hsizeR, hw,
        hjoin, total_append, total_cons, total_cons, add_assoc]
    · change Gap (update s.size p _) (A ++ p :: R)
      rw [Gap, List.pairwise_append, List.pairwise_cons]
      refine ⟨Gap.congr hsorted hsizeA, ⟨fun r hr => ?_, Gap.congr hgap.2 hsizeR⟩, fun a ha r hr => ?_⟩
      · rw [update_self]
        have := hgap.1 r hr
        omega
      · rw [hsizeA a ha]
        obtain rfl | hr := List.mem_cons.mp hr
        · exact (hgapA a ha).1
        · exact hApos a ha r hr
    · intro h0
      change update s.size p _ base = 0
      have hpb : base ≠ p := by
        rintro rfl
        omega
      rw [update_of_ne hpb, h0]
    · change _ ≤ update s.size p _ p
      rw [update_self]
      omega
    · intro a ha
      simp only [State.setPtr, State.setSize, List.mem_cons] at ha
      tauto
  · refine ⟨bp :: R, Seg.append.mpr ⟨hA.update hpA, ?_, hseg.update ?_⟩, fun _ _ => rfl, le_rfl,
      fun _ _ => rfl, ?_, id, fun a ha => List.mem_cons.mp ha, .inr ⟨?_, rfl⟩, ⟨rfl, rfl, rfl⟩, ?_⟩
    · change update s.ptr p bp p = _
      rw [update_self]
      rfl
    · rw [List.mem_cons, not_or]
      exact ⟨by omega, hpR⟩
    · change Gap s.size (A ++ p :: bp :: R)
      rw [Gap, List.pairwise_append, List.pairwise_cons]
      refine ⟨hsorted, ⟨fun r hr => ?_, hgap⟩, fun a ha r hr => ?_⟩
      · obtain rfl | hr := List.mem_cons.mp hr
        · omega
        · exact (hR r hr).1
      · obtain rfl | hr := List.mem_cons.mp hr
        · exact (hgapA a ha).1
        · obtain rfl | hr := List.mem_cons.mp hr
          · have := hgapA a ha
            omega
          · exact hApos a ha r hr
    · change update s.ptr p bp p = _
      exact update_self ..
    · intro a ha
      simp only [State.setPtr, List.mem_cons] at ha
      exact ha

/-- What a call that frees `bp` leaves. -/
structure Frees (base limit : ℕ) (s s' : State) (bp : ℕ) (live : List ℕ) : Prop where
  inv : ∃ xs, Inv base limit s' live xs
  size : ∀ b ∈ live, s'.size b = s.size b
  fit : s.size bp ≤ s'.size s'.freep ∨ s.size bp ≤ s'.size (s'.ptr s'.freep)
  sbrks : s'.sbrks = s.sbrks
  safe : Safe s live → Safe s' live

/-- What joining the freed block with both of its neighbours does. -/
structure Joins (s s' : State) (base bp p : ℕ) (A R R' : List ℕ) : Prop where
  seg : Seg s'.ptr (A ++ p :: R') base
  gap : Gap s'.size (A ++ p :: R')
  base_size : s'.size base = 0
  size : ∀ a, a ≠ p → a ≠ bp → s'.size a = s.size a
  le : s.size p ≤ s'.size p
  le_freed : s.size bp ≤ s'.size bp
  mem : ∀ a ∈ R', a = bp ∨ a ∈ R
  total : ∀ w, Additive w → total w s'.size (A ++ p :: R') =
    Umalloc.total w s.size A + (w p (s.size p) + (w bp (s.size bp) + Umalloc.total w s.size R))
  fit : s.size bp ≤ s'.size p ∨ s.size bp ≤ s'.size (s'.ptr p)
  rest : s'.top = s.top ∧ s'.pieces = s.pieces ∧ s'.sbrks = s.sbrks
  writes : ∀ a ∈ s'.writes, a = p ∨ a = bp ∨ a ∈ s.writes

/-- The freed block lies behind `p` and before all blocks of `R`, so both joins are possible. -/
theorem Inv.joins (h : Inv base limit s (bp :: live) (A ++ p :: R)) (hlim : limit < 2 ^ 32) (hp : p < bp)
    (hR : ∀ r ∈ R, bp < r) : ∃ R', Joins s (joinPrev (joinNext s bp p) bp p) base bp p A R R' := by
  have hbp : bp ∈ bp :: live := List.mem_cons_self
  have hbase := h.base_lt hbp
  have hnot := h.not_mem hbp
  have hsizes := h.sizes
  rw [total_cons, total_append, total_cons] at hsizes
  rw [List.mem_append, List.mem_cons, not_or, not_or] at hnot
  obtain ⟨hsegA, hptr, hsegR⟩ := Seg.append.mp h.ring.2
  obtain ⟨hgapA, hgapP, hgapAP⟩ := List.pairwise_append.mp h.gap
  rw [List.pairwise_cons] at hgapP
  have hle : p + 16 * s.size p ≤ bp := by
    by_cases hpb : p = base
    · rw [hpb, h.base_size]
      omega
    · have := h.apart (by simp) hpb hbp
      omega
  have hleR : ∀ r ∈ R, bp + 16 * s.size bp ≤ r := by
    intro r hr
    have hlt := hR r hr
    have := h.apart (a := r) (by simp [hr]) (by omega) hbp
    omega
  obtain ⟨R1, j⟩ := joinNext_spec hptr hsegR hgapP.2 (by omega) hnot.2.2 hleR (by omega)
  have hsizeA : ∀ a ∈ A, (joinNext s bp p).size a = s.size a :=
    fun a ha => j.size a fun h => hnot.1 (h ▸ ha)
  have hp1 : (joinNext s bp p).size p = s.size p := j.size p (by omega)
  have hbp1 : (joinNext s bp p).size bp ≤ s.size bp + Umalloc.total (fun _ m => m) s.size R := by
    have := j.total _ additive_size
    rw [total_cons] at this
    omega
  obtain ⟨R2, k⟩ := joinPrev_spec (p := p) base
    (hsegA.congr fun a ha => j.ptr a fun hab => hnot.1 (hab ▸ ha)) j.seg
    (fun a ha => ⟨by rw [hsizeA a ha]; exact hgapAP a ha p List.mem_cons_self, hp⟩)
    (Gap.congr hgapA hsizeA) j.gap (by rw [hp1]; exact hle)
    (fun r hr => by
      have := hR r (j.sub r hr)
      rw [hp1]
      exact ⟨hgapP.1 r (j.sub r hr), by omega⟩) hp (by omega) (by omega)
  refine ⟨R2, k.seg, k.gap, k.base_size (by rw [j.size base (by omega)]; exact h.base_size), ?_, ?_, ?_, ?_,
    ?_, ?_, ?_, ?_⟩
  · exact fun a hap hab => (k.size a hap).trans (j.size a hab)
  · exact hp1 ▸ k.le
  · rw [k.size bp (by omega)]
    exact j.le
  · exact fun a ha => (k.mem a ha).imp_right (j.sub a)
  · intro w hw
    rw [k.total w hw, total_append, total_cons, j.total w hw, total_congr hsizeA, hp1]
  · obtain hfit | ⟨hptr', hfit⟩ := k.fit
    · exact .inl (j.le.trans hfit)
    · refine .inr ?_
      rw [hptr', hfit]
      exact j.le
  · exact ⟨k.rest.1.trans j.rest.1, k.rest.2.1.trans j.rest.2.1, k.rest.2.2.trans j.rest.2.2⟩
  · exact fun a ha => (k.writes a ha).imp_right (j.writes a)

/-- Two blocks in use are apart. -/
theorem Inv.live_apart (h : Inv base limit s (bp :: live) xs) {b : ℕ} (hb : b ∈ live) :
    bp + 16 * s.size bp ≤ b ∨ b + 16 * s.size b ≤ bp := by
  by_contra hover
  rw [not_or, not_le, not_le] at hover
  have hcov : ∀ x, covers x bp (s.size bp) = 1 → covers x b (s.size b) = 1 → False := by
    intro x hxa hxb
    have h1 := le_total (covers x) s.size hb
    have h2 := h.total _ (additive_covers x)
    have h3 := h.once x
    rw [total_cons] at h2
    omega
  have hpos := h.live_pos bp List.mem_cons_self
  have hposb := h.live_pos b (List.mem_cons_of_mem _ hb)
  by_cases hab : bp ≤ b
  · exact hcov b (if_pos (by omega)) (if_pos (by omega))
  · exact hcov bp (if_pos (by omega)) (if_pos (by omega))

/-- The block is freed where the loop has stopped. -/
theorem Inv.free_at (h : Inv base limit s (bp :: live) xs) (hlim : limit < 2 ^ 32)
    (hxs : xs = A ++ p :: R) (hp : p < bp) (hR : ∀ r ∈ R, bp < r) :
    Frees base limit s { joinPrev (joinNext s bp p) bp p with freep := p } bp live := by
  subst hxs
  have hpos := h.live_pos bp List.mem_cons_self
  have hnodup := List.nodup_cons.mp h.nodup
  obtain ⟨R2, k⟩ := h.joins hlim hp hR
  set s2 := joinPrev (joinNext s bp p) bp p
  have hsize : ∀ b ∈ live, s2.size b = s.size b := by
    refine fun b hb => k.size b (fun hbb => ?_) fun hbb => hnodup.1 (hbb ▸ hb)
    exact h.not_mem (List.mem_cons_of_mem _ hb) (by rw [hbb]; simp)
  have htotal : ∀ w, s2.total w = s.total w := fun w => by rw [State.total, State.total, k.rest.2.1]
  refine ⟨⟨A ++ p :: R2, ⟨?_, k.seg⟩, by simp, k.base_size, k.gap, fun a ha hne => ?_, fun b hb => ?_,
    hnodup.2, fun w hw => ?_, fun x => ?_, fun x hx => ?_, ?_, ?_⟩, hsize, k.fit, k.rest.2.2,
    fun hsafe a ha b hb => ?_⟩
  · have := h.ring.1
    cases A <;> simpa using this
  · -- A block of the list is the freed one, the one before it, or another one of the old list.
    change 0 < s2.size a
    by_cases hap : a = p
    · subst hap
      exact (h.pos a (by simp) hne).trans_le k.le
    · by_cases hab : a = bp
      · subst hab
        exact hpos.trans_le k.le_freed
      · rw [k.size a hap hab]
        refine h.pos a ?_ hne
        rw [List.mem_append, List.mem_cons] at ha ⊢
        exact ha.imp_right fun ha => .inr ((k.mem a (ha.resolve_left hap)).resolve_left hab)
  · change 0 < s2.size b
    rw [hsize b hb]
    exact h.live_pos b (List.mem_cons_of_mem _ hb)
  · have hold := h.total w hw
    rw [total_append, total_cons, total_cons] at hold
    change Umalloc.total w s2.size _ + Umalloc.total w s2.size live = s2.total w
    rw [k.total w hw, total_congr hsize, htotal, ← hold]
    omega
  · exact (htotal (covers x)).trans_le (h.once x)
  · have := h.low x (by rw [← htotal]; exact hx)
    change _ ∧ x < s2.top
    rwa [k.rest.1]
  · have := h.limit
    change s2.units ≤ limit
    rwa [State.units, k.rest.2.1]
  · change base + 16 ≤ s2.top
    rw [k.rest.1]
    exact h.top
  · change a + 16 ≤ b ∨ b + 16 * s2.size b ≤ a
    rw [hsize b hb]
    obtain rfl | rfl | ha := k.writes a ha
    · exact h.header_apart (by simp) (List.mem_cons_of_mem _ hb)
    · have := h.live_apart hb
      omega
    · exact hsafe a ha b hb

theorem Inv.free (h : Inv base limit s (bp :: live) xs) (hlim : limit < 2 ^ 32) {fuel : ℕ}
    (hs : free fuel s bp = some s') : Frees base limit s s' bp live := by
  obtain ⟨p, hp, rfl⟩ := Option.map_eq_some_iff.mp hs
  obtain ⟨hmem, hstop⟩ := freeLoop_stops h.ring h.freep hp
  have hbase := h.base_lt List.mem_cons_self
  obtain ⟨A, R, hxs, hlt, hR⟩ := h.stops_split (by omega) hmem hstop
  exact h.free_at hlim hxs hlt hR

theorem Inv.free_returns (h : Inv base limit s (bp :: live) xs) :
    ∃ fuel s', ∀ m, fuel ≤ m → Umalloc.free m s bp = some s' := by
  have hbase := h.base_lt (b := bp) List.mem_cons_self
  obtain ⟨p, hp, hstop⟩ := h.exists_stop (by omega) (h.not_mem List.mem_cons_self)
  obtain ⟨k, hk⟩ := h.ring.reaches h.freep hp
  obtain ⟨fuel, q, hq⟩ := freeLoop_returns hk hstop
  exact ⟨fuel, _, fun m hm => by rw [Umalloc.free, freeLoop_mono hq hm]; rfl⟩

end Free

end Xv6.Umalloc
