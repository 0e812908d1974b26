import Xv6.Umalloc.Inv

/-!
# The allocator over whole runs

`malloc` and `free` keep the invariant of the free list, return, and leave other blocks in use alone
(`malloc_free_blocks`), while less than `2 ^ 32` units of memory are in use. With more memory the size of
a free block overflows its `uint`, and memory is lost (`free_size_overflows`).
-/

namespace Xv6.Umalloc

open Function Lib

section Malloc

variable {base limit nunits fuel : ℕ} {s s' : State} {live xs : List ℕ} {prevp p k : ℕ}

/-- What a call of `malloc` leaves: its result is `r`, and `live` are the other blocks in use. -/
structure Allocs (base limit nunits : ℕ) (s s' : State) (live : List ℕ) (r : Option ℕ) : Prop where
  inv : ∃ xs, Inv base limit s' (r.toList ++ live) xs
  got : ∀ q, r = some q → s'.size q = nunits
  size : ∀ b ∈ live, s'.size b = s.size b
  safe : Safe s live → Safe s' live

theorem Inv.take_whole (h : Inv base limit s live xs) (hprev : prevp ∈ xs) (hp : s.ptr prevp = p)
    (hsize : s.size p = nunits) (hn : 0 < nunits) :
    Allocs base limit nunits s { s.setPtr prevp (s.ptr p) with freep := prevp } live (some p) := by
  obtain ⟨A, R, rfl, hptr⟩ := h.split hprev
  have hpb : p ≠ base := by
    rintro rfl
    rw [h.base_size] at hsize
    omega
  rw [hp] at hptr
  cases R with
  | nil => exact absurd hptr hpb
  | cons n R =>
    rw [List.headD_cons] at hptr
    subst hptr
    have hpmem : p ∈ A ++ prevp :: p :: R := by simp
    obtain ⟨hsegA, -, hptrp, hsegR⟩ := Seg.append.mp h.ring.2
    obtain ⟨hltA, hltP, hltAP⟩ := List.pairwise_append.mp h.sorted
    rw [List.pairwise_cons] at hltP
    have hnotA : prevp ∉ A := fun hm => by
      have := hltAP prevp hm prevp List.mem_cons_self
      omega
    have hnotR : prevp ∉ R := fun hm => by
      have := hltP.1 prevp (List.mem_cons_of_mem _ hm)
      omega
    have hsub : (A ++ prevp :: R).Sublist (A ++ prevp :: p :: R) :=
      (List.Sublist.refl A).append ((List.sublist_cons_self p R).cons_cons prevp)
    refine ⟨⟨A ++ prevp :: R, ⟨?_, ?_⟩, by simp, h.base_size, h.gap.sublist hsub,
      fun a ha => h.pos a (hsub.subset ha), fun a ha => ?_, ?_, fun w hw => ?_, h.once, h.low, h.limit,
      h.top⟩, ?_, fun _ _ => rfl, fun hsafe a ha b hb => ?_⟩
    · have := h.ring.1
      cases A <;> simpa using this
    · refine Seg.append.mpr ⟨hsegA.update hnotA, ?_, hsegR.update hnotR⟩
      change update s.ptr prevp (s.ptr p) prevp = _
      rw [update_self, hptrp]
    · obtain rfl | ha := List.mem_cons.mp ha
      · exact h.pos _ hpmem hpb
      · exact h.live_pos a ha
    · exact List.nodup_cons.mpr ⟨fun hm => h.not_mem hm hpmem, h.nodup⟩
    · have hold := h.total w hw
      rw [total_append, total_cons, total_cons] at hold
      change Umalloc.total w s.size (A ++ prevp :: R) + Umalloc.total w s.size (p :: live) = s.total w
      rw [total_append, total_cons, total_cons, ← hold]
      omega
    · rintro q hq
      cases hq
      exact hsize
    · obtain rfl | ha := List.mem_cons.mp ha
      · exact h.header_apart hprev hb
      · exact hsafe a ha b hb

theorem Inv.take_end (h : Inv base limit s live xs) (hprev : prevp ∈ xs) (hmem : p ∈ xs)
    (hsize : nunits < s.size p) (hn : 0 < nunits) :
    Allocs base limit nunits s { (s.setSize p (s.size p - nunits)).setSize
      (p + 16 * (s.size p - nunits)) nunits with freep := prevp } live
      (some (p + 16 * (s.size p - nunits))) := by
  obtain ⟨m, hm⟩ := Nat.exists_eq_add_of_lt hsize
  have hrest : s.size p - nunits = m + 1 := by omega
  rw [hrest]
  set q := p + 16 * (m + 1) with hq
  have hpb : p ≠ base := by
    rintro rfl
    rw [h.base_size] at hsize
    omega
  have hxs : ∀ a ∈ xs, a ≠ q := by
    intro a ha haq
    obtain hlt | rfl | hgt := lt_trichotomy a p
    · omega
    · omega
    · obtain ⟨A, R, rfl, -⟩ := h.split hmem
      obtain ⟨-, hP, hAP⟩ := List.pairwise_append.mp h.gap
      obtain ha | ha := List.mem_append.mp ha
      · have := hAP a ha p List.mem_cons_self
        omega
      · obtain rfl | ha := List.mem_cons.mp ha
        · omega
        · have := (List.pairwise_cons.mp hP).1 a ha
          omega
  have hlive : ∀ b ∈ live, b ≠ q ∧ b ≠ p := by
    intro b hb
    have hposb := h.live_pos b hb
    have := h.apart hmem hpb hb
    omega
  have hbq : base ≠ q := by
    have := h.base_lt_free hmem hpb
    omega
  set size' := update (update s.size p (m + 1)) q nunits with hsize'
  have hq' : size' q = nunits := update_self ..
  have hp' : size' p = m + 1 := by
    rw [hsize', update_of_ne (by omega), update_self]
  have hother : ∀ a, a ≠ q → a ≠ p → size' a = s.size a := by
    intro a haq hap
    rw [hsize', update_of_ne haq, update_of_ne hap]
  have hle : ∀ a ∈ xs, size' a ≤ s.size a := by
    intro a ha
    by_cases hap : a = p
    · rw [hap, hp']
      omega
    · rw [hother a (hxs a ha) hap]
  refine ⟨⟨xs, h.ring, hprev, ?_, ?_, fun a ha hne => ?_, fun a ha => ?_, ?_, fun w hw => ?_, h.once, h.low,
    h.limit, h.top⟩, ?_, fun b hb => hother b (hlive b hb).1 (hlive b hb).2, fun hsafe a ha b hb => ?_⟩
  · change size' base = 0
    rw [hother base hbq (Ne.symm hpb), h.base_size]
  · refine List.Pairwise.imp_of_mem (fun {a b} ha _ hab => ?_) h.gap
    have := hle a ha
    change a + 16 * size' a < b
    omega
  · change 0 < size' a
    by_cases hap : a = p
    · rw [hap, hp']
      omega
    · rw [hother a (hxs a ha) hap]
      exact h.pos a ha hne
  · change 0 < size' a
    obtain rfl | ha := List.mem_cons.mp ha
    · rw [hq']
      exact hn
    · rw [hother a (hlive a ha).1 (hlive a ha).2]
      exact h.live_pos a ha
  · exact List.nodup_cons.mpr ⟨fun hm => (hlive _ hm).1 rfl, h.nodup⟩
  · change Umalloc.total w size' xs + Umalloc.total w size' (q :: live) = s.total w
    have hold := h.total w hw
    obtain ⟨A, R, rfl, -⟩ := h.split hmem
    have hnodup := h.sorted.imp (S := (· ≠ ·)) (fun hab => by omega)
    obtain ⟨-, hP, hAP⟩ := List.pairwise_append.mp hnodup
    have hA : ∀ a ∈ A, size' a = s.size a := fun a ha =>
      hother a (hxs a (by simp [ha])) (hAP a ha p List.mem_cons_self)
    have hR : ∀ a ∈ R, size' a = s.size a := fun a ha =>
      hother a (hxs a (by simp [ha])) (Ne.symm ((List.pairwise_cons.mp hP).1 a ha))
    have hsplit : w p (s.size p) = w p (m + 1) + w q nunits := by
      rw [show s.size p = (m + 1) + nunits by omega, hw]
    rw [total_append, total_cons, hsplit] at hold
    rw [total_append, total_cons, total_cons, hq', hp', total_congr hA, total_congr hR,
      total_congr fun b hb => hother b (hlive b hb).1 (hlive b hb).2, ← hold]
    omega
  · rintro r hr
    cases hr
    exact hq'
  · change a + 16 ≤ b ∨ b + 16 * size' b ≤ a
    rw [hother b (hlive b hb).1 (hlive b hb).2]
    have hapart := h.apart hmem hpb hb
    obtain rfl | ha := List.mem_cons.mp ha
    · omega
    · obtain rfl | ha := List.mem_cons.mp ha
      · omega
      · exact hsafe a ha b hb

theorem Inv.take (h : Inv base limit s live xs) (hprev : prevp ∈ xs) (hp : s.ptr prevp = p)
    (hsize : nunits ≤ s.size p) (hn : 0 < nunits) :
    Allocs base limit nunits s (take s nunits prevp p).2 live (some (take s nunits prevp p).1) := by
  unfold Umalloc.take
  split_ifs with heq
  · exact h.take_whole hprev hp heq hn
  · exact h.take_end hprev (hp ▸ h.ring.next_mem hprev) (by omega) hn

theorem Inv.grow (h : Inv base limit s live xs) (rs : List (Option ℕ)) {a nu : ℕ} (ha : s.top ≤ a)
    (hnu : 0 < nu) (hlimit : s.units + nu ≤ limit) :
    Inv base limit (State.setSize { s with
      sbrks := rs, top := a + 16 * nu, pieces := (a, nu) :: s.pieces } a nu) (a :: live) xs ∧
    (∀ b ∈ live, b ≠ a) ∧ ∀ b ∈ live, b + 16 * s.size b ≤ a := by
  have hend : ∀ b ∈ live, b + 16 * s.size b ≤ a := by
    intro b hb
    have hpos := h.live_pos b hb
    have hcov : covers (b + 16 * s.size b - 1) b (s.size b) = 1 := if_pos (by omega)
    have h1 := le_total (covers (b + 16 * s.size b - 1)) s.size hb
    have h2 := h.total _ (additive_covers (b + 16 * s.size b - 1))
    have := (h.low (b + 16 * s.size b - 1) (by omega)).2
    omega
  have hlive : ∀ b ∈ live, b ≠ a := by
    intro b hb
    have := h.live_pos b hb
    have := hend b hb
    omega
  have hxs : ∀ b ∈ xs, b ≠ a := by
    intro b hb
    by_cases hbb : b = base
    · have := h.top
      omega
    · have hcov := covers_self (a := b) (h.pos b hb hbb)
      have h1 := le_total (covers b) s.size hb
      have h2 := h.total _ (additive_covers b)
      have := (h.low b (by omega)).2
      omega
  have hother : ∀ b, b ≠ a → update s.size a nu b = s.size b :=
    fun b hb => update_of_ne hb _ _
  have htop := h.top
  refine ⟨⟨h.ring, h.freep, ?_, Gap.congr h.gap fun b hb => hother b (hxs b hb), fun b hb hne => ?_,
    fun b hb => ?_, List.nodup_cons.mpr ⟨fun hm => hlive a hm rfl, h.nodup⟩, fun w hw => ?_, fun x => ?_,
    fun x hx => ?_, ?_, ?_⟩, hlive, hend⟩
  · exact (hother base (by omega)).trans h.base_size
  · exact (h.pos b hb hne).trans_eq (hother b (hxs b hb)).symm
  · obtain rfl | hb := List.mem_cons.mp hb
    · change 0 < update s.size b nu b
      rwa [update_self]
    · exact (h.live_pos b hb).trans_eq (hother b (hlive b hb)).symm
  · have hold := h.total w hw
    change Umalloc.total w (update s.size a nu) xs +
      Umalloc.total w (update s.size a nu) (a :: live) = w a nu + s.total w
    rw [total_cons, update_self, total_congr fun b hb => hother b (hxs b hb),
      total_congr fun b hb => hother b (hlive b hb), ← hold]
    omega
  · change covers x a nu + s.total (covers x) ≤ 1
    have hone := h.once x
    by_cases hx : s.total (covers x) = 0
    · rw [hx, covers]
      split_ifs <;> omega
    · have := (h.low x hx).2
      rw [covers, if_neg (by omega)]
      omega
  · change covers x a nu + s.total (covers x) ≠ 0 at hx
    change base + 16 ≤ x ∧ x < a + 16 * nu
    by_cases hx' : s.total (covers x) = 0
    · rw [hx', covers] at hx
      split_ifs at hx <;> omega
    · have := h.low x hx'
      omega
  · change nu + s.units ≤ limit
    omega
  · change base + 16 ≤ a + 16 * nu
    omega

/-- What `morecore` leaves: nothing has changed, or there is a free block that is large enough, at
`freep` or behind it. -/
theorem Inv.morecore (h : Inv base limit s live xs) (hlim : limit < 2 ^ 32) {q : ℕ}
    (hs : morecore limit fuel s nunits = some (q, s')) :
    (∃ xs, Inv base limit s' live xs) ∧ (∀ b ∈ live, s'.size b = s.size b) ∧
    (Safe s live → Safe s' live) ∧ (q ≠ 0 → q = s'.freep ∧
      (nunits ≤ s'.size s'.freep ∨ nunits ≤ s'.size (s'.ptr s'.freep))) := by
  unfold Umalloc.morecore at hs
  dsimp only at hs
  set nu := if nunits < 4096 then 4096 else nunits with hnu
  have hle : nunits ≤ nu ∧ 0 < nu := by
    rw [hnu]
    split_ifs <;> omega
  have hfail : ∀ rs, (∃ xs, Inv base limit { s with sbrks := rs } live xs) ∧
      (∀ b ∈ live, s.size b = s.size b) ∧ (Safe s live → Safe { s with sbrks := rs } live) :=
    fun rs => ⟨⟨xs, h.1, h.2, h.3, h.4, h.5, h.6, h.7, h.8, h.9, h.10, h.11, h.12⟩, fun _ _ => rfl, id⟩
  unfold sbrk at hs
  cases hsb : s.sbrks with
  | nil =>
    rw [hsb] at hs
    cases hs
    exact ⟨⟨xs, h⟩, fun _ _ => rfl, id, fun h0 => absurd rfl h0⟩
  | cons r rs =>
    rw [hsb] at hs
    cases r with
    | none =>
      cases hs
      exact ⟨(hfail rs).1, (hfail rs).2.1, (hfail rs).2.2, fun h0 => absurd rfl h0⟩
    | some a =>
      dsimp only at hs
      split_ifs at hs with hok
      · obtain ⟨t, ht, heq⟩ := Option.map_eq_some_iff.mp hs
        cases heq
        obtain ⟨hgrow, hne, hend⟩ := h.grow rs hok.1 hle.2 hok.2
        have hf := hgrow.free hlim ht
        have hself : update s.size a nu a = nu := update_self ..
        have hsize : ∀ b ∈ live, s'.size b = s.size b := fun b hb =>
          (hf.size b hb).trans (update_of_ne (hne b hb) _ _)
        refine ⟨hf.inv, hsize, fun hsafe => hf.safe fun c hc b hb => ?_, fun _ => ⟨rfl, ?_⟩⟩
        · change c + 16 ≤ b ∨ b + 16 * update s.size a nu b ≤ c
          rw [update_of_ne (hne b hb)]
          obtain rfl | hc := List.mem_cons.mp hc
          · exact .inr (hend b hb)
          · exact hsafe c hc b hb
        · have hfit := hf.fit
          change update s.size a nu a ≤ _ ∨ update s.size a nu a ≤ _ at hfit
          rw [hself] at hfit
          exact hfit.imp hle.1.trans hle.1.trans
      · cases hs
        exact ⟨(hfail rs).1, (hfail rs).2.1, (hfail rs).2.2, fun h0 => absurd rfl h0⟩

theorem Inv.morecore_returns (h : Inv base limit s live xs) (nunits : ℕ) :
    ∃ fuel r, ∀ m, fuel ≤ m → Umalloc.morecore limit m s nunits = some r := by
  unfold Umalloc.morecore
  dsimp only
  have hnu : 0 < if nunits < 4096 then 4096 else nunits := by split_ifs <;> omega
  generalize (if nunits < 4096 then 4096 else nunits) = nu at hnu
  unfold sbrk
  cases hsb : s.sbrks with
  | nil => exact ⟨0, _, fun m _ => rfl⟩
  | cons r rs =>
    cases r with
    | none => exact ⟨0, _, fun m _ => rfl⟩
    | some a =>
      dsimp only
      split_ifs with hok
      · obtain ⟨fuel, t, ht⟩ := (h.grow rs hok.1 hnu hok.2).1.free_returns
        exact ⟨fuel, _, fun m hm => by dsimp only; rw [ht m hm]; rfl⟩
      · exact ⟨0, _, fun m _ => rfl⟩

/-- What the loop of `malloc` returns is a block of the size, in use from now on. -/
theorem mallocLoop_spec {r : Option ℕ} (h : Inv base limit s live xs) (hlim : limit < 2 ^ 32)
    (hprev : prevp ∈ xs) (hp : s.ptr prevp = p) (hn : 0 < nunits)
    (hs : mallocLoop limit nunits fuel s prevp p = some (r, s')) :
    Allocs base limit nunits s s' live r := by
  induction fuel generalizing s xs prevp p with
  | zero => cases hs
  | succ fuel ih =>
    rw [mallocLoop] at hs
    split_ifs at hs with hsize hfreep
    · cases hs
      exact h.take hprev hp hsize hn
    · split at hs
      · cases hs
      next q t hmore =>
        obtain ⟨⟨xs', hinv⟩, hkeep, hsafe, hq⟩ := h.morecore hlim hmore
        split_ifs at hs with hq0
        · cases hs
          exact ⟨⟨xs', hinv⟩, by simp, hkeep, hsafe⟩
        · obtain ⟨rfl, -⟩ := hq hq0
          have hrec := ih hinv hinv.freep rfl hs
          exact ⟨hrec.inv, hrec.got, fun b hb => (hrec.size b hb).trans (hkeep b hb),
            fun h0 => hrec.safe (hsafe h0)⟩
    · exact ih h (hp ▸ h.ring.next_mem hprev) rfl hs

theorem mallocLoop_here (hfit : nunits ≤ s.size p) :
    ∃ fuel r, ∀ m, fuel ≤ m → mallocLoop limit nunits m s prevp p = some r := by
  refine ⟨1, (some (take s nunits prevp p).1, (take s nunits prevp p).2), fun m hm => ?_⟩
  obtain ⟨m, rfl⟩ : ∃ j, m = j + 1 := ⟨m - 1, by omega⟩
  rw [mallocLoop, if_pos hfit]

theorem mallocLoop_next (hfit : ¬nunits ≤ s.size p) (hne : p ≠ s.freep)
    (h : ∃ fuel r, ∀ m, fuel ≤ m → mallocLoop limit nunits m s p (s.ptr p) = some r) :
    ∃ fuel r, ∀ m, fuel ≤ m → mallocLoop limit nunits m s prevp p = some r := by
  obtain ⟨fuel, r, hr⟩ := h
  refine ⟨fuel + 1, r, fun m hm => ?_⟩
  obtain ⟨m, rfl⟩ : ∃ j, m = j + 1 := ⟨m - 1, by omega⟩
  rw [mallocLoop, if_neg hfit, if_neg hne]
  exact hr m (by omega)

theorem mallocLoop_fit (hk : s.ptr^[k] p = s.freep) (hfit : nunits ≤ s.size s.freep) :
    ∃ fuel r, ∀ m, fuel ≤ m → mallocLoop limit nunits m s prevp p = some r := by
  induction k generalizing p prevp with
  | zero =>
    obtain rfl : p = s.freep := hk
    exact mallocLoop_here hfit
  | succ k ih =>
    by_cases hsize : nunits ≤ s.size p
    · exact mallocLoop_here hsize
    · exact mallocLoop_next hsize (fun heq => hsize (heq ▸ hfit)) (ih hk)

theorem mallocLoop_more (h : Inv base limit s live xs) (hlim : limit < 2 ^ 32)
    (hsize : ¬nunits ≤ s.size s.freep) :
    ∃ fuel r, ∀ m, fuel ≤ m → mallocLoop limit nunits m s prevp s.freep = some r := by
  obtain ⟨fuel, ⟨q, t⟩, hr⟩ := h.morecore_returns nunits
  obtain ⟨⟨xs', hinv⟩, -, -, hq⟩ := h.morecore hlim (hr fuel le_rfl)
  by_cases hq0 : q = 0
  · refine ⟨fuel + 1, (none, t), fun m hm => ?_⟩
    obtain ⟨m, rfl⟩ : ∃ j, m = j + 1 := ⟨m - 1, by omega⟩
    rw [mallocLoop, if_neg hsize, if_pos rfl, hr m (by omega)]
    exact if_pos hq0
  · obtain ⟨rfl, hfit⟩ := hq hq0
    -- The new block is at `freep` or right behind it.
    have hloop : ∃ fuel r, ∀ m, fuel ≤ m →
        mallocLoop limit nunits m t t.freep (t.ptr t.freep) = some r := by
      obtain hfit | hfit := hfit
      · obtain ⟨j, hj⟩ := hinv.ring.reaches (hinv.ring.next_mem hinv.freep) hinv.freep
        exact mallocLoop_fit hj hfit
      · exact mallocLoop_here hfit
    obtain ⟨fuel', r, hr'⟩ := hloop
    refine ⟨max fuel fuel' + 1, r, fun m hm => ?_⟩
    obtain ⟨m, rfl⟩ : ∃ j, m = j + 1 := ⟨m - 1, by omega⟩
    rw [mallocLoop, if_neg hsize, if_pos rfl, hr m (by omega)]
    dsimp only
    rw [if_neg hq0]
    exact hr' m (by omega)

/-- The loop of `malloc` returns: it goes around once, and `morecore` is called at most once. -/
theorem mallocLoop_returns (h : Inv base limit s live xs) (hlim : limit < 2 ^ 32)
    (hk : s.ptr^[k] p = s.freep) :
    ∃ fuel r, ∀ m, fuel ≤ m → mallocLoop limit nunits m s prevp p = some r := by
  induction k generalizing p prevp with
  | zero =>
    obtain rfl : p = s.freep := hk
    by_cases hsize : nunits ≤ s.size s.freep
    · exact mallocLoop_here hsize
    · exact mallocLoop_more h hlim hsize
  | succ k ih =>
    by_cases hsize : nunits ≤ s.size p
    · exact mallocLoop_here hsize
    · by_cases hfreep : p = s.freep
      · rw [hfreep] at hsize ⊢
        exact mallocLoop_more h hlim hsize
      · exact mallocLoop_next hsize hfreep (ih hk)

end Malloc

/-! ## Runs -/

section Runs

variable {base limit : ℕ} {s : State} {live xs : List ℕ} {P P' : Program} {c : Call}

/-- The free list and the blocks in use: `fl` are the free blocks other than `base`. -/
structure Represents (base : ℕ) (P : Program) (fl : List ℕ) : Prop where
  ring : Ring P.mem.ptr (base :: fl) base
  freep : P.mem.freep ∈ base :: fl
  sorted : (base :: fl).Pairwise (· < ·)
  gap : Gap P.mem.size fl
  blocks : ∀ x, total (covers x) P.mem.size fl + total (covers x) P.mem.size P.live =
    P.mem.total (covers x)
  once : ∀ x, P.mem.total (covers x) ≤ 1

/-- No memory has been allocated yet. -/
structure Fresh (base : ℕ) (P : Program) : Prop where
  freep : P.mem.freep = 0
  live : P.live = []
  pieces : P.mem.pieces = []
  top : base + 16 ≤ P.mem.top

/-- Nothing has been allocated yet, or the invariant holds. -/
def Keeps (base limit : ℕ) (P : Program) : Prop :=
  Fresh base P ∨ ∃ xs, Inv base limit P.mem P.live xs

theorem Inv.represents (h : Inv base limit P.mem P.live xs) : ∃ fl, Represents base P fl := by
  obtain ⟨fl, rfl⟩ : ∃ fl, xs = base :: fl := by
    have := h.ring.1
    cases xs with
    | nil => cases this
    | cons a fl => exact ⟨fl, by simpa using this⟩
  refine ⟨fl, h.ring, h.freep, h.sorted, (List.pairwise_cons.mp h.gap).2, fun x => ?_, h.once⟩
  have := h.total _ (additive_covers x)
  rw [total_cons, h.base_size, covers, if_neg (by omega)] at this
  omega

theorem Inv.call (h : Inv base limit s live xs) (sbrks : List (Option ℕ)) (writes : List ℕ) :
    Inv base limit { s with sbrks := sbrks, writes := writes } live xs :=
  ⟨h.1, h.2, h.3, h.4, h.5, h.6, h.7, h.8, h.9, h.10, h.11, h.12⟩

theorem Keeps.start (h : Keeps base limit P) (hbase : 0 < base) (sbrks : List (Option ℕ)) :
    (∃ xs, Inv base limit (start base { P.mem with sbrks := sbrks, writes := [] }) P.live xs) ∧
    (∀ b ∈ P.live, (Umalloc.start base { P.mem with sbrks := sbrks, writes := [] }).size b = P.mem.size b) ∧
    Safe (Umalloc.start base { P.mem with sbrks := sbrks, writes := [] }) P.live := by
  obtain h | ⟨xs, h⟩ := h
  · rw [Umalloc.start, if_pos h.freep, h.live]
    refine ⟨⟨[base], ⟨rfl, ?_, trivial⟩, List.mem_singleton_self base, update_self ..,
      List.pairwise_singleton _ _, by simp, by simp, List.nodup_nil, fun w hw => ?_, fun x => ?_,
      fun x hx => ?_, ?_, h.top⟩, by simp, by simp [Safe]⟩
    · exact update_self ..
    · change Umalloc.total w (update P.mem.size base 0) [base] + _ = P.mem.total w
      rw [State.total, h.pieces, total_cons, update_self, hw.zero]
      rfl
    · change P.mem.total _ ≤ 1
      simp [State.total, h.pieces]
    · change P.mem.total _ ≠ 0 at hx
      simp [State.total, h.pieces] at hx
    · change P.mem.units ≤ limit
      simp [State.units, h.pieces]
  · have hne : P.mem.freep ≠ 0 := by
      by_cases hb : P.mem.freep = base
      · omega
      · have := h.base_lt_free h.freep hb
        omega
    rw [Umalloc.start, if_neg hne]
    exact ⟨⟨xs, h.call sbrks []⟩, fun _ _ => rfl, by simp [Safe]⟩

theorem Keeps.malloc (h : Keeps base limit P) (hbase : 0 < base) (hlim : limit < 2 ^ 32)
    {nbytes fuel : ℕ} {sbrks : List (Option ℕ)} {r : Option ℕ} {mem : State}
    (hs : malloc base limit fuel nbytes { P.mem with sbrks := sbrks, writes := [] } = some (r, mem)) :
    Allocs base limit (unitsFor nbytes) P.mem mem P.live r ∧ Safe mem P.live := by
  obtain ⟨⟨xs, hinv⟩, hsize, hsafe⟩ := h.start hbase sbrks
  have hm := mallocLoop_spec hinv hlim hinv.freep rfl (Nat.succ_pos _) hs
  have hsafe' := hm.safe hsafe
  exact ⟨⟨hm.inv, hm.got, fun b hb => (hm.size b hb).trans (hsize b hb), fun _ => hsafe'⟩, hsafe'⟩

theorem Keeps.malloc_returns (h : Keeps base limit P) (hbase : 0 < base) (hlim : limit < 2 ^ 32)
    (nbytes : ℕ) (sbrks : List (Option ℕ)) :
    ∃ fuel r, Umalloc.malloc base limit fuel nbytes { P.mem with sbrks := sbrks, writes := [] } =
      some r := by
  obtain ⟨⟨xs, hinv⟩, -, -⟩ := h.start hbase sbrks
  obtain ⟨k, hk⟩ := hinv.ring.reaches (hinv.ring.next_mem hinv.freep) hinv.freep
  obtain ⟨fuel, r, hr⟩ := mallocLoop_returns hinv hlim hk
  exact ⟨fuel, r, hr fuel le_rfl⟩

theorem Keeps.of_live (h : Keeps base limit P) {bp : ℕ} (hbp : bp ∈ P.live) :
    ∃ xs, Inv base limit { P.mem with writes := [] } (bp :: P.live.erase bp) xs := by
  obtain h | ⟨xs, h⟩ := h
  · rw [h.live] at hbp
    cases hbp
  · exact ⟨xs, (h.perm (List.perm_cons_erase hbp)).call _ []⟩

theorem Keeps.step (h : Keeps base limit P) (hbase : 0 < base) (hlim : limit < 2 ^ 32)
    (hs : Step base limit P c P') : Keeps base limit P' := by
  cases hs with
  | malloc _ hm => exact .inr (h.malloc hbase hlim hm).1.inv
  | free hbp hf =>
    obtain ⟨xs, hinv⟩ := h.of_live hbp
    exact .inr (hinv.free hlim hf).inv

theorem Keeps.call (h : Keeps base limit P) (hbase : 0 < base) (hlim : limit < 2 ^ 32)
    (hs : Step base limit P c P') :
    (∀ b ∈ P.live, b ∈ P'.live → P'.mem.size b = P.mem.size b ∧
      ∀ a ∈ P'.mem.writes, a + 16 ≤ b ∨ b + 16 * P.mem.size b ≤ a) ∧
    ∀ n sbrks, c = .malloc n sbrks →
      P'.live = P.live ∨ ∃ q, P'.live = q :: P.live ∧ q + 16 + n ≤ q + 16 * P'.mem.size q := by
  cases hs with
  | @malloc n fuel sbrks r mem hn hm =>
    obtain ⟨ha, hsafe⟩ := h.malloc hbase hlim hm
    refine ⟨fun b hb _ => ⟨ha.size b hb, fun a haw => ?_⟩, fun n' sbrks' hc => ?_⟩
    · rw [← ha.size b hb]
      exact hsafe a haw b hb
    · cases hc
      cases r with
      | none => exact .inl rfl
      | some q =>
        refine .inr ⟨q, rfl, ?_⟩
        change q + 16 + n ≤ q + 16 * mem.size q
        rw [ha.got q rfl, unitsFor]
        omega
  | @free bp fuel mem hbp hf =>
    obtain ⟨xs, hinv⟩ := h.of_live hbp
    have hfr := hinv.free hlim hf
    refine ⟨fun b _ hb => ⟨hfr.size b hb, fun a haw => ?_⟩, fun n sbrks hc => by cases hc⟩
    have hsz := hfr.size b hb
    change mem.size b = P.mem.size b at hsz
    rw [← hsz]
    exact hfr.safe (by simp [Safe]) a haw b hb

/-- `malloc` and `free`, over every sequence of calls with less than `2 ^ 32` units from `sbrk`: once
`malloc` has been called, the free list goes around `base` and blocks in increasing order that do not
touch, and the free blocks and the blocks in use are apart and make up the memory from `sbrk`. The calls
return. A call changes nothing in the other blocks in use, and `malloc` returns 0 or a block with at
least `nbytes` bytes behind its header. -/
theorem malloc_free_blocks {ptr size : ℕ → ℕ} {top : ℕ} (hbase : 0 < base) (htop : base + 16 ≤ top)
    (hlim : limit < 2 ^ 32)
    (h : Reach (Program.init ptr size top) (Step base limit) (fun _ _ => True) P) :
    (P.mem.freep = 0 ∧ P.live = [] ∧ P.mem.pieces = [] ∨ ∃ fl, Represents base P fl) ∧
    (∀ n sbrks, n < 2 ^ 30 → ∃ P', Step base limit P (.malloc n sbrks) P') ∧
    (∀ bp ∈ P.live, ∃ P', Step base limit P (.free bp) P') ∧
    ∀ c P', Step base limit P c P' →
      (∀ b ∈ P.live, b ∈ P'.live → P'.mem.size b = P.mem.size b ∧
        ∀ a ∈ P'.mem.writes, a + 16 ≤ b ∨ b + 16 * P.mem.size b ≤ a) ∧
      ∀ n sbrks, c = .malloc n sbrks →
        P'.live = P.live ∨ ∃ q, P'.live = q :: P.live ∧ q + 16 + n ≤ q + 16 * P'.mem.size q := by
  have hk : Keeps base limit P := h.invariant (P := Keeps base limit) (.inl ⟨rfl, rfl, rfl, htop⟩)
    fun _ _ _ hP _ hs => hP.step hbase hlim hs
  refine ⟨?_, fun n sbrks hn => ?_, fun bp hbp => ?_, fun c P' hs => hk.call hbase hlim hs⟩
  · obtain hf | ⟨xs, hinv⟩ := hk
    · exact .inl ⟨hf.freep, hf.live, hf.pieces⟩
    · exact .inr hinv.represents
  · obtain ⟨fuel, ⟨r, mem⟩, hr⟩ := hk.malloc_returns hbase hlim n sbrks
    exact ⟨_, .malloc hn hr⟩
  · obtain ⟨xs, hinv⟩ := hk.of_live hbp
    obtain ⟨fuel, mem, hr⟩ := hinv.free_returns
    exact ⟨_, .free hbp (hr fuel le_rfl)⟩

/-- `malloc(8)` takes the end of the first piece of memory. -/
theorem malloc_free_blocks_first : ∃ P,
    Reach (Program.init (fun _ => 0) (fun _ => 0) 32) (Step 16 4096) (fun _ _ => True) P ∧
    P.live = [32 + 16 * 4094] ∧ ∃ P', Step 16 4096 P (.free (32 + 16 * 4094)) P' := by
  have hrun : (malloc 16 4096 5 8 ⟨fun _ => 0, fun _ => 0, 0, 32, [], [some 32], []⟩).map Prod.fst =
      some (some (32 + 16 * 4094)) := by
    decide +kernel
  obtain ⟨⟨r, mem⟩, hr, hfst⟩ := Option.map_eq_some_iff.mp hrun
  obtain rfl : r = some (32 + 16 * 4094) := hfst
  have hstep : Step 16 4096 (Program.init (fun _ => 0) (fun _ => 0) 32) (.malloc 8 [some 32])
      ⟨mem, (some (32 + 16 * 4094)).toList ++ []⟩ := .malloc (by decide) hr
  have hreach : Reach (Program.init (fun _ => 0) (fun _ => 0) 32) (Step 16 4096) (fun _ _ => True)
      ⟨mem, [32 + 16 * 4094]⟩ := .step _ .init trivial hstep
  exact ⟨_, hreach, rfl, (malloc_free_blocks (by decide) (by decide) (by decide) hreach).2.2.1 _
    List.mem_cons_self⟩

end Runs

/-! ## More memory

64 blocks of `2 ^ 26` units make up one block of `2 ^ 32` units when they are free, and its size is 0. -/

/-- A call as a function. -/
def next (base limit : ℕ) (P : Program) : Call → Option Program
  | .malloc nbytes sbrks =>
    if nbytes < 2 ^ 30 then
      (malloc base limit 3 nbytes { P.mem with sbrks := sbrks, writes := [] }).map fun r =>
        ⟨r.2, r.1.toList ++ P.live⟩
    else none
  | .free bp =>
    if bp ∈ P.live then
      (free 2 { P.mem with writes := [] } bp).map fun mem => ⟨mem, P.live.erase bp⟩
    else none

theorem step_of_next {base limit : ℕ} (P : Program) (c : Call) (P' : Program)
    (h : next base limit P c = some P') : Step base limit P c P' := by
  cases c with
  | malloc nbytes sbrks =>
    rw [next] at h
    split_ifs at h with hn
    obtain ⟨⟨r, mem⟩, hr, rfl⟩ := Option.map_eq_some_iff.mp h
    exact .malloc hn hr
  | free bp =>
    rw [next] at h
    split_ifs at h with hbp
    obtain ⟨mem, hr, rfl⟩ := Option.map_eq_some_iff.mp h
    exact .free hbp hr

/-- `malloc` of 64 pieces of memory above `base`, at 16, and `free` of all of them. -/
def piecesRun : List Call :=
  (List.range 64).map (fun i => .malloc (2 ^ 30 - 16) [some (32 + 2 ^ 30 * i)]) ++
    (List.range 64).map fun i => .free (32 + 2 ^ 30 * i)

/-- A free list of `base` and the block at 32, which has size 0, has lost the memory. -/
theorem not_represents {P : Program} {fl : List ℕ} (h16 : P.mem.ptr 16 = 32) (h32 : P.mem.ptr 32 = 16)
    (hsize : P.mem.size 16 = 0 ∧ P.mem.size 32 = 0) (hlive : P.live = [])
    (hmem : P.mem.total (covers 32) = 1) : ¬Represents 16 P fl := by
  intro hr
  have hzero : ∀ a ∈ fl, P.mem.size a = 0 := by
    intro a ha
    obtain ⟨j, hj⟩ := hr.ring.reaches List.mem_cons_self (List.mem_cons_of_mem 16 ha)
    have hstay : ∀ j, P.mem.ptr^[j] 16 = 16 ∨ P.mem.ptr^[j] 16 = 32 := by
      intro j
      induction j with
      | zero => exact .inl rfl
      | succ j ih =>
        rw [iterate_succ_apply']
        obtain ih | ih := ih
        · exact .inr (by rw [ih, h16])
        · exact .inl (by rw [ih, h32])
    rw [← hj]
    obtain heq | heq := hstay j
    · rw [heq, hsize.1]
    · rw [heq, hsize.2]
  have hfree : total (covers 32) P.mem.size fl = 0 := by
    refine List.sum_eq_zero fun x hx => ?_
    obtain ⟨a, ha, rfl⟩ := List.mem_map.mp hx
    rw [hzero a ha, covers, if_neg (by omega)]
  have hsum := hr.blocks 32
  rw [hfree, hlive, hmem] at hsum
  cases hsum

/-- With `2 ^ 32` units of memory, calls of `malloc` and `free` lead to a free list that does not have all
the memory. -/
theorem free_size_overflows :
    ¬∀ P, Reach (Program.init (fun _ => 0) (fun _ => 0) 32) (Step 16 (2 ^ 32)) (fun _ _ => True) P →
      P.mem.freep = 0 ∧ P.live = [] ∧ P.mem.pieces = [] ∨ ∃ fl, Represents 16 P fl := by
  intro hall
  have heval : (execute (next 16 (2 ^ 32)) (fun _ _ => true)
      (Program.init (fun _ => 0) (fun _ => 0) 32) piecesRun).map (fun P => (P.mem.ptr 16, P.mem.ptr 32,
        P.mem.size 16, P.mem.size 32, P.live, P.mem.total (covers 32))) = some (32, 16, 0, 0, [], 1) := by
    decide +kernel
  obtain ⟨P, hrun, hP⟩ := Option.map_eq_some_iff.mp heval
  simp only [Prod.mk.injEq] at hP
  obtain ⟨h16, h32, hsize, hsize', hlive, hmem⟩ := hP
  obtain ⟨-, -, hnil⟩ | ⟨fl, hr⟩ :=
    hall P (Reach.execute step_of_next (fun _ _ _ => trivial) .init hrun)
  · rw [State.total, hnil] at hmem
    cases hmem
  · exact not_represents h16 h32 ⟨hsize, hsize'⟩ hlive hmem hr

end Xv6.Umalloc
