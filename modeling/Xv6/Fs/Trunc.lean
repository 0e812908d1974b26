import Xv6.Fs.Content

/-!
# `itrunc`

`itrunc` frees the blocks of a file: those of its direct addresses, those in its indirect block, and the
indirect block. In a consistent file system these are marked and different, so that `bfree` does not
panic, and the file system without them is consistent again (`itrunc_spec`).
-/

namespace Xv6.Fs

open Function Lib

/-- The blocks `bs` have been freed: their bits are cleared, and only the bitmap has changed. -/
structure Freed (lo : ℕ) (bs : List ℕ) (s s' : State) : Prop where
  sb : s'.sb = s.sb
  disk : ∀ b, b < s.sb.bmapstart ∨ lo ≤ b → s'.disk b = s.disk b
  marked : ∀ b, b < s.sb.size → marked s'.sb s'.disk b = (Fs.marked s.sb s.disk b && decide (b ∉ bs))

/-- Blocks that can be freed one after the other. -/
structure Freeable (lo : ℕ) (s : State) (bs : List ℕ) : Prop where
  nodup : bs.Nodup
  range : ∀ b ∈ bs, lo ≤ b ∧ b < s.sb.size
  marked : ∀ b ∈ bs, marked s.sb s.disk b = true

section Free

variable {s s' s'' : State} {lo b : ℕ} {bs bs' : List ℕ} {ip : Ino}

theorem Freed.refl (lo : ℕ) (s : State) : Freed lo [] s s where
  sb := rfl
  disk _ _ := rfl
  marked b _ := by simp

theorem Freed.trans (h : Freed lo bs s s') (h' : Freed lo bs' s' s'') : Freed lo (bs ++ bs') s s'' where
  sb := h'.sb.trans h.sb
  disk b hb := (h'.disk b (by rwa [h.sb])).trans (h.disk b hb)
  marked b hb := by
    rw [h'.marked b (by rwa [h.sb]), h.marked b hb, Bool.and_assoc, ← Bool.decide_and]
    simp only [List.mem_append, not_or]

theorem Freed.of_disk (h : Freed lo bs s s') (hsb : s''.sb = s'.sb) (hdisk : s''.disk = s'.disk) :
    Freed lo bs s s'' where
  sb := hsb.trans h.sb
  disk b hb := by rw [hdisk, h.disk b hb]
  marked b hb := by rw [hsb, hdisk, h.marked b hb]

theorem Freeable.rest (h : Freeable lo s (bs ++ bs')) (hf : Freed lo bs s s') : Freeable lo s' bs' where
  nodup := (List.nodup_append.mp h.nodup).2.1
  range b hb := by
    rw [hf.sb]
    exact h.range b (List.mem_append_right _ hb)
  marked b hb := by
    have hmem := List.mem_append_right bs hb
    rw [hf.marked b (h.range b hmem).2, h.marked b hmem, Bool.true_and, decide_eq_true_iff]
    exact fun hb' => (List.nodup_append.mp h.nodup).2.2 b hb' b hb rfl

theorem Freeable.first (h : Freeable lo s (bs ++ bs')) : Freeable lo s bs where
  nodup := (List.nodup_append.mp h.nodup).1
  range b hb := h.range b (List.mem_append_left _ hb)
  marked b hb := h.marked b (List.mem_append_left _ hb)

/-- `bfree` clears the bit of the block. -/
theorem bfree_spec (hg : Geometry s.sb lo) (h : Freeable lo s [b]) :
    wp (bfree b) s fun _ s' => Freed lo [b] s s' ∧ s'.inode = s.inode := by
  have hb := h.range b (by simp)
  have hm := h.marked b (by simp)
  have hblock := hg.bitmap b hb.2
  unfold bfree
  rw [wp_bind, wp_get]
  unfold marked at hm
  simp only [hm, Bool.not_true, Bool.false_eq_true, if_false, logWrite, wp_modify]
  refine ⟨⟨rfl, ?_, ?_⟩, trivial⟩
  · intro x hx
    have hge : s.sb.bmapstart ≤ s.sb.bblock b := Nat.le_add_left _ _
    exact update_of_ne (by omega) _ _
  · intro x hx
    change bit (update s.disk (s.sb.bblock b) (flipBit (s.disk (s.sb.bblock b)) b)
      (s.sb.bblock x)) x = (bit (s.disk (s.sb.bblock x)) x && decide (x ∉ [b]))
    by_cases hsame : s.sb.bblock x = s.sb.bblock b
    · rw [hsame, update_self, bit_flipBit (Nat.add_right_cancel hsame)]
      by_cases hxb : x = b
      · rw [if_pos hxb, hxb, hm]
        simp
      · simp [hxb]
    · have hxb : x ≠ b := by
        rintro rfl
        exact hsame rfl
      rw [update_of_ne hsame]
      simp [hxb]

/-- The blocks of a list of addresses. -/
def present (as : List ℕ) : List ℕ := as.filter (· ≠ 0)

theorem present_cons (a : ℕ) (as : List ℕ) :
    present (a :: as) = (if a ≠ 0 then [a] else []) ++ present as := by
  unfold present
  rw [List.filter_cons]
  by_cases ha : a = 0 <;> simp [ha]

/-- The first loop of `itrunc` frees the direct blocks. -/
theorem truncDirect_spec (hg : Geometry s.sb lo) (ks : List ℕ) (hks : ks.Nodup)
    (h : Freeable lo s (present (ks.map (s.inode ip).addrs))) :
    wp (truncDirect ip ks) s fun _ s' => Freed lo (present (ks.map (s.inode ip).addrs)) s s' ∧
      s'.inode = update s.inode ip
        { s.inode ip with addrs := fun k => if k ∈ ks then 0 else (s.inode ip).addrs k } := by
  induction ks generalizing s with
  | nil =>
    rw [truncDirect, wp_pure]
    refine ⟨.refl lo s, ?_⟩
    simp
  | cons k ks ih =>
    obtain ⟨hk, hks'⟩ := List.nodup_cons.mp hks
    rw [truncDirect, wp_bind, wp_get]
    rw [List.map_cons, present_cons] at h ⊢
    by_cases ha : (s.inode ip).addrs k ≠ 0
    · rw [if_pos ha] at h ⊢
      rw [if_pos ha]
      refine (bfree_spec hg h.first).bind ?_
      rintro _ t ⟨hf, hinode⟩
      rw [setInode, wp_bind, wp_modify]
      generalize hu : (⟨t.sb, t.disk, update t.inode ip
        { t.inode ip with addrs := update (t.inode ip).addrs k 0 }⟩ : State) = u
      have hui : u.inode = update s.inode ip
          { s.inode ip with addrs := update (s.inode ip).addrs k 0 } := by rw [← hu, hinode]
      have hfu : Freed lo [(s.inode ip).addrs k] s u := hf.of_disk (by rw [← hu]) (by rw [← hu])
      -- The later addresses have not changed.
      have haddrs : ks.map (u.inode ip).addrs = ks.map (s.inode ip).addrs := by
        refine List.map_congr_left fun k' hk' => ?_
        rw [hui, update_self]
        refine update_of_ne ?_ _ _
        rintro rfl
        exact hk hk'
      have hrest := h.rest hfu
      rw [← haddrs] at hrest ⊢
      refine (ih (by rw [hfu.sb]; exact hg) hks' hrest).mono ?_
      rintro _ v ⟨hfv, hvi⟩
      have hfun : (fun k' => if k' ∈ ks then 0 else update (s.inode ip).addrs k 0 k') =
          fun k' => if k' ∈ k :: ks then 0 else (s.inode ip).addrs k' := by
        funext k'
        by_cases hmem : k' ∈ ks
        · simp [hmem]
        · by_cases hkk : k' = k
          · simp [hkk]
          · simp [hmem, hkk]
      refine ⟨hfu.trans hfv, ?_⟩
      rw [hvi, hui]
      simp only [update_self, update_idem, hfun]
    · rw [if_neg ha] at h ⊢
      rw [if_neg ha]
      rw [not_not] at ha
      refine (ih hg hks' h).mono ?_
      rintro _ v ⟨hfv, hvi⟩
      have hfun : (fun k' => if k' ∈ ks then 0 else (s.inode ip).addrs k') =
          fun k' => if k' ∈ k :: ks then 0 else (s.inode ip).addrs k' := by
        funext k'
        by_cases hkk : k' = k
        · simp [hkk, ha]
        · simp [hkk]
      rw [hfun] at hvi
      exact ⟨hfv, hvi⟩

/-- The second loop frees the blocks that the indirect one lists. -/
theorem truncIndirect_spec (hg : Geometry s.sb lo) (a : Block) (js : List ℕ)
    (h : Freeable lo s (present (js.map a.word))) :
    wp (truncIndirect a js) s fun _ s' => Freed lo (present (js.map a.word)) s s' ∧ s'.inode = s.inode := by
  induction js generalizing s with
  | nil =>
    rw [truncIndirect, wp_pure]
    exact ⟨.refl lo s, rfl⟩
  | cons j js ih =>
    rw [truncIndirect]
    rw [List.map_cons, present_cons] at h ⊢
    by_cases ha : a.word j ≠ 0
    · rw [if_pos ha] at h ⊢
      rw [if_pos ha]
      refine (bfree_spec hg h.first).bind ?_
      rintro _ t ⟨hf, hinode⟩
      refine (ih (by rw [hf.sb]; exact hg) (h.rest hf)).mono ?_
      rintro _ v ⟨hfv, hvi⟩
      exact ⟨hf.trans hfv, hvi.trans hinode⟩
    · rw [if_neg ha] at h ⊢
      rw [if_neg ha]
      exact ih hg h

end Free

/-! ## The whole function -/

/-- The file `ip` has been truncated. -/
structure Truncated (ip : Ino) (lo : ℕ) (s s' : State) : Prop where
  cons : Consistent s' lo
  loaded : Loaded s' ip
  exact : Exact s lo → Exact s' lo
  sb : s'.sb = s.sb
  inode : s'.inode = update s.inode ip
    { s.inode ip with size := 0, addrs := (s'.inode ip).addrs }
  size : s'.fsize (s.inode ip).inum = 0
  addrs : ∀ k, k ≤ NDIRECT → (s'.inode ip).addrs k = 0
  type : ∀ i, i < s.sb.ninodes → dinodeType s.sb s'.disk i = dinodeType s.sb s.disk i
  nlink : ∀ i, i < s.sb.ninodes → dinodeNlink s.sb s'.disk i = dinodeNlink s.sb s.disk i
  others : ∀ i, i < s.sb.ninodes → i ≠ (s.inode ip).inum → s'.fsize i = s.fsize i ∧
    (∀ k, k ≤ NDIRECT → dinodeAddrs s.sb s'.disk i k = dinodeAddrs s.sb s.disk i k) ∧
    ∀ p, p < MAXFILE * BSIZE → s'.content i p = s.content i p

section Trunc

variable {s t : State} {ip : Ino} {lo : ℕ} {bs : List ℕ}

theorem Volume.freeable (h : Volume s ip lo) (ks : List ℕ) (hks : ks.Nodup) (hlt : ∀ k ∈ ks, k < NSLOT)
    (i : ℕ) : Freeable lo s (present (ks.map (ptr (s.addrs ip) s.disk i))) := by
  have hmem : ∀ b ∈ present (ks.map (ptr (s.addrs ip) s.disk i)),
      ∃ k, k ∈ ks ∧ ptr (s.addrs ip) s.disk i k = b ∧ b ≠ 0 := by
    intro b hb
    obtain ⟨hb', h0⟩ := List.mem_filter.mp hb
    obtain ⟨k, hk, rfl⟩ := List.mem_map.mp hb'
    exact ⟨k, hk, rfl, by simpa using h0⟩
  constructor
  · unfold present
    rw [List.filter_map]
    refine List.Nodup.map_on ?_ (hks.filter _)
    intro k hk k' hk' heq
    obtain ⟨hk, h0⟩ := List.mem_filter.mp hk
    obtain ⟨hk', -⟩ := List.mem_filter.mp hk'
    exact (h.owns.inj i k i k' (hlt k hk) (hlt k' hk') (by simpa using h0) heq).2
  · intro b hb
    obtain ⟨k, hk, rfl, h0⟩ := hmem b hb
    exact h.owns.range i k (hlt k hk) h0
  · intro b hb
    obtain ⟨k, hk, rfl, h0⟩ := hmem b hb
    exact h.stored i k (hlt k hk) h0

theorem Volume.clear (h : Volume s ip lo) (hf : Freed lo bs s t)
    (hinode : t.inode = update s.inode ip { s.inode ip with addrs := (t.inode ip).addrs })
    (hzero : ∀ k, k ≤ NDIRECT → (t.inode ip).addrs k = 0)
    (hbs : ∀ b, b ∈ bs ↔ b ≠ 0 ∧ ∃ k, k < NSLOT ∧ ptr (s.addrs ip) s.disk (s.inode ip).inum k = b) :
    Volume t ip lo ∧ Grows ip s t ∧ (Tight s ip lo → Tight t ip lo) ∧
      ∀ i k, k < NSLOT → ptr (t.addrs ip) t.disk i k =
        if i = (s.inode ip).inum then 0 else ptr (s.addrs ip) s.disk i k := by
  have hgrows : Grows ip s t := ⟨hf.sb, hinode, fun b hb => hf.disk b (.inl hb)⟩
  have hptr : ∀ i k, k < NSLOT → ptr (t.addrs ip) t.disk i k =
      if i = (s.inode ip).inum then 0 else ptr (s.addrs ip) s.disk i k := by
    intro i k hk
    rw [hgrows.addrs h.geom]
    by_cases hi : i = (s.inode ip).inum
    · rw [if_pos hi, hi]
      unfold ptr
      rw [update_self]
      split_ifs with hle
      · exact hzero k hle
      · rfl
      · rename_i hne
        exact absurd (hzero NDIRECT le_rfl) hne
    · rw [if_neg hi]
      refine ptr_congr (fun _ _ => by rw [update_of_ne hi]) (fun hne => ?_) k
      rw [← ptr_of_le (A := s.addrs ip) (d := s.disk) (i := i) le_rfl] at hne ⊢
      exact hf.disk _ (.inr (h.owns.range i NDIRECT ndirect_lt hne).1)
  -- The blocks of the other files are not among those that were freed.
  have hother : ∀ i k, k < NSLOT → i ≠ (s.inode ip).inum → ptr (s.addrs ip) s.disk i k ≠ 0 →
      ptr (s.addrs ip) s.disk i k ∉ bs := by
    intro i k hk hi hne hmem
    obtain ⟨-, k', hk', heq⟩ := (hbs _).mp hmem
    exact hi (h.owns.inj i k _ k' hk hk' hne heq.symm).1
  refine ⟨?_, hgrows, ?_, hptr⟩
  · constructor
    · rw [hf.sb]
      exact h.geom
    · exact h.pos
    · rw [hf.sb]
      constructor
      · intro i k hk hne
        rw [hptr i k hk] at hne ⊢
        split_ifs at hne ⊢
        · exact absurd rfl hne
        · exact h.owns.range i k hk hne
      · intro i k i' k' hk hk' hne heq
        rw [hptr i k hk] at hne heq
        rw [hptr i' k' hk'] at heq
        split_ifs at hne heq
        · exact absurd rfl hne
        · exact absurd rfl hne
        · exact absurd heq hne
        · exact h.owns.inj i k i' k' hk hk' hne heq
    · intro b hb
      rw [hf.marked b (hb.trans_le h.geom.lo_le), h.low b hb, Bool.true_and, decide_eq_true_iff, hbs]
      rintro ⟨h0, k, hk, rfl⟩
      exact absurd (h.owns.range _ k hk h0).1 (not_le.mpr hb)
    · intro i k hk hne
      rw [hptr i k hk] at hne ⊢
      split_ifs at hne ⊢ with hi
      · exact absurd rfl hne
      · rw [hf.marked _ (h.owns.range i k hk hne).2, h.stored i k hk hne, Bool.true_and,
          decide_eq_true_iff]
        exact hother i k hk hi hne
  · intro htight b hb hlt hm
    rw [hf.sb] at hlt
    rw [hf.marked b hlt, Bool.and_eq_true, decide_eq_true_iff] at hm
    obtain ⟨i, k, hk, rfl⟩ := htight b hb hlt hm.1
    have hpos := h.pos
    refine ⟨i, k, hk, ?_⟩
    rw [hptr i k hk, if_neg]
    rintro rfl
    exact hm.2 ((hbs _).mpr ⟨by omega, k, hk, rfl⟩)

/-! ## The blocks of a file -/

theorem ptr_self {k : ℕ} (hk : k ≤ NDIRECT) :
    ptr (s.addrs ip) s.disk (s.inode ip).inum k = (s.inode ip).addrs k := by
  rw [ptr_of_le hk, State.addrs_self]

theorem map_addrs_eq : (List.range NDIRECT).map (s.inode ip).addrs =
    (List.range NDIRECT).map (ptr (s.addrs ip) s.disk (s.inode ip).inum) :=
  List.map_congr_left fun _ hk => (ptr_self (List.mem_range.mp hk).le).symm

theorem map_words_eq (h0 : (s.inode ip).addrs NDIRECT ≠ 0) :
    (List.range NINDIRECT).map (s.disk ((s.inode ip).addrs NDIRECT)).word =
      ((List.range NINDIRECT).map (NDIRECT + 1 + ·)).map (ptr (s.addrs ip) s.disk (s.inode ip).inum) := by
  rw [List.map_map]
  refine List.map_congr_left fun j _ => ?_
  rw [comp_apply, ptr_entry _ (by rwa [State.addrs_self]), State.addrs_self]

/-- Without an indirect block, the blocks of the file are those of the direct addresses. -/
theorem mem_present_direct (h0 : (s.inode ip).addrs NDIRECT = 0) (b : ℕ) :
    b ∈ present ((List.range NDIRECT).map (s.inode ip).addrs) ↔
      b ≠ 0 ∧ ∃ k, k < NSLOT ∧ ptr (s.addrs ip) s.disk (s.inode ip).inum k = b := by
  rw [map_addrs_eq]
  unfold present
  rw [List.mem_filter, List.mem_map, decide_eq_true_iff]
  constructor
  · rintro ⟨⟨k, hk, hb⟩, hne⟩
    exact ⟨hne, k, (List.mem_range.mp hk).trans ndirect_lt, hb⟩
  · rintro ⟨hne, k, hk, rfl⟩
    refine ⟨⟨k, List.mem_range.mpr ?_, rfl⟩, hne⟩
    by_contra hge
    apply hne
    unfold ptr
    rw [State.addrs_self, h0, if_pos rfl]
    split_ifs with hle
    · rw [le_antisymm hle (not_lt.mp hge), h0]
    · rfl

/-- The direct addresses, the entries of the indirect block and that block itself. -/
def State.blocks (s : State) (ip : Ino) : List ℕ :=
  present ((List.range NDIRECT).map (s.inode ip).addrs) ++
    (present ((List.range NINDIRECT).map (s.disk ((s.inode ip).addrs NDIRECT)).word) ++
      [(s.inode ip).addrs NDIRECT])

/-- With an indirect block, these are the blocks of the file. -/
theorem mem_blocks (h0 : (s.inode ip).addrs NDIRECT ≠ 0) (b : ℕ) :
    b ∈ s.blocks ip ↔ b ≠ 0 ∧ ∃ k, k < NSLOT ∧ ptr (s.addrs ip) s.disk (s.inode ip).inum k = b := by
  rw [State.blocks, map_addrs_eq, map_words_eq h0]
  unfold present
  simp only [List.mem_append, List.mem_filter, List.mem_map, decide_eq_true_iff, List.mem_singleton]
  constructor
  · rintro (⟨⟨k, hk, hb⟩, hne⟩ | ⟨⟨_, ⟨j, hj, rfl⟩, hb⟩, hne⟩ | rfl)
    · exact ⟨hne, k, (List.mem_range.mp hk).trans ndirect_lt, hb⟩
    · refine ⟨hne, _, ?_, hb⟩
      have := List.mem_range.mp hj
      unfold NSLOT
      omega
    · exact ⟨h0, NDIRECT, ndirect_lt, ptr_self le_rfl⟩
  · rintro ⟨hne, k, hk, rfl⟩
    obtain hlt | rfl | hgt := lt_trichotomy k NDIRECT
    · exact .inl ⟨⟨k, List.mem_range.mpr hlt, rfl⟩, hne⟩
    · exact .inr (.inr (ptr_self le_rfl))
    · refine .inr (.inl ⟨⟨k, ⟨k - (NDIRECT + 1), List.mem_range.mpr ?_, by omega⟩, rfl⟩, hne⟩)
      unfold NSLOT at hk
      omega

theorem Volume.freeable_blocks (hvol : Volume s ip lo) (h0 : (s.inode ip).addrs NDIRECT ≠ 0) :
    Freeable lo s (s.blocks ip) := by
  have hall := hvol.freeable
    (List.range NDIRECT ++ ((List.range NINDIRECT).map (NDIRECT + 1 + ·) ++ [NDIRECT]))
    (by decide +kernel) (by decide +kernel) (s.inode ip).inum
  unfold State.blocks
  unfold present at hall ⊢
  rw [List.map_append, List.map_append, List.filter_append, List.filter_append] at hall
  rw [map_addrs_eq, map_words_eq h0]
  rw [List.map_singleton, ptr_self le_rfl, List.filter_singleton, decide_eq_true h0] at hall
  exact hall

/-- The end of `itrunc`, when all blocks of the file have been freed: the size is set to 0 and the inode is
written. -/
theorem Consistent.truncated (h : Consistent s lo) (hl : Loaded s ip) {t : State} {bs : List ℕ}
    (hf : Freed lo bs s t)
    (hinode : t.inode = update s.inode ip { s.inode ip with addrs := (t.inode ip).addrs })
    (hzero : ∀ k, k ≤ NDIRECT → (t.inode ip).addrs k = 0)
    (hbs : ∀ b, b ∈ bs ↔ b ≠ 0 ∧ ∃ k, k < NSLOT ∧ ptr (s.addrs ip) s.disk (s.inode ip).inum k = b) :
    Truncated ip lo s (t.writeBack ip 0) := by
  have hvol := h.volume hl
  obtain ⟨hvol', hgrows, htight, hptr⟩ := hvol.clear hf hinode hzero hbs
  obtain ⟨hc, hl', hst, hexact⟩ := h.writeBack hl hvol' hgrows (Nat.zero_le _)
    (fun i bn hi hbn hne => by rwa [hptr i _ (slotOf_lt hbn), if_neg hi])
    (fun bn _ hbn => absurd hbn (Nat.not_lt_zero _))
  refine ⟨hc, hl', fun he => hexact (htight (hl.tight he)), hf.sb, ?_, hst.size, ?_, hst.type,
    hst.nlink, ?_⟩
  · unfold State.writeBack
    simp only [update_self]
    rw [hinode]
    simp only [update_self, update_idem]
  · intro k hk
    unfold State.writeBack
    simp only [update_self]
    exact hzero k hk
  · intro i hi hne
    refine ⟨(hst.others i hi hne).1, (hst.others i hi hne).2, fun p hp => ?_⟩
    have hbn : p / BSIZE < MAXFILE := Nat.div_lt_of_lt_mul (by rwa [Nat.mul_comm])
    have hslot : ptr (t.addrs ip) t.disk i (slotOf (p / BSIZE)) =
        ptr (s.addrs ip) s.disk i (slotOf (p / BSIZE)) := by rw [hptr i _ (slotOf_lt hbn), if_neg hne]
    rw [hst.content i p hp, ← hl.byteAt_eq]
    unfold byteAt blockData
    rw [hslot]
    refine congrArg (fun b : Block => b.get _) (if_ctx_congr Iff.rfl (fun _ => rfl) fun h0 => ?_)
    exact hf.disk _ (.inr (hvol.owns.range i _ (slotOf_lt hbn) h0).1)

/-- `itrunc` gives all blocks of the file back and leaves it empty. -/
theorem itrunc_spec (h : Consistent s lo) (hl : Loaded s ip) :
    wp (itrunc ip) s fun _ s' => Truncated ip lo s s' := by
  have hvol := h.volume hl
  have hgeom := h.geom
  have hfree : Freeable lo s (present ((List.range NDIRECT).map (s.inode ip).addrs)) := by
    rw [map_addrs_eq]
    exact hvol.freeable _ List.nodup_range (fun k hk => (List.mem_range.mp hk).trans ndirect_lt) _
  unfold itrunc
  refine (truncDirect_spec hgeom (List.range NDIRECT) List.nodup_range hfree).bind ?_
  rintro _ t ⟨hf, hti⟩
  have htself : (t.inode ip).addrs = fun k => if k ∈ List.range NDIRECT then 0 else (s.inode ip).addrs k := by
    rw [hti, update_self]
  have hind : (t.inode ip).addrs NDIRECT = (s.inode ip).addrs NDIRECT := by
    rw [htself]
    simp
  rw [wp_bind, wp_get, hind]
  by_cases h0 : (s.inode ip).addrs NDIRECT ≠ 0
  swap
  · -- There is no indirect block.
    rw [if_neg h0]
    rw [not_not] at h0
    unfold setInode iupdate bread logWrite
    simp only [wp_bind, wp_modify, wp_get, wp_pure, update_self]
    refine h.truncated hl (t := t) hf (by rw [htself, hti]) (fun k hk => ?_) (mem_present_direct h0)
    rw [htself]
    by_cases hlt : k < NDIRECT
    · simp [hlt]
    · simp [le_antisymm hk (not_lt.mp hlt), h0]
  rw [if_pos h0]
  have hrange := hvol.owns.range (s.inode ip).inum NDIRECT ndirect_lt (by rwa [ptr_self le_rfl])
  rw [ptr_self le_rfl] at hrange
  have hblock : t.disk ((s.inode ip).addrs NDIRECT) = s.disk ((s.inode ip).addrs NDIRECT) :=
    hf.disk _ (.inr hrange.1)
  unfold bread
  simp only [wp_bind, wp_get, wp_pure, hblock]
  have hall := hvol.freeable_blocks h0
  refine (truncIndirect_spec (by rw [hf.sb]; exact hgeom) _ _ (hall.rest hf).first).mono ?_
  rintro _ u ⟨hfu, hui⟩
  have hrest := (hall.rest hf).rest hfu
  refine (bfree_spec (by rw [hfu.sb, hf.sb]; exact hgeom) hrest).mono ?_
  rintro _ v ⟨hfv, hvi⟩
  unfold setInode iupdate bread logWrite
  simp only [wp_bind, wp_modify, wp_get, wp_pure, update_self]
  generalize hw : (⟨v.sb, v.disk, update v.inode ip
    { v.inode ip with addrs := update (v.inode ip).addrs NDIRECT 0 }⟩ : State) = w
  have hwi : w.inode = update t.inode ip
      { t.inode ip with addrs := update (t.inode ip).addrs NDIRECT 0 } := by
    rw [← hw, hvi, hui]
  have hwself : (w.inode ip).addrs = update (t.inode ip).addrs NDIRECT 0 := by
    rw [hwi, update_self]
  have hfw : Freed lo (s.blocks ip) s w :=
    (hf.trans (hfu.trans hfv)).of_disk (by rw [← hw]) (by rw [← hw])
  have hdone := h.truncated hl hfw ?_ (fun k hk => ?_) (mem_blocks h0)
  · rw [← hw] at hdone
    unfold State.writeBack at hdone
    simp only [update_self] at hdone
    exact hdone
  · rw [hwself, hwi, hti]
    simp only [update_self, update_idem]
  · rw [hwself, htself]
    by_cases hlt : k < NDIRECT
    · rw [update_of_ne hlt.ne]
      simp [hlt]
    · rw [le_antisymm hk (not_lt.mp hlt), update_self]

end Trunc

end Xv6.Fs
