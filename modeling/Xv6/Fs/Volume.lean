import Xv6.Fs.Dinode

/-!
# The block allocator and `bmap`

`Volume` is what the file system keeps of blocks while it works on one inode: block numbers are stored
once, in the data area, and a stored block is marked in the bitmap. `balloc` returns a block that is
stored nowhere, and `bmap` finds or adds a block of the file without changing what any file holds
(`bmap_spec`).
-/

namespace Xv6.Fs

open Function Lib

/-- The bit of block `b` in the bitmap. -/
def marked (sb : Superblock) (d : Disk) (b : ℕ) : Bool := bit (d (sb.bblock b)) b

/-- Inode blocks, then the bitmap, then the data area from `lo` on. -/
structure Geometry (sb : Superblock) (lo : ℕ) : Prop where
  inodes : ∀ i, i < sb.ninodes → sb.iblock i < sb.bmapstart
  bitmap : ∀ b, b < sb.size → sb.bblock b < lo
  lo_le : lo ≤ sb.size
  size_lt : sb.size < 2 ^ 32

/-- All blocks are in use. -/
def Full (s : State) : Prop := ∀ b, b < s.sb.size → marked s.sb s.disk b = true

section Bits

variable {data : Block} {b b' : ℕ}

theorem mod_bpb_mod_eight (b : ℕ) : b % BPB % 8 = b % 8 := Nat.mod_mod_of_dvd b (by decide)

theorem bit_flipBit (h : b' / BPB = b / BPB) :
    bit (flipBit data b) b' = if b' = b then !bit data b else bit data b' := by
  have hlt : b' % BPB / 8 < BSIZE := by
    have : b' % BPB < BSIZE * 8 := Nat.mod_lt _ (by decide)
    omega
  unfold bit flipBit
  rw [Bytes.get_splice _ _ _ _ hlt]
  by_cases hbyte : b' % BPB / 8 = b % BPB / 8
  · have hsmall : (data.get (b % BPB / 8)).toNat ^^^ 2 ^ (b % 8) < 2 ^ 8 :=
      Nat.xor_lt_two_pow (UInt8.toNat_lt _) (Nat.pow_lt_pow_right (by decide) (Nat.mod_lt _ (by decide)))
    have hiff : b % 8 = b' % 8 ↔ b' = b := by
      constructor
      · intro hmod
        have h1 := Nat.div_add_mod b BPB
        have h2 := Nat.div_add_mod b' BPB
        have h3 := mod_bpb_mod_eight b
        have h4 := mod_bpb_mod_eight b'
        rw [h] at h2
        omega
      · rintro rfl
        rfl
    rw [if_pos (by omega), UInt8.toNat_ofNat_of_lt' hsmall, Nat.testBit_xor, Nat.testBit_two_pow, hbyte]
    simp only [hiff]
    split_ifs with heq
    · rw [heq]
      simp
    · simp [heq]
  · rw [if_neg (by omega), if_neg]
    rintro rfl
    exact hbyte rfl

end Bits

/-! ## `balloc` -/

section Balloc

variable {s : State} {lo : ℕ}

/-- `balloc` returns 0 if all blocks are in use; else it marks a block that was free, and zeroes it. -/
theorem balloc_spec (hg : Geometry s.sb lo) (hlow : ∀ b, b < lo → marked s.sb s.disk b = true) :
    wp balloc s fun b s' => b = 0 ∧ s' = s ∧ Full s ∨
      lo ≤ b ∧ b < s.sb.size ∧ marked s.sb s.disk b = false ∧ s'.sb = s.sb ∧ s'.inode = s.inode ∧
        s'.disk b = Bytes.fill BSIZE 0 ∧
        (∀ x, x ≠ b → s.sb.bmapstart ≤ x → lo ≤ x → s'.disk x = s.disk x) ∧
        (∀ x, x < s.sb.bmapstart → s'.disk x = s.disk x) ∧
        ∀ x, x < s.sb.size → marked s'.sb s'.disk x = (decide (x = b) || marked s.sb s.disk x) := by
  unfold balloc
  rw [wp_bind, wp_get]
  cases hfind : (List.range s.sb.size).find? fun b => !bit (s.disk (s.sb.bblock b)) b with
  | none =>
    refine (wp_pure _).mpr (.inl ⟨rfl, rfl, fun b hb => ?_⟩)
    have := List.find?_eq_none.mp hfind b (List.mem_range.mpr hb)
    simpa [marked] using this
  | some b =>
    have hfree : marked s.sb s.disk b = false := by
      have := List.find?_some hfind
      simpa [marked] using this
    have hb : b < s.sb.size := List.mem_range.mp (List.mem_of_find?_eq_some hfind)
    have hlo : lo ≤ b := by
      by_contra hlt
      rw [hlow b (not_le.mp hlt)] at hfree
      cases hfree
    have hbb := hg.bitmap b hb
    simp only [logWrite, wp_bind, wp_modify, wp_pure]
    refine .inr ⟨hlo, hb, hfree, trivial, trivial, update_self .., ?_, ?_, ?_⟩
    · intro x hxb _ hx
      rw [update_of_ne hxb, update_of_ne (by omega)]
    · intro x hx
      have hbm : s.sb.bmapstart ≤ s.sb.bblock b := Nat.le_add_left _ _
      rw [update_of_ne (by omega), update_of_ne (by omega)]
    · intro x hx
      have hbx := hg.bitmap x hx
      unfold marked
      rw [update_of_ne (by omega)]
      by_cases hblock : s.sb.bblock x = s.sb.bblock b
      · rw [hblock, update_self, bit_flipBit (Nat.add_right_cancel hblock)]
        by_cases hxb : x = b
        · rw [if_pos hxb, hxb]
          unfold marked at hfree
          simp [hfree]
        · simp [hxb]
      · rw [update_of_ne hblock]
        have hxb : x ≠ b := by
          rintro rfl
          exact hblock rfl
        simp [hxb]

end Balloc

/-! ## `bmap` -/

/-- The addresses of the files while `ip` is worked on: those of `ip` are in memory, and those of the
other inodes that are allocated are on disk. -/
def State.addrs (s : State) (ip : Ino) : Addrs := fun i =>
  if i = (s.inode ip).inum then (s.inode ip).addrs
  else if i < s.sb.ninodes ∧ dinodeType s.sb s.disk i ≠ 0 then dinodeAddrs s.sb s.disk i
  else fun _ => 0

/-- What holds of blocks while `ip` is worked on. -/
structure Volume (s : State) (ip : Ino) (lo : ℕ) : Prop where
  geom : Geometry s.sb lo
  pos : 0 < lo
  owns : Owns (s.addrs ip) s.disk lo s.sb.size
  low : ∀ b, b < lo → marked s.sb s.disk b = true
  stored : ∀ i k, k < NSLOT → ptr (s.addrs ip) s.disk i k ≠ 0 →
    marked s.sb s.disk (ptr (s.addrs ip) s.disk i k) = true

/-- Every block of the data area that is marked is stored somewhere. -/
def Tight (s : State) (ip : Ino) (lo : ℕ) : Prop :=
  ∀ b, lo ≤ b → b < s.sb.size → marked s.sb s.disk b = true →
    ∃ i k, k < NSLOT ∧ ptr (s.addrs ip) s.disk i k = b

/-- What giving blocks to `ip` leaves alone: the other entries of the inode table, the fields of `ip` but
its addresses, and the inode blocks. -/
structure Grows (ip : Ino) (s s' : State) : Prop where
  sb : s'.sb = s.sb
  inode : s'.inode = update s.inode ip { s.inode ip with addrs := (s'.inode ip).addrs }
  inodes : ∀ b, b < s.sb.bmapstart → s'.disk b = s.disk b

section Bmap

variable {s s' s'' : State} {ip : Ino} {lo bn k : ℕ}

theorem Grows.refl (ip : Ino) (s : State) : Grows ip s s where
  sb := rfl
  inode := by rw [update_eq_self]
  inodes _ _ := rfl

theorem Grows.inode_self (h : Grows ip s s') :
    s'.inode ip = { s.inode ip with addrs := (s'.inode ip).addrs } := by
  have := congrFun h.inode ip
  rwa [update_self] at this

theorem Grows.trans (h : Grows ip s s') (h' : Grows ip s' s'') : Grows ip s s'' where
  sb := h'.sb.trans h.sb
  inode := by
    rw [h'.inode, h.inode_self, h.inode]
    simp only [update_idem]
    funext jp
    by_cases hj : jp = ip
    · subst hj
      simp
    · simp [update_of_ne hj]
  inodes b hb := (h'.inodes b (by rwa [h.sb])).trans (h.inodes b hb)

theorem Grows.inum (h : Grows ip s s') : (s'.inode ip).inum = (s.inode ip).inum := by
  rw [h.inode_self]

theorem Grows.size (h : Grows ip s s') : (s'.inode ip).size = (s.inode ip).size := by
  rw [h.inode_self]

theorem Grows.addrs (hg : Geometry s.sb lo) (h : Grows ip s s') :
    s'.addrs ip = update (s.addrs ip) (s.inode ip).inum (s'.inode ip).addrs := by
  funext i
  by_cases hi : i = (s.inode ip).inum
  · rw [hi, update_self, State.addrs, if_pos h.inum.symm]
  · rw [update_of_ne hi]
    unfold State.addrs
    rw [h.inum, if_neg hi, if_neg hi, h.sb]
    by_cases hlt : i < s.sb.ninodes
    · have hblock := h.inodes _ (hg.inodes i hlt)
      have hfield : ∀ o w, dinodeField s.sb s'.disk i o w = dinodeField s.sb s.disk i o w :=
        fun o w => dinodeField_congr hblock
      unfold dinodeType dinodeAddrs
      simp only [hfield]
    · rw [if_neg fun h => hlt h.1, if_neg fun h => hlt h.1]

theorem Volume.unowned (h : Volume s ip lo) {b : ℕ} (hlo : lo ≤ b)
    (hfree : marked s.sb s.disk b = false) : Unowned (s.addrs ip) s.disk b := by
  intro i k hk heq
  have hpos := h.pos
  have := h.stored i k hk (by omega)
  rw [heq, hfree] at this
  cases this

theorem Volume.balloc (h : Volume s ip lo) : wp Fs.balloc s fun b s' =>
    b = 0 ∧ s' = s ∧ Full s ∨
      lo ≤ b ∧ b < s.sb.size ∧ Volume s' ip lo ∧ Grows ip s s' ∧ s'.inode = s.inode ∧
        Unowned (s'.addrs ip) s'.disk b ∧ s'.disk b = Bytes.fill BSIZE 0 ∧
        marked s'.sb s'.disk b = true ∧
        (∀ i k, k < NSLOT → ptr (s'.addrs ip) s'.disk i k = ptr (s.addrs ip) s.disk i k) ∧
        (∀ i k, k < NSLOT → ptr (s.addrs ip) s.disk i k ≠ 0 →
          s'.disk (ptr (s.addrs ip) s.disk i k) = s.disk (ptr (s.addrs ip) s.disk i k)) ∧
        Extends (s.addrs ip) s.disk (s'.addrs ip) s'.disk ∧
        ∀ x, x < s.sb.size → marked s'.sb s'.disk x = (decide (x = b) || marked s.sb s.disk x) := by
  refine (balloc_spec h.geom h.low).mono ?_
  rintro b t (hfull | ⟨hlo, hb, hfree, hsb, hinode, hzero, hdata, hmeta, hmark⟩)
  · exact .inl hfull
  have hun := h.unowned hlo hfree
  have hgrows : Grows ip s t := ⟨hsb, by rw [hinode, update_eq_self], hmeta⟩
  have haddrs : t.addrs ip = s.addrs ip := by
    rw [hgrows.addrs h.geom, hinode]
    refine (congrArg (update _ _) ?_).trans (update_eq_self (s.inode ip).inum _)
    rw [State.addrs, if_pos rfl]
  have hbm : ∀ x, lo ≤ x → s.sb.bmapstart ≤ x := by
    intro x hx
    have h1 := h.geom.bitmap b hb
    have h2 : s.sb.bmapstart ≤ s.sb.bblock b := Nat.le_add_left _ _
    omega
  -- Stored blocks are in the data area, and are not the new block.
  have hkeep : ∀ i k, k < NSLOT → ptr (s.addrs ip) s.disk i k ≠ 0 →
      t.disk (ptr (s.addrs ip) s.disk i k) = s.disk (ptr (s.addrs ip) s.disk i k) := by
    intro i k hk hne
    have hrange := (h.owns.range i k hk hne).1
    exact hdata _ (hun i k hk) (hbm _ hrange) hrange
  have hptr : ∀ i k, ptr (t.addrs ip) t.disk i k = ptr (s.addrs ip) s.disk i k := by
    intro i k
    rw [haddrs]
    refine ptr_congr (fun _ _ => rfl) (fun hne => ?_) k
    have := hkeep i NDIRECT ndirect_lt (by rwa [ptr_of_le le_rfl])
    rwa [ptr_of_le le_rfl] at this
  have hmarked : ∀ x, x < s.sb.size → marked s.sb s.disk x = true → marked t.sb t.disk x = true := by
    intro x hx hm
    rw [hmark x hx, hm, Bool.or_true]
  refine .inr ⟨hlo, hb, ?_, hgrows, hinode, ?_, hzero, ?_, fun i k _ => hptr i k, hkeep, ?_, hmark⟩
  · constructor
    · rw [hsb]
      exact h.geom
    · exact h.pos
    · rw [hsb]
      exact h.owns.of_ptr_eq fun i k _ => hptr i k
    · intro x hx
      exact hmarked x (hx.trans_le h.geom.lo_le) (h.low x hx)
    · intro i k hk hne
      rw [hptr] at hne ⊢
      exact hmarked _ (h.owns.range i k hk hne).2 (h.stored i k hk hne)
  · intro i k hk
    rw [hptr]
    exact hun i k hk
  · rw [hmark b hb]
    simp
  · exact extends_of_ptr_eq (fun i k _ => hptr i k) fun i k hk _ hne => hkeep i k hk hne

theorem State.addrs_self (s : State) (ip : Ino) : s.addrs ip (s.inode ip).inum = (s.inode ip).addrs :=
  if_pos rfl

theorem Volume.of_added (h : Volume s ip lo) {b : ℕ} (hsb : s'.sb = s.sb)
    (howns : Owns (s'.addrs ip) s'.disk lo s.sb.size)
    (hadd : Added (s.addrs ip) s.disk (s.inode ip).inum k b (s'.addrs ip) s'.disk)
    (hbits : ∀ x, x < s.sb.size → marked s'.sb s'.disk x = marked s.sb s.disk x) (hb : b < s.sb.size)
    (hm : marked s.sb s.disk b = true) : Volume s' ip lo where
  geom := by
    rw [hsb]
    exact h.geom
  pos := h.pos
  owns := by rwa [hsb]
  low x hx := by
    rw [hbits x (hx.trans_le h.geom.lo_le)]
    exact h.low x hx
  stored i k' hk' hne := by
    rw [hadd i k' hk'] at hne ⊢
    split_ifs at hne ⊢ with hslot
    · rw [hbits b hb, hm]
    · rw [hbits _ (h.owns.range i k' hk' hne).2]
      exact h.stored i k' hk' hne

theorem Tight.add (h : Tight s ip lo) (hpos : 0 < lo) {i b : ℕ} (hsb : s'.sb = s.sb)
    (hadd : Added (s.addrs ip) s.disk i k b (s'.addrs ip) s'.disk) (hk : k < NSLOT)
    (hnull : ptr (s.addrs ip) s.disk i k = 0)
    (hmark : ∀ x, x < s.sb.size → marked s'.sb s'.disk x = (decide (x = b) || marked s.sb s.disk x)) :
    Tight s' ip lo := by
  intro x hlo hx hm
  rw [hsb] at hx
  rw [hmark x hx, Bool.or_eq_true, decide_eq_true_iff] at hm
  obtain rfl | hm := hm
  · exact ⟨i, k, hk, by rw [hadd i k hk, if_pos ⟨rfl, rfl⟩]⟩
  · obtain ⟨i', k', hk', hptr⟩ := h x hlo hx hm
    refine ⟨i', k', hk', ?_⟩
    rw [hadd i' k' hk', if_neg, hptr]
    rintro ⟨rfl, rfl⟩
    omega

/-- An address in the inode is there, or the disk is full, or it gets a new block of zeros. -/
theorem bmapAddr_spec (h : Volume s ip lo) (hk : k ≤ NDIRECT) : wp (bmapAddr ip k) s fun a s' =>
    (s.inode ip).addrs k ≠ 0 ∧ a = (s.inode ip).addrs k ∧ s' = s ∨
      (s.inode ip).addrs k = 0 ∧ a = 0 ∧ s' = s ∧ Full s ∨
      (s.inode ip).addrs k = 0 ∧ lo ≤ a ∧ a < s.sb.size ∧ Volume s' ip lo ∧ Grows ip s s' ∧
        (s'.inode ip).addrs k = a ∧ s'.disk a = Bytes.fill BSIZE 0 ∧
        Added (s.addrs ip) s.disk (s.inode ip).inum k a (s'.addrs ip) s'.disk ∧
        Extends (s.addrs ip) s.disk (s'.addrs ip) s'.disk ∧ (Tight s ip lo → Tight s' ip lo) := by
  unfold bmapAddr
  rw [wp_bind, wp_get]
  by_cases hne : (s.inode ip).addrs k ≠ 0
  · rw [if_pos hne, wp_pure]
    exact .inl ⟨hne, rfl, rfl⟩
  rw [if_neg hne]
  rw [not_not] at hne
  refine h.balloc.bind ?_
  rintro b t (⟨rfl, rfl, hfull⟩ | ⟨hlo, hb, hvol, hgrows, hinode, hun, hzero, hm, hptr, -, hext, hmark⟩)
  · rw [if_pos rfl, wp_pure]
    exact .inr (.inl ⟨hne, rfl, rfl, hfull⟩)
  have hpos := h.pos
  rw [if_neg (by omega), setInode, wp_bind, wp_modify, wp_pure]
  generalize hu : (⟨t.sb, t.disk, update t.inode ip
    { t.inode ip with addrs := update (t.inode ip).addrs k b }⟩ : State) = u
  have hui : u.inode = update t.inode ip
      { t.inode ip with addrs := update (t.inode ip).addrs k b } := by rw [← hu]
  have hud : u.disk = t.disk := by rw [← hu]
  have husb : u.sb = t.sb := by rw [← hu]
  have huself : (u.inode ip).addrs = update (t.inode ip).addrs k b := by
    rw [hui, update_self]
  have hgrows' : Grows ip t u := by
    constructor
    · exact husb
    · rw [huself, hui]
    · intro x _
      rw [hud]
  have haddrs := hgrows'.addrs hvol.geom
  rw [huself, ← State.addrs_self] at haddrs
  obtain ⟨hadd, howns, hext'⟩ := hvol.owns.setAddr (i := (t.inode ip).inum) hun hlo
    (by rw [hgrows.sb]; exact hb) hzero hk (by rw [State.addrs_self, hinode, hne])
  rw [← haddrs, ← hud] at hadd howns hext'
  rw [hud] at hext'
  have hvol' : Volume u ip lo := hvol.of_added husb howns (by rw [hud] at hadd ⊢; exact hadd)
    (fun x _ => by rw [hud, husb]) (by rw [hgrows.sb]; exact hb) hm
  have hadd' : Added (s.addrs ip) s.disk (s.inode ip).inum k b (u.addrs ip) u.disk := by
    intro i' k' hk'
    rw [hud] at hadd ⊢
    rw [hadd i' k' hk', hptr i' k' hk', hgrows.inum]
  refine .inr (.inr ⟨hne, hlo, hb, hvol', hgrows.trans hgrows', ?_, ?_, hadd', ?_, fun htight => ?_⟩)
  · rw [huself, update_self]
  · rw [hud, hzero]
  · rw [hud]
    exact hext.trans hext'
  · refine htight.add h.pos (husb.trans hgrows.sb) hadd' (hk.trans_lt ndirect_lt) ?_ fun x hx => ?_
    · rw [ptr_of_le hk, State.addrs_self, hne]
    · rw [husb, hud]
      exact hmark x hx

/-- Block `bn` of the file `ip` has been looked up: `a` is its address, or 0 if there is none and all
blocks are in use. -/
structure Mapped (ip : Ino) (lo bn : ℕ) (s : State) (a : ℕ) (s' : State) : Prop where
  vol : Volume s' ip lo
  grows : Grows ip s s'
  ext : Extends (s.addrs ip) s.disk (s'.addrs ip) s'.disk
  other : ∀ i bn', bn' < MAXFILE → ¬ (i = (s.inode ip).inum ∧ bn' = bn) →
    ptr (s'.addrs ip) s'.disk i (slotOf bn') = ptr (s.addrs ip) s.disk i (slotOf bn')
  addr : ptr (s'.addrs ip) s'.disk (s.inode ip).inum (slotOf bn) = a
  full : a = 0 → Full s'
  same : ptr (s.addrs ip) s.disk (s.inode ip).inum (slotOf bn) ≠ 0 → s' = s
  tight : Tight s ip lo → Tight s' ip lo

theorem Mapped.of_same (h : Volume s ip lo) {a : ℕ}
    (ha : ptr (s.addrs ip) s.disk (s.inode ip).inum (slotOf bn) = a) (hfull : a = 0 → Full s) :
    Mapped ip lo bn s a s :=
  ⟨h, .refl ip s, .refl _ _, fun _ _ _ _ => rfl, ha, hfull, fun _ => rfl, fun h => h⟩

theorem Mapped.of_added {a : ℕ} (hbn : bn < MAXFILE) (hvol : Volume s' ip lo) (hgrows : Grows ip s s')
    (hadd : Added (s.addrs ip) s.disk (s.inode ip).inum (slotOf bn) a (s'.addrs ip) s'.disk)
    (hext : Extends (s.addrs ip) s.disk (s'.addrs ip) s'.disk) (ha : a ≠ 0)
    (hnull : ptr (s.addrs ip) s.disk (s.inode ip).inum (slotOf bn) = 0)
    (htight : Tight s ip lo → Tight s' ip lo) : Mapped ip lo bn s a s' where
  vol := hvol
  grows := hgrows
  ext := hext
  other i bn' hbn' hne := by
    rw [hadd i _ (slotOf_lt hbn'), if_neg]
    rintro ⟨rfl, hslot⟩
    exact hne ⟨rfl, slotOf_inj hslot⟩
  addr := by rw [hadd _ _ (slotOf_lt hbn), if_pos ⟨rfl, rfl⟩]
  full h := absurd h ha
  same h := absurd hnull h
  tight := htight

/-- The entry of the indirect block: found, added, or not to be had. -/
theorem bmapEntry_spec (h : Volume s ip lo) (hind : (s.inode ip).addrs NDIRECT ≠ 0) (hbn : bn < MAXFILE)
    (hge : ¬ bn < NDIRECT) : wp (do
      let a ← bread ((s.inode ip).addrs NDIRECT)
      if a.word (bn - NDIRECT) ≠ 0 then return a.word (bn - NDIRECT)
      let addr ← balloc
      if addr ≠ 0 then logWrite ((s.inode ip).addrs NDIRECT) (a.setWord (bn - NDIRECT) addr)
      return addr) s fun a s' => Mapped ip lo bn s a s' := by
  have hj : bn - NDIRECT < NINDIRECT := by
    unfold MAXFILE at hbn
    omega
  have hslot := slotOf_indirect hge
  have hind' : s.addrs ip (s.inode ip).inum NDIRECT ≠ 0 := by rwa [State.addrs_self]
  have hword : (s.disk ((s.inode ip).addrs NDIRECT)).word (bn - NDIRECT) =
      ptr (s.addrs ip) s.disk (s.inode ip).inum (slotOf bn) := by
    rw [hslot, ptr_entry _ hind', State.addrs_self]
  unfold bread
  simp only [wp_bind, wp_get, wp_pure]
  by_cases hne : (s.disk ((s.inode ip).addrs NDIRECT)).word (bn - NDIRECT) ≠ 0
  · rw [if_pos hne, wp_pure]
    exact .of_same h hword.symm fun h0 => absurd h0 hne
  rw [if_neg hne]
  rw [not_not] at hne
  have hnull := hword.symm.trans hne
  refine h.balloc.bind ?_
  rintro b t (⟨rfl, rfl, hfull⟩ |
    ⟨hlo, hb, hvol, hgrows, hinode, hun, hzero, hm, hptr, hkeep, hext, hmark⟩)
  · rw [if_neg (by simp), wp_pure]
    exact .of_same h hnull fun _ => hfull
  have hpos := h.pos
  -- The indirect block has not changed since it was read.
  have hsame : t.disk ((s.inode ip).addrs NDIRECT) = s.disk ((s.inode ip).addrs NDIRECT) := by
    have := hkeep (s.inode ip).inum NDIRECT ndirect_lt (by rwa [ptr_of_le le_rfl])
    rwa [ptr_of_le le_rfl, State.addrs_self] at this
  have hA : t.addrs ip (s.inode ip).inum NDIRECT = (s.inode ip).addrs NDIRECT := by
    rw [← hgrows.inum, State.addrs_self, hinode]
  have hrange := h.owns.range _ NDIRECT ndirect_lt (by rwa [ptr_of_le le_rfl])
  rw [ptr_of_le le_rfl, State.addrs_self] at hrange
  rw [if_pos (by omega), logWrite]
  simp only [wp_bind, wp_modify, wp_pure]
  obtain ⟨hadd, howns, hext'⟩ := hvol.owns.setWord (i := (s.inode ip).inum) hun hlo
    (by rw [hgrows.sb]; exact hb) hzero hj (by rwa [hA]) (by rw [hA, hsame, hne])
    (hb.trans h.geom.size_lt)
  rw [hA, hsame] at hadd howns hext'
  generalize hu : (⟨t.sb, update t.disk ((s.inode ip).addrs NDIRECT)
    ((s.disk ((s.inode ip).addrs NDIRECT)).setWord (bn - NDIRECT) b), t.inode⟩ : State) = u
  have hui : u.inode = t.inode := by rw [← hu]
  have husb : u.sb = t.sb := by rw [← hu]
  have hud : u.disk = update t.disk ((s.inode ip).addrs NDIRECT)
      ((s.disk ((s.inode ip).addrs NDIRECT)).setWord (bn - NDIRECT) b) := by rw [← hu]
  have hbm : ∀ x, x < t.sb.size → t.sb.bmapstart ≤ t.sb.bblock x ∧ t.sb.bblock x < lo := fun x hx =>
    ⟨Nat.le_add_left _ _, hvol.geom.bitmap x hx⟩
  have hgrows' : Grows ip t u := by
    constructor
    · exact husb
    · rw [hui, update_eq_self]
    · intro x hx
      have := hbm b (by rw [hgrows.sb]; exact hb)
      rw [hud]
      exact update_of_ne (by omega) _ _
  have haddrs : u.addrs ip = t.addrs ip := by
    rw [hgrows'.addrs hvol.geom, hui, ← State.addrs_self, update_eq_self]
  rw [← hud, ← haddrs] at hadd howns hext'
  rw [haddrs] at hext'
  have hadd' : Added (t.addrs ip) t.disk (t.inode ip).inum (slotOf bn) b (u.addrs ip) u.disk := by
    rw [hgrows.inum, hslot]
    rw [haddrs] at hadd ⊢
    exact hadd
  have hbits : ∀ x, x < t.sb.size → marked u.sb u.disk x = marked t.sb t.disk x := by
    intro x hx
    have := hbm x hx
    unfold marked
    rw [husb, hud, update_of_ne (by omega)]
  have hvol' : Volume u ip lo := hvol.of_added husb howns hadd' hbits (by rw [hgrows.sb]; exact hb) hm
  have hadd'' : Added (s.addrs ip) s.disk (s.inode ip).inum (slotOf bn) b (u.addrs ip) u.disk := by
    intro i' k' hk'
    rw [hadd' i' k' hk', hptr i' k' hk', hgrows.inum]
  refine .of_added hbn hvol' (hgrows.trans hgrows') hadd'' ?_ (by omega) hnull fun htight => ?_
  · rw [haddrs]
    exact hext.trans hext'
  · refine htight.add hpos (husb.trans hgrows.sb) hadd'' (slotOf_lt hbn) hnull fun x hx => ?_
    rw [hbits x (by rwa [hgrows.sb]), hmark x hx]

/-- `bmap` gives the address of a block of the file, and what the files hold does not change. -/
theorem bmap_spec (h : Volume s ip lo) (hbn : bn < MAXFILE) :
    wp (bmap ip bn) s fun a s' => Mapped ip lo bn s a s' := by
  have hpos := h.pos
  unfold bmap
  refine .ite (fun hdir => ?_) fun hge => ?_
  · have hslot := slotOf_direct hdir
    have hptr : ptr (s.addrs ip) s.disk (s.inode ip).inum (slotOf bn) = (s.inode ip).addrs bn := by
      rw [hslot, ptr_of_le hdir.le, State.addrs_self]
    refine (bmapAddr_spec h hdir.le).mono ?_
    rintro a t (⟨hne, rfl, rfl⟩ | ⟨hnull, rfl, rfl, hfull⟩ |
      ⟨hnull, hlo, -, hvol, hgrows, -, -, hadd, hext, htight⟩)
    · exact .of_same h hptr fun h0 => absurd h0 hne
    · exact .of_same h (hptr.trans hnull) fun _ => hfull
    · rw [← hslot] at hadd
      exact .of_added hbn hvol hgrows hadd hext (by omega) (hptr.trans hnull) htight
  · rw [if_pos (by unfold MAXFILE at hbn; omega)]
    refine (bmapAddr_spec h le_rfl).bind ?_
    rintro a t (⟨hne, rfl, rfl⟩ | ⟨hnull, rfl, rfl, hfull⟩ |
      ⟨hnull, hlo, -, hvol, hgrows, haddr, hzero, hadd, hext, htight⟩)
    · rw [if_neg hne]
      exact bmapEntry_spec h hne hbn hge
    · rw [if_pos rfl, wp_pure]
      refine .of_same h ?_ fun _ => hfull
      rw [ptr, slotOf_indirect hge, if_neg (by omega), if_pos (by rw [State.addrs_self, hnull])]
    · -- The indirect block is new.
      rw [if_neg (by omega), ← haddr]
      refine (bmapEntry_spec hvol (by rw [haddr]; omega) hbn hge).mono ?_
      intro x u hmap
      have hsame : ∀ i bn', bn' < MAXFILE → ptr (t.addrs ip) t.disk i (slotOf bn') =
          ptr (s.addrs ip) s.disk i (slotOf bn') := by
        intro i bn' hbn'
        rw [hadd i _ (slotOf_lt hbn'), if_neg fun h => slotOf_ne bn' h.2]
      constructor
      · exact hmap.vol
      · exact hgrows.trans hmap.grows
      · exact hext.trans hmap.ext
      · intro i bn' hbn' hne
        rw [← hgrows.inum] at hne
        rw [hmap.other i bn' hbn' hne, hsame i bn' hbn']
      · rw [← hgrows.inum]
        exact hmap.addr
      · exact hmap.full
      · intro hne
        refine absurd ?_ hne
        rw [ptr, slotOf_indirect hge, if_neg (by omega), if_pos (by rw [State.addrs_self, hnull])]
      · exact fun h => hmap.tight (htight h)

end Bmap

end Xv6.Fs
