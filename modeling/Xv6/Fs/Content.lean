import Xv6.Fs.Volume

/-!
# The contents of files

`readi` and `writei` of `kernel/fs.c`, from and to kernel memory. In a consistent state the files are
byte arrays: `readi` returns a part of one, and `writei` replaces a part of one and makes it longer, and
leaves the others alone (`readi_writei_bytes`).
-/

namespace Xv6.Fs

open Function Lib

section Loops

variable {s s' s'' : State} {ip : Ino} {lo off n fuel : ℕ} {src : ℕ → UInt8}

theorem Geometry.bmapstart_lt {sb : Superblock} (h : Geometry sb lo) (hpos : 0 < lo) :
    sb.bmapstart < lo := by
  have := h.bitmap 0 (hpos.trans_le h.lo_le)
  rwa [Superblock.bblock, Nat.zero_div, Nat.zero_add] at this

theorem Volume.write (h : Volume s ip lo) {a : ℕ} {x : Block} {k : ℕ} (hk : k < NSLOT) (hne : k ≠ NDIRECT)
    (ha : ptr (s.addrs ip) s.disk (s.inode ip).inum k = a) (ha0 : a ≠ 0) (hsb : s'.sb = s.sb)
    (hinode : s'.inode = s.inode) (hdisk : s'.disk = update s.disk a x) :
    Volume s' ip lo ∧ Grows ip s s' ∧ s'.addrs ip = s.addrs ip ∧
      (∀ i k, ptr (s'.addrs ip) s'.disk i k = ptr (s.addrs ip) s.disk i k) ∧
      (Tight s ip lo → Tight s' ip lo) := by
  have hlo := h.geom.bmapstart_lt h.pos
  have hrange := h.owns.range _ k hk (by rwa [ha])
  rw [ha] at hrange
  have hgrows : Grows ip s s' := by
    constructor
    · exact hsb
    · rw [hinode, update_eq_self]
    · intro b hb
      rw [hdisk]
      exact update_of_ne (by omega) _ _
  have haddrs : s'.addrs ip = s.addrs ip := by
    rw [hgrows.addrs h.geom, hinode, ← State.addrs_self, update_eq_self]
  have hptr : ∀ i k, ptr (s'.addrs ip) s'.disk i k = ptr (s.addrs ip) s.disk i k := by
    intro i k'
    rw [haddrs, hdisk, ← ha]
    exact h.owns.ptr_write hk hne (by rwa [ha]) i k'
  have hbits : ∀ b, b < s.sb.size → marked s'.sb s'.disk b = marked s.sb s.disk b := by
    intro b hb
    have := h.geom.bitmap b hb
    unfold marked
    rw [hsb, hdisk, update_of_ne (by omega)]
  have htight : Tight s ip lo → Tight s' ip lo := by
    intro ht b hb hlt hm
    rw [hsb] at hlt
    rw [hbits b hlt] at hm
    simp only [hptr]
    exact ht b hb hlt hm
  refine ⟨?_, hgrows, haddrs, hptr, htight⟩
  constructor
  · rw [hsb]
    exact h.geom
  · exact h.pos
  · rw [hsb]
    exact h.owns.of_ptr_eq fun i k _ => hptr i k
  · intro b hb
    rw [hbits b (hb.trans_le h.geom.lo_le)]
    exact h.low b hb
  · intro i k' hk' hne'
    rw [hptr] at hne' ⊢
    rw [hbits _ (h.owns.range i k' hk' hne').2]
    exact h.stored i k' hk' hne'

/-- The loop of `readi` returns the bytes of the file, if it has the blocks. -/
theorem readLoop_spec (h : Volume s ip lo) (hfuel : n ≤ fuel) (hmax : off + n ≤ MAXFILE * BSIZE)
    (hblocks : ∀ bn, bn < MAXFILE → bn * BSIZE < off + n →
      ptr (s.addrs ip) s.disk (s.inode ip).inum (slotOf bn) ≠ 0) :
    wp (readLoop ip fuel off n) s fun r s' => s' = s ∧
      r = (List.range n).map fun k => byteAt (s.addrs ip) s.disk (s.inode ip).inum (off + k) := by
  induction fuel generalizing off n with
  | zero =>
    obtain rfl : n = 0 := by omega
    exact (wp_pure _).mpr ⟨rfl, rfl⟩
  | succ fuel ih =>
    have hBpos : 0 < BSIZE := by decide
    have hmod : off % BSIZE < BSIZE := Nat.mod_lt _ hBpos
    have hdiv := Nat.div_add_mod off BSIZE
    rw [readLoop]
    by_cases hn : n = 0
    · subst hn
      rw [if_pos rfl, wp_pure]
      exact ⟨rfl, rfl⟩
    rw [if_neg hn]
    have hbn : off / BSIZE < MAXFILE := by
      rw [Nat.div_lt_iff_lt_mul hBpos]
      omega
    have hptr := hblocks _ hbn (by rw [Nat.mul_comm]; omega)
    refine (bmap_spec h hbn).bind ?_
    intro a t hmap
    obtain rfl := hmap.same hptr
    have haddr := hmap.addr
    rw [if_neg (by rw [← haddr]; exact hptr)]
    unfold bread
    simp only [wp_bind, wp_get, wp_pure]
    generalize hm : min n (BSIZE - off % BSIZE) = m
    refine (@ih (off + m) (n - m) (by omega) (by omega) fun bn hbn' hlt =>
      hblocks bn hbn' (by omega)).mono ?_
    rintro r u ⟨rfl, rfl⟩
    refine ⟨rfl, ?_⟩
    obtain ⟨l, rfl⟩ := Nat.exists_eq_add_of_le (show m ≤ n by omega)
    rw [List.range_add, List.map_append, List.map_map, Nat.add_sub_cancel_left]
    refine congrArg₂ _ (List.map_congr_left ?_) (List.map_congr_left ?_)
    · intro k hk
      have hk' := List.mem_range.mp hk
      -- The bytes up to the end of the block are in the block that was read.
      have hq : (off + k) / BSIZE = off / BSIZE := by
        refine Nat.div_eq_of_lt_le ?_ ?_
        · rw [Nat.mul_comm]
          omega
        · rw [Nat.add_mul, Nat.one_mul, Nat.mul_comm]
          omega
      have hr : (off + k) % BSIZE = off % BSIZE + k := by
        have := Nat.div_add_mod (off + k) BSIZE
        rw [hq] at this
        omega
      rw [byteAt, hq, hr, blockData, if_neg hptr, haddr]
    · intro k _
      rw [comp_apply, Nat.add_assoc]

/-- The loop of `writei` has written `tot` bytes to the file `ip`, at offset `off`. -/
structure Wrote (ip : Ino) (lo : ℕ) (src : ℕ → UInt8) (off n : ℕ) (s : State) (tot : ℕ) (s' : State) :
    Prop where
  le : tot ≤ n
  full : tot < n → Full s'
  vol : Volume s' ip lo
  grows : Grows ip s s'
  bytes : ∀ i q, q < MAXFILE * BSIZE → byteAt (s'.addrs ip) s'.disk i q =
    if i = (s.inode ip).inum ∧ off ≤ q ∧ q < off + tot then src (q - off)
    else byteAt (s.addrs ip) s.disk i q
  keep : ∀ i bn, bn < MAXFILE → ptr (s.addrs ip) s.disk i (slotOf bn) ≠ 0 →
    ptr (s'.addrs ip) s'.disk i (slotOf bn) ≠ 0
  blocks : 0 < tot → ∀ bn, bn < MAXFILE → off < bn * BSIZE + BSIZE → bn * BSIZE < off + tot →
    ptr (s'.addrs ip) s'.disk (s.inode ip).inum (slotOf bn) ≠ 0
  stop : tot < n → ptr (s'.addrs ip) s'.disk (s.inode ip).inum (slotOf ((off + tot) / BSIZE)) = 0
  tight : Tight s ip lo → Tight s' ip lo

theorem Wrote.zero (hvol : Volume s' ip lo) (hgrows : Grows ip s s')
    (hext : Extends (s.addrs ip) s.disk (s'.addrs ip) s'.disk) (hfull : 0 < n → Full s')
    (hstop : 0 < n → ptr (s'.addrs ip) s'.disk (s.inode ip).inum (slotOf (off / BSIZE)) = 0)
    (htight : Tight s ip lo → Tight s' ip lo) :
    Wrote ip lo src off n s 0 s' where
  le := Nat.zero_le n
  full := hfull
  vol := hvol
  grows := hgrows
  bytes i q hq := by
    rw [if_neg (by omega), byteAt, byteAt,
      hext.data i _ (Nat.div_lt_of_lt_mul (by rwa [Nat.mul_comm]))]
  keep i bn hbn hne := by rwa [hext.keep i _ (slotOf_lt hbn) hne]
  blocks h0 := absurd h0 (lt_irrefl 0)
  stop := hstop
  tight := htight

theorem Wrote.none (h : Volume s ip lo) : Wrote ip lo src off 0 s 0 s :=
  .zero h (.refl ip s) (.refl _ _) (fun h0 => absurd h0 (lt_irrefl 0)) (fun h0 => absurd h0 (lt_irrefl 0))
    fun h => h

/-- Bytes written at `off` and then more of them after these are bytes written at `off`. -/
theorem ite_written {α : Type} {P : Prop} [Decidable P] {off m rest q : ℕ} {x y z : α}
    (hxy : off + m ≤ q → x = y) :
    (if P ∧ off + m ≤ q ∧ q < off + m + rest then x
      else if P ∧ off ≤ q ∧ q < off + m then y else z) =
      if P ∧ off ≤ q ∧ q < off + (m + rest) then y else z := by
  grind

/-- The loop of `writei` writes up to the end, or until the disk is full. -/
theorem writeLoop_spec (h : Volume s ip lo) (hfuel : n ≤ fuel) (hmax : off + n ≤ MAXFILE * BSIZE) :
    wp (writeLoop ip fuel src off n) s fun tot s' => Wrote ip lo src off n s tot s' := by
  induction fuel generalizing s src off n with
  | zero =>
    obtain rfl : n = 0 := by omega
    exact (wp_pure _).mpr (.none h)
  | succ fuel ih =>
    have hBpos : 0 < BSIZE := by decide
    have hmod : off % BSIZE < BSIZE := Nat.mod_lt _ hBpos
    have hdiv := Nat.div_add_mod off BSIZE
    rw [writeLoop]
    by_cases hn : n = 0
    · subst hn
      rw [if_pos rfl, wp_pure]
      exact .none h
    rw [if_neg hn]
    have hbn : off / BSIZE < MAXFILE := by
      rw [Nat.div_lt_iff_lt_mul hBpos]
      omega
    refine (bmap_spec h hbn).bind ?_
    intro a t hmap
    by_cases ha : a = 0
    · -- All blocks are in use.
      rw [if_pos ha, wp_pure]
      exact .zero hmap.vol hmap.grows hmap.ext (fun _ => hmap.full ha) (fun _ => hmap.addr.trans ha) hmap.tight
    rw [if_neg ha]
    generalize hm : min n (BSIZE - off % BSIZE) = m
    have haddr := hmap.addr
    rw [← hmap.grows.inum] at haddr
    unfold bread logWrite
    simp only [wp_bind, wp_get, wp_pure, wp_modify]
    generalize hu : (⟨t.sb, update t.disk a ((t.disk a).splice (off % BSIZE) m src), t.inode⟩ :
      State) = u
    have hud : u.disk = update t.disk a ((t.disk a).splice (off % BSIZE) m src) := by rw [← hu]
    obtain ⟨hvol, hgrows, hA, hptr, htight⟩ := hmap.vol.write (slotOf_lt hbn) (slotOf_ne _) haddr ha
      (by rw [← hu]) (by rw [← hu]) hud
    have hinum : (u.inode ip).inum = (s.inode ip).inum := hgrows.inum.trans hmap.grows.inum
    refine (ih hvol (by omega) (by omega)).mono ?_
    intro rest v hw
    have hbytes : ∀ i q, q < MAXFILE * BSIZE → byteAt (u.addrs ip) u.disk i q =
        if i = (s.inode ip).inum ∧ off ≤ q ∧ q < off + m then src (q - off)
        else byteAt (s.addrs ip) s.disk i q := by
      intro i q hq
      have hwrite := hmap.vol.owns.byteAt_write i (p := src) hbn
        (by rw [haddr]; exact ha) (show m ≤ BSIZE - off % BSIZE by omega) hq
      rw [haddr, ← hud, ← hA, hmap.grows.inum] at hwrite
      rw [hwrite]
      refine if_congr Iff.rfl rfl ?_
      rw [hA, byteAt, byteAt, hmap.ext.data i _ (Nat.div_lt_of_lt_mul (by rwa [Nat.mul_comm]))]
    constructor
    · have := hw.le
      omega
    · intro hlt
      exact hw.full (by omega)
    · exact hw.vol
    · exact (hmap.grows.trans hgrows).trans hw.grows
    · intro i q hq
      rw [hw.bytes i q hq, hbytes i q hq, hinum]
      exact ite_written fun _ => congrArg src (by omega)
    · intro i bn hbn' hne
      apply hw.keep i bn hbn'
      rw [hptr, hmap.ext.keep i _ (slotOf_lt hbn') hne]
      exact hne
    · intro _ bn hbn' h1 h2
      by_cases hfirst : bn = off / BSIZE
      · have : ptr (u.addrs ip) u.disk (s.inode ip).inum (slotOf bn) ≠ 0 := by
          rw [hptr, hfirst, hmap.addr]
          exact ha
        exact hw.keep _ bn hbn' this
      · have hgt : off / BSIZE < bn := by
          by_contra hle
          have hlt : bn < off / BSIZE := by omega
          have := Nat.mul_le_mul_right BSIZE (Nat.succ_le_of_lt hlt)
          rw [Nat.succ_eq_add_one, Nat.add_mul, Nat.one_mul, Nat.mul_comm (off / BSIZE)] at this
          omega
        have hle := Nat.mul_le_mul_right BSIZE (Nat.succ_le_of_lt hgt)
        rw [Nat.succ_eq_add_one, Nat.add_mul, Nat.one_mul, Nat.mul_comm (off / BSIZE)] at hle
        rw [← hinum]
        exact hw.blocks (by omega) bn hbn' (by omega) (by omega)
    · intro hlt
      have := hw.stop (by omega)
      rwa [hinum, Nat.add_assoc] at this
    · exact fun h => hw.tight (htight (hmap.tight h))

end Loops

/-! ## Consistent states -/

/-- Inode `i` is allocated. -/
def Live (s : State) (i : ℕ) : Prop := i < s.sb.ninodes ∧ dinodeType s.sb s.disk i ≠ 0

instance (s : State) (i : ℕ) : Decidable (Live s i) := inferInstanceAs (Decidable (_ ∧ _))

/-- The addresses of the allocated inodes on disk. -/
def State.diskAddrs (s : State) : Addrs := fun i =>
  if Live s i then dinodeAddrs s.sb s.disk i else fun _ => 0

/-- The size of file `i`. -/
def State.fsize (s : State) (i : ℕ) : ℕ := dinodeSize s.sb s.disk i

/-- The byte of file `i` at offset `p`. -/
def State.content (s : State) (i p : ℕ) : UInt8 := byteAt s.diskAddrs s.disk i p

/-- A consistent file system with its data area from `lo` on: block numbers are stored once and in the
data area, metadata and stored blocks are marked in the bitmap, and every file has the blocks that its
size needs. -/
structure Consistent (s : State) (lo : ℕ) : Prop where
  geom : Geometry s.sb lo
  pos : 0 < lo
  owns : Owns s.diskAddrs s.disk lo s.sb.size
  low : ∀ b, b < lo → marked s.sb s.disk b = true
  stored : ∀ i k, k < NSLOT → ptr s.diskAddrs s.disk i k ≠ 0 →
    marked s.sb s.disk (ptr s.diskAddrs s.disk i k) = true
  size : ∀ i, Live s i → s.fsize i ≤ MAXFILE * BSIZE
  blocks : ∀ i, Live s i → ∀ bn, bn * BSIZE < s.fsize i → ptr s.diskAddrs s.disk i (slotOf bn) ≠ 0

/-- Every block of the data area that is marked is stored somewhere. -/
def Exact (s : State) (lo : ℕ) : Prop :=
  ∀ b, lo ≤ b → b < s.sb.size → marked s.sb s.disk b = true →
    ∃ i k, k < NSLOT ∧ ptr s.diskAddrs s.disk i k = b

/-- The entry `ip` of the inode table holds an allocated inode as it is on disk. -/
structure Loaded (s : State) (ip : Ino) : Prop where
  live : Live s (s.inode ip).inum
  type : (s.inode ip).type = dinodeType s.sb s.disk (s.inode ip).inum
  nlink : (s.inode ip).nlink = dinodeNlink s.sb s.disk (s.inode ip).inum
  size : (s.inode ip).size = s.fsize (s.inode ip).inum
  addrs : ∀ k, k ≤ NDIRECT → (s.inode ip).addrs k = dinodeAddrs s.sb s.disk (s.inode ip).inum k

section Consistency

variable {s s' : State} {ip : Ino} {lo off n i k : ℕ} {src : ℕ → UInt8}

theorem Loaded.addrs_eq (h : Loaded s ip) (i : ℕ) (hk : k ≤ NDIRECT) :
    s.addrs ip i k = s.diskAddrs i k := by
  unfold State.addrs State.diskAddrs
  by_cases hi : i = (s.inode ip).inum
  · rw [if_pos hi, hi, if_pos h.live]
    exact h.addrs k hk
  · rw [if_neg hi]
    rfl

theorem Loaded.ptr_eq (h : Loaded s ip) (i k : ℕ) :
    ptr (s.addrs ip) s.disk i k = ptr s.diskAddrs s.disk i k :=
  ptr_congr (fun _ hk => h.addrs_eq i hk) (fun _ => rfl) k

theorem Loaded.byteAt_eq (h : Loaded s ip) (i p : ℕ) :
    byteAt (s.addrs ip) s.disk i p = s.content i p := by
  unfold State.content byteAt blockData
  rw [h.ptr_eq]

theorem Consistent.volume (h : Consistent s lo) (hl : Loaded s ip) : Volume s ip lo where
  geom := h.geom
  pos := h.pos
  owns := h.owns.of_ptr_eq fun i k _ => hl.ptr_eq i k
  low := h.low
  stored i k hk hne := by
    rw [hl.ptr_eq] at hne ⊢
    exact h.stored i k hk hne

theorem Loaded.tight (h : Loaded s ip) (he : Exact s lo) : Tight s ip lo := by
  intro b hb hlt hm
  simp only [h.ptr_eq]
  exact he b hb hlt hm

theorem Consistent.loaded_blocks (h : Consistent s lo) (hl : Loaded s ip) {bn : ℕ}
    (hbn : bn * BSIZE < (s.inode ip).size) :
    ptr (s.addrs ip) s.disk (s.inode ip).inum (slotOf bn) ≠ 0 := by
  rw [hl.ptr_eq]
  exact h.blocks _ hl.live bn (hl.size ▸ hbn)

theorem Consistent.loaded_size (h : Consistent s lo) (hl : Loaded s ip) :
    (s.inode ip).size ≤ MAXFILE * BSIZE := by
  rw [hl.size]
  exact h.size _ hl.live

theorem maxfile_lt : MAXFILE * BSIZE < 2 ^ 32 := by decide

/-- `readi` returns the bytes below the size, and changes nothing if no block is missing. -/
theorem Volume.readi_spec (h : Volume s ip lo) (hsize : (s.inode ip).size ≤ MAXFILE * BSIZE)
    (hblocks : ∀ bn, bn * BSIZE < min (off + n) (s.inode ip).size →
      ptr (s.addrs ip) s.disk (s.inode ip).inum (slotOf bn) ≠ 0) (hoff : off < 2 ^ 32) (hn : n < 2 ^ 32) :
    wp (readi ip off n) s fun r s' => s' = s ∧
      r = if (s.inode ip).size < off ∨ 2 ^ 32 ≤ off + n then []
        else (List.range (min n ((s.inode ip).size - off))).map fun k =>
          byteAt (s.addrs ip) s.disk (s.inode ip).inum (off + k) := by
  have hmax := maxfile_lt
  unfold readi
  rw [wp_bind, wp_get]
  by_cases hbad : (s.inode ip).size < off ∨ 2 ^ 32 ≤ off + n
  · rw [if_pos (by omega), wp_pure, if_pos hbad]
    exact ⟨rfl, rfl⟩
  rw [if_neg (by omega), if_neg hbad]
  have hlen : (if (off + n) % 2 ^ 32 > (s.inode ip).size then (s.inode ip).size - off else n) =
      min n ((s.inode ip).size - off) := by
    rw [Nat.mod_eq_of_lt (by omega)]
    split_ifs <;> omega
  simp only [hlen]
  exact readLoop_spec h le_rfl (by omega) fun bn _ hbn => hblocks bn (by omega)

/-- `readi` returns a part of the file, and changes nothing. -/
theorem readi_spec (h : Consistent s lo) (hl : Loaded s ip) (hoff : off < 2 ^ 32) (hn : n < 2 ^ 32) :
    wp (readi ip off n) s fun r s' => s' = s ∧
      r = if s.fsize (s.inode ip).inum < off ∨ 2 ^ 32 ≤ off + n then []
        else (List.range (min n (s.fsize (s.inode ip).inum - off))).map fun k =>
          s.content (s.inode ip).inum (off + k) := by
  refine ((h.volume hl).readi_spec (h.loaded_size hl)
    (fun bn hbn => h.loaded_blocks hl (by omega)) hoff hn).mono ?_
  rintro r t ⟨rfl, rfl⟩
  simp only [hl.size, hl.byteAt_eq, and_self]

/-- `writei` has written `tot` bytes to the file `ip` at offset `off`. -/
structure Written (ip : Ino) (src : ℕ → UInt8) (off tot : ℕ) (s s' : State) : Prop where
  sb : s'.sb = s.sb
  inode : s'.inode = update s.inode ip
    { s.inode ip with size := (s'.inode ip).size, addrs := (s'.inode ip).addrs }
  size : s'.fsize (s.inode ip).inum = max (s.fsize (s.inode ip).inum) (off + tot)
  bytes : ∀ p, p < MAXFILE * BSIZE → s'.content (s.inode ip).inum p =
    if off ≤ p ∧ p < off + tot then src (p - off) else s.content (s.inode ip).inum p
  type : ∀ i, i < s.sb.ninodes → dinodeType s.sb s'.disk i = dinodeType s.sb s.disk i
  nlink : ∀ i, i < s.sb.ninodes → dinodeNlink s.sb s'.disk i = dinodeNlink s.sb s.disk i
  others : ∀ i, i < s.sb.ninodes → i ≠ (s.inode ip).inum → s'.fsize i = s.fsize i ∧
    (∀ k, k ≤ NDIRECT → dinodeAddrs s.sb s'.disk i k = dinodeAddrs s.sb s.disk i k) ∧
    ∀ p, p < MAXFILE * BSIZE → s'.content i p = s.content i p

/-- `ip` is written back with the addresses that it has and size `sz`. -/
def State.writeBack (t : State) (ip : Ino) (sz : ℕ) : State :=
  let i := { t.inode ip with size := sz }
  { t with disk := setDinode t.sb t.disk i.inum i, inode := update t.inode ip i }

/-- The state after the inode `ip`, which was given blocks, has been written back. -/
structure Stored (ip : Ino) (sz : ℕ) (s t v : State) : Prop where
  size : v.fsize (s.inode ip).inum = sz
  content : ∀ i p, p < MAXFILE * BSIZE → v.content i p = byteAt (t.addrs ip) t.disk i p
  type : ∀ i, i < s.sb.ninodes → dinodeType s.sb v.disk i = dinodeType s.sb s.disk i
  nlink : ∀ i, i < s.sb.ninodes → dinodeNlink s.sb v.disk i = dinodeNlink s.sb s.disk i
  others : ∀ i, i < s.sb.ninodes → i ≠ (s.inode ip).inum → v.fsize i = s.fsize i ∧
    ∀ k, k ≤ NDIRECT → dinodeAddrs s.sb v.disk i k = dinodeAddrs s.sb s.disk i k
  marked : ∀ b, b < s.sb.size → Fs.marked v.sb v.disk b = Fs.marked t.sb t.disk b

section WriteBack

variable {t : State} {z : ℕ}

theorem State.writeBack_sb : (t.writeBack ip z).sb = t.sb := rfl

theorem State.writeBack_disk : (t.writeBack ip z).disk =
    setDinode t.sb t.disk (t.inode ip).inum { t.inode ip with size := z } := rfl

theorem State.writeBack_inode : (t.writeBack ip z).inode ip = { t.inode ip with size := z } :=
  update_self ..

/-- The inode blocks are those before the file was given blocks. -/
theorem Volume.field (hvol : Volume t ip lo) (hgrows : Grows ip s t) {i : ℕ} (hi : i < t.sb.ninodes)
    (o w : ℕ) : dinodeField t.sb t.disk i o w = dinodeField s.sb s.disk i o w := by
  have hib := hvol.geom.inodes i hi
  rw [hgrows.sb] at hib ⊢
  exact dinodeField_congr (hgrows.inodes _ hib)

theorem Volume.writeBack_type (hvol : Volume t ip lo) (hl : Loaded s ip) (hgrows : Grows ip s t) {i : ℕ}
    (hi : i < t.sb.ninodes) :
    dinodeType t.sb (t.writeBack ip z).disk i = dinodeType s.sb s.disk i := by
  rw [State.writeBack_disk, dinodeType_setDinode]
  split_ifs with heq
  · rw [heq, hgrows.inum, ← hl.type, hgrows.inode_self]
    apply Nat.mod_eq_of_lt
    change (s.inode ip).type < _
    rw [hl.type]
    exact Bytes.le_lt _ _ _
  · exact hvol.field hgrows hi _ _

theorem Volume.writeBack_nlink (hvol : Volume t ip lo) (hl : Loaded s ip) (hgrows : Grows ip s t) {i : ℕ}
    (hi : i < t.sb.ninodes) :
    dinodeNlink t.sb (t.writeBack ip z).disk i = dinodeNlink s.sb s.disk i := by
  rw [State.writeBack_disk, dinodeNlink_setDinode]
  split_ifs with heq
  · rw [heq, hgrows.inum, ← hl.nlink, hgrows.inode_self]
    apply Nat.mod_eq_of_lt
    change (s.inode ip).nlink < _
    rw [hl.nlink]
    exact Bytes.le_lt _ _ _
  · exact hvol.field hgrows hi _ _

theorem Volume.writeBack_fsize (hvol : Volume t ip lo) (hgrows : Grows ip s t)
    (hsz : z ≤ MAXFILE * BSIZE) {i : ℕ} (hi : i < t.sb.ninodes) : (t.writeBack ip z).fsize i =
      if i = (s.inode ip).inum then z else s.fsize i := by
  have hmax := maxfile_lt
  rw [State.fsize, State.writeBack_sb, State.writeBack_disk, dinodeSize_setDinode, hgrows.inum]
  refine if_congr Iff.rfl ?_ (hvol.field hgrows hi _ _)
  exact Nat.mod_eq_of_lt (show z < 2 ^ 32 by omega)

theorem Volume.writeBack_live (hvol : Volume t ip lo) (hl : Loaded s ip) (hgrows : Grows ip s t) (i : ℕ) :
    Live (t.writeBack ip z) i ↔ Live s i := by
  unfold Live
  rw [State.writeBack_sb]
  constructor
  · rintro ⟨hi, htype⟩
    exact ⟨hgrows.sb ▸ hi, by rwa [hvol.writeBack_type hl hgrows hi] at htype⟩
  · rintro ⟨hi, htype⟩
    have hi' : i < t.sb.ninodes := by rwa [hgrows.sb]
    exact ⟨hi', by rwa [hvol.writeBack_type hl hgrows hi']⟩

/-- The addresses on disk are those that were in memory. -/
theorem Volume.writeBack_diskAddrs (hvol : Volume t ip lo) (hl : Loaded s ip) (hgrows : Grows ip s t)
    (i : ℕ) {k : ℕ} (hk : k ≤ NDIRECT) : (t.writeBack ip z).diskAddrs i k = t.addrs ip i k := by
  have hlive := hvol.writeBack_live (z := z) hl hgrows
  unfold State.diskAddrs State.addrs
  by_cases hi : i = (t.inode ip).inum
  · rw [if_pos hi, if_pos ((hlive i).mpr (by rw [hi, hgrows.inum]; exact hl.live)), State.writeBack_sb,
      State.writeBack_disk, dinodeAddrs_setDinode hk, if_pos hi]
    apply Nat.mod_eq_of_lt
    change (t.inode ip).addrs k < 2 ^ 32
    by_cases h0 : (t.inode ip).addrs k = 0
    · omega
    · have hrange := hvol.owns.range (t.inode ip).inum k (hk.trans_lt ndirect_lt)
        (by rwa [ptr_of_le hk, State.addrs_self])
      rw [ptr_of_le hk, State.addrs_self] at hrange
      exact hrange.2.trans hvol.geom.size_lt
  · rw [if_neg hi]
    have hiff : Live (t.writeBack ip z) i ↔ i < t.sb.ninodes ∧ dinodeType t.sb t.disk i ≠ 0 := by
      rw [hlive, Live, ← hgrows.sb]
      refine and_congr_right fun hlt => not_congr ?_
      rw [dinodeType, dinodeType, hvol.field hgrows hlt, hgrows.sb]
    by_cases hli : i < t.sb.ninodes ∧ dinodeType t.sb t.disk i ≠ 0
    · rw [if_pos hli, if_pos (hiff.mpr hli), State.writeBack_sb, State.writeBack_disk,
        dinodeAddrs_setDinode hk, if_neg hi]
    · rw [if_neg hli, if_neg (mt hiff.mp hli)]

theorem Volume.writeBack_data (hvol : Volume t ip lo) (hl : Loaded s ip) (hgrows : Grows ip s t) {b : ℕ}
    (hb : t.sb.bmapstart ≤ b) : (t.writeBack ip z).disk b = t.disk b := by
  have hlt : (t.inode ip).inum < t.sb.ninodes := by
    rw [hgrows.inum, hgrows.sb]
    exact hl.live.1
  have hib := hvol.geom.inodes _ hlt
  rw [State.writeBack_disk]
  exact update_of_ne (by omega) _ _

theorem Volume.writeBack_ptr (hvol : Volume t ip lo) (hl : Loaded s ip) (hgrows : Grows ip s t) (i k : ℕ) :
    ptr (t.writeBack ip z).diskAddrs (t.writeBack ip z).disk i k = ptr (t.addrs ip) t.disk i k := by
  have hlo := hvol.geom.bmapstart_lt hvol.pos
  refine ptr_congr (fun k hk => hvol.writeBack_diskAddrs hl hgrows i hk)
    (fun hne => hvol.writeBack_data hl hgrows ?_) k
  rw [← ptr_of_le (A := t.addrs ip) (d := t.disk) (i := i) le_rfl] at hne ⊢
  have := (hvol.owns.range i NDIRECT ndirect_lt hne).1
  omega

theorem Volume.writeBack_marked (hvol : Volume t ip lo) (hl : Loaded s ip) (hgrows : Grows ip s t) (b : ℕ) :
    marked t.sb (t.writeBack ip z).disk b = marked t.sb t.disk b := by
  unfold marked
  rw [hvol.writeBack_data hl hgrows (show t.sb.bmapstart ≤ t.sb.bblock b from Nat.le_add_left _ _)]

theorem Consistent.writeBack_consistent (h : Consistent s lo) (hl : Loaded s ip) (hvol : Volume t ip lo)
    (hgrows : Grows ip s t) (hsz : z ≤ MAXFILE * BSIZE)
    (hkeep : ∀ i bn, i ≠ (s.inode ip).inum → bn < MAXFILE →
      ptr (s.addrs ip) s.disk i (slotOf bn) ≠ 0 → ptr (t.addrs ip) t.disk i (slotOf bn) ≠ 0)
    (hblocks : ∀ bn, bn < MAXFILE → bn * BSIZE < z →
      ptr (t.addrs ip) t.disk (s.inode ip).inum (slotOf bn) ≠ 0) :
    Consistent (t.writeBack ip z) lo := by
  have hlive := hvol.writeBack_live (z := z) hl hgrows
  have hptr := hvol.writeBack_ptr (z := z) hl hgrows
  have hbits := hvol.writeBack_marked (z := z) hl hgrows
  constructor
  · exact hvol.geom
  · exact hvol.pos
  · exact hvol.owns.of_ptr_eq fun i k _ => hptr i k
  · intro b hb
    exact (hbits b).trans (hvol.low b hb)
  · intro i k hk hne
    rw [hptr] at hne ⊢
    exact (hbits _).trans (hvol.stored i k hk hne)
  · intro i hi
    rw [hvol.writeBack_fsize hgrows hsz hi.1]
    split_ifs
    · exact hsz
    · exact h.size i ((hlive i).mp hi)
  · intro i hi bn hbn
    have hi' := (hlive i).mp hi
    rw [hvol.writeBack_fsize hgrows hsz hi.1] at hbn
    rw [hptr]
    split_ifs at hbn with heq
    · rw [heq]
      exact hblocks bn (Nat.lt_of_mul_lt_mul_right (hbn.trans_le hsz)) hbn
    · refine hkeep i bn heq (Nat.lt_of_mul_lt_mul_right (hbn.trans_le (h.size i hi'))) ?_
      rw [hl.ptr_eq]
      exact h.blocks i hi' bn hbn

theorem Volume.writeBack_loaded (hvol : Volume t ip lo) (hl : Loaded s ip) (hgrows : Grows ip s t)
    (hsz : z ≤ MAXFILE * BSIZE) : Loaded (t.writeBack ip z) ip := by
  have hinum := hgrows.inum
  have hlive := hvol.writeBack_live (z := z) hl hgrows
  have hvinum : ((t.writeBack ip z).inode ip).inum = (s.inode ip).inum := by
    rw [State.writeBack_inode, hinum]
  have hlt : (s.inode ip).inum < t.sb.ninodes := by
    rw [hgrows.sb]
    exact hl.live.1
  constructor
  · rw [hvinum, hlive]
    exact hl.live
  · rw [hvinum, State.writeBack_inode, State.writeBack_sb, hvol.writeBack_type hl hgrows hlt, hgrows.inode_self]
    exact hl.type
  · rw [hvinum, State.writeBack_inode, State.writeBack_sb, hvol.writeBack_nlink hl hgrows hlt, hgrows.inode_self]
    exact hl.nlink
  · rw [hvinum, hvol.writeBack_fsize hgrows hsz hlt, if_pos rfl, State.writeBack_inode]
  · intro k hk
    have haddr := hvol.writeBack_diskAddrs (z := z) hl hgrows (s.inode ip).inum hk
    rw [State.diskAddrs, if_pos ((hlive _).mpr hl.live), ← hinum, State.addrs_self] at haddr
    rw [hvinum, State.writeBack_inode, ← hinum]
    exact haddr.symm

theorem Volume.writeBack_stored (hvol : Volume t ip lo) (hl : Loaded s ip) (hgrows : Grows ip s t)
    (hsz : z ≤ MAXFILE * BSIZE) : Stored ip z s t (t.writeBack ip z) := by
  have hlo := hvol.geom.bmapstart_lt hvol.pos
  have hi' : ∀ {i}, i < s.sb.ninodes → i < t.sb.ninodes := fun hi => by rwa [hgrows.sb]
  constructor
  · rw [hvol.writeBack_fsize hgrows hsz (hi' hl.live.1), if_pos rfl]
  · intro i p hp
    unfold State.content byteAt blockData
    rw [hvol.writeBack_ptr hl hgrows]
    split_ifs with h0
    · rfl
    · have hbn : p / BSIZE < MAXFILE := Nat.div_lt_of_lt_mul (by rwa [Nat.mul_comm])
      have := (hvol.owns.range i _ (slotOf_lt hbn) h0).1
      rw [hvol.writeBack_data hl hgrows (by omega)]
  · intro i hi
    rw [← hgrows.sb]
    exact (hvol.writeBack_type hl hgrows (hi' hi)).trans (by rw [hgrows.sb])
  · intro i hi
    rw [← hgrows.sb]
    exact (hvol.writeBack_nlink hl hgrows (hi' hi)).trans (by rw [hgrows.sb])
  · intro i hi hne
    refine ⟨by rw [hvol.writeBack_fsize hgrows hsz (hi' hi), if_neg hne], fun k hk => ?_⟩
    rw [State.writeBack_disk, ← hgrows.sb, dinodeAddrs_setDinode hk, if_neg (by rwa [hgrows.inum]),
      dinodeAddrs, hvol.field hgrows (hi' hi), hgrows.sb]
    rfl
  · exact fun b _ => hvol.writeBack_marked hl hgrows b

/-- A file that has been given blocks is written back: the disk is consistent again. -/
theorem Consistent.writeBack (h : Consistent s lo) (hl : Loaded s ip)
    (hvol : Volume t ip lo) (hgrows : Grows ip s t) (hsz : z ≤ MAXFILE * BSIZE)
    (hkeep : ∀ i bn, i ≠ (s.inode ip).inum → bn < MAXFILE →
      ptr (s.addrs ip) s.disk i (slotOf bn) ≠ 0 → ptr (t.addrs ip) t.disk i (slotOf bn) ≠ 0)
    (hblocks : ∀ bn, bn < MAXFILE → bn * BSIZE < z →
      ptr (t.addrs ip) t.disk (s.inode ip).inum (slotOf bn) ≠ 0) :
    Consistent (t.writeBack ip z) lo ∧ Loaded (t.writeBack ip z) ip ∧
      Stored ip z s t (t.writeBack ip z) ∧ (Tight t ip lo → Exact (t.writeBack ip z) lo) := by
  refine ⟨h.writeBack_consistent hl hvol hgrows hsz hkeep hblocks, hvol.writeBack_loaded hl hgrows hsz,
    hvol.writeBack_stored hl hgrows hsz, fun ht b hb hlt hm => ?_⟩
  simp only [hvol.writeBack_ptr hl hgrows]
  exact ht b hb hlt ((hvol.writeBack_marked hl hgrows b).symm.trans hm)

end WriteBack

theorem writei_end (t : State) (ip : Ino) (off tot : ℕ) {Q : ℤ → State → Prop}
    (hQ : Q tot (t.writeBack ip (max (t.inode ip).size (off + tot)))) :
    wp (do
      if off + tot > ((← get).inode ip).size then
        setInode ip fun i => { i with size := off + tot }
      iupdate ip
      return (tot : ℤ)) t Q := by
  unfold iupdate bread logWrite setInode
  rw [wp_bind, wp_get]
  by_cases hgt : off + tot > (t.inode ip).size
  · rw [max_eq_right hgt.le] at hQ
    rw [if_pos hgt]
    simp only [wp_bind, wp_modify, wp_get, wp_pure, update_self]
    exact hQ
  · rw [max_eq_left (not_lt.mp hgt)] at hQ
    rw [if_neg hgt]
    simp only [wp_bind, wp_modify, wp_get, wp_pure]
    have hself : t.writeBack ip (t.inode ip).size =
        { t with disk := setDinode t.sb t.disk (t.inode ip).inum (t.inode ip) } := by
      unfold State.writeBack
      simp only
      rw [update_eq_self]
    rw [hself] at hQ
    exact hQ

/-- Why `writei` stopped after `tot` bytes: all blocks are in use, and the next block is beyond the end
of file `i`. -/
structure Short (i off tot : ℕ) (s s' : State) : Prop where
  full : Full s'
  beyond : s.fsize i ≤ (off + tot) / BSIZE * BSIZE
  aligned : 0 < tot → (off + tot) % BSIZE = 0

/-- `writei` writes a part of the file, unless the range is bad, and leaves the other files alone. -/
theorem writei_spec (h : Consistent s lo) (hl : Loaded s ip) (src : ℕ → UInt8) (hoff : off < 2 ^ 32)
    (hn : n < 2 ^ 32) :
    wp (writei ip src off n) s fun r s' => Consistent s' lo ∧ Loaded s' ip ∧ (Exact s lo → Exact s' lo) ∧
      if s.fsize (s.inode ip).inum < off ∨ 2 ^ 32 ≤ off + n ∨ MAXFILE * BSIZE < off + n then
        r = -1 ∧ s' = s
      else ∃ tot, r = (tot : ℕ) ∧ tot ≤ n ∧ (tot < n → Short (s.inode ip).inum off tot s s') ∧
        Written ip src off tot s s' := by
  have hsize := h.loaded_size hl
  have hmax := maxfile_lt
  unfold writei
  rw [wp_bind, wp_get, ← hl.size]
  by_cases hbad : (s.inode ip).size < off ∨ 2 ^ 32 ≤ off + n ∨ MAXFILE * BSIZE < off + n
  · simp only [if_pos hbad]
    by_cases hrange : (s.inode ip).size < off ∨ (off + n) % 2 ^ 32 < off
    · rw [if_pos hrange, wp_pure]
      exact ⟨h, hl, fun he => he, rfl, rfl⟩
    · rw [if_neg hrange, if_pos, wp_pure]
      · exact ⟨h, hl, fun he => he, rfl, rfl⟩
      · rw [Nat.mod_eq_of_lt (by omega)]
        omega
  simp only [if_neg hbad]
  rw [if_neg (by omega), if_neg (by rw [Nat.mod_eq_of_lt (by omega)]; omega)]
  have hvol := h.volume hl
  refine (writeLoop_spec hvol le_rfl (by omega)).bind ?_
  intro tot t hw
  apply writei_end
  have htot := hw.le
  rw [hw.grows.size]
  -- The file has the blocks that its new size needs.
  have hblocks : ∀ bn, bn < MAXFILE → bn * BSIZE < max (s.inode ip).size (off + tot) →
      ptr (t.addrs ip) t.disk (s.inode ip).inum (slotOf bn) ≠ 0 := by
    intro bn hbn hlt
    by_cases hold : bn * BSIZE < (s.inode ip).size
    · exact hw.keep _ bn hbn (h.loaded_blocks hl hold)
    · have hBpos : 0 < BSIZE := by decide
      exact hw.blocks (by omega) bn hbn (by omega) (by omega)
  obtain ⟨hc, hl', hst, hexact⟩ := h.writeBack hl hw.vol hw.grows
    (show max (s.inode ip).size (off + tot) ≤ MAXFILE * BSIZE by omega) (fun i bn _ => hw.keep i bn) hblocks
  refine ⟨hc, hl', fun he => hexact (hw.tight (hl.tight he)), tot, rfl, htot, ?_, ?_⟩
  · intro hlt
    have hBpos : 0 < BSIZE := by decide
    have hdiv := Nat.div_add_mod (off + tot) BSIZE
    have hbn : (off + tot) / BSIZE < MAXFILE := by
      rw [Nat.div_lt_iff_lt_mul hBpos]
      omega
    constructor
    · intro b hb
      have hsb : (t.writeBack ip (max (s.inode ip).size (off + tot))).sb = s.sb := hw.grows.sb
      rw [hsb] at hb
      rw [hst.marked b hb]
      exact hw.full hlt b (by rwa [hw.grows.sb])
    · by_contra hin
      rw [← hl.size] at hin
      exact hw.keep _ _ hbn (h.loaded_blocks hl (not_le.mp hin)) (hw.stop hlt)
    · intro hpos
      by_contra hmod
      -- A part of the block has been written, so that it is there.
      refine hw.blocks hpos _ hbn ?_ ?_ (hw.stop hlt)
      · have := Nat.mod_lt (off + tot) hBpos
        rw [Nat.mul_comm]
        omega
      · rw [Nat.mul_comm]
        omega
  · have hcontent : ∀ i p, p < MAXFILE * BSIZE →
        (t.writeBack ip (max (s.inode ip).size (off + tot))).content i p =
          if i = (s.inode ip).inum ∧ off ≤ p ∧ p < off + tot then src (p - off) else s.content i p := by
      intro i p hp
      rw [hst.content i p hp, hw.bytes i p hp, hl.byteAt_eq]
    constructor
    · exact hw.grows.sb
    · unfold State.writeBack
      simp only [update_self]
      rw [hw.grows.inode]
      simp only [update_self, update_idem]
    · rw [hst.size, hl.size]
    · intro p hp
      rw [hcontent _ p hp]
      simp
    · exact hst.type
    · exact hst.nlink
    · intro i hi hne
      refine ⟨(hst.others i hi hne).1, (hst.others i hi hne).2, fun p hp => ?_⟩
      rw [hcontent i p hp, if_neg fun hc => hne hc.1]

/-- **Byte arrays.** In every consistent state, for every loaded inode and all 32-bit `off` and `n`:
`writei` from kernel memory returns -1 and changes nothing if `off` is beyond the end, `off + n` wraps or
is beyond the largest file; otherwise it writes the first `tot` bytes of the source at `off`, fewer than
`n` only if all blocks are in use, and the file grows to `off + tot` if that is beyond its end. `readi`
to kernel memory returns the bytes from `off` up to `off + n` or the end. All other files stay as they
are, and the state stays consistent. -/
theorem readi_writei_bytes (h : Consistent s lo) (hl : Loaded s ip) (src : ℕ → UInt8)
    (hoff : off < 2 ^ 32) (hn : n < 2 ^ 32) :
    (wp (writei ip src off n) s fun r s' => Consistent s' lo ∧ Loaded s' ip ∧
      if s.fsize (s.inode ip).inum < off ∨ 2 ^ 32 ≤ off + n ∨ MAXFILE * BSIZE < off + n then
        r = -1 ∧ s' = s
      else ∃ tot, r = (tot : ℕ) ∧ tot ≤ n ∧ (tot < n → Full s') ∧ Written ip src off tot s s') ∧
    wp (readi ip off n) s fun r s' => s' = s ∧
      r = if s.fsize (s.inode ip).inum < off ∨ 2 ^ 32 ≤ off + n then []
        else (List.range (min n (s.fsize (s.inode ip).inum - off))).map fun k =>
          s.content (s.inode ip).inum (off + k) := by
  refine ⟨(writei_spec h hl src hoff hn).mono ?_, readi_spec h hl hoff hn⟩
  rintro r t ⟨hc, hl', -, hr⟩
  refine ⟨hc, hl', ?_⟩
  split_ifs at hr ⊢ with hbad
  · exact hr
  · obtain ⟨tot, rfl, hle, hshort, hw⟩ := hr
    exact ⟨tot, rfl, hle, fun hlt => (hshort hlt).full, hw⟩

end Consistency

/-! ## A disk with one file -/

/-- The inode of a file of one block, block 2. -/
def fileInode (type size : ℕ) : Inode where
  dev := ROOTDEV
  inum := 1
  ref := 1
  lock := true
  valid := true
  type := type
  major := 0
  minor := 0
  nlink := 1
  size := size
  addrs k := if k = 0 then 2 else 0

/-- A disk of four blocks: the inodes, the bitmap, the block of the file and a free block. -/
def oneFile (type size : ℕ) : State :=
  let sb : Superblock := { size := 4, ninodes := 2, inodestart := 0, bmapstart := 1 }
  let blank : Disk := update (fun _ => Bytes.fill BSIZE 0) 1 (Bytes.fill BSIZE 7)
  { sb
    disk := setDinode sb blank 1 (fileInode type size)
    inode := fun _ => fileInode type size }

section OneFile

variable {type size : ℕ}

theorem live_oneFile (ht : type % 2 ^ 16 ≠ 0) (i : ℕ) : Live (oneFile type size) i ↔ i = 1 := by
  unfold Live oneFile
  simp only [dinodeType_setDinode]
  constructor
  · rintro ⟨hlt, hne⟩
    by_contra hi
    obtain rfl : i = 0 := by omega
    rw [if_neg hi] at hne
    exact hne (Bytes.le_fill_zero _ _)
  · rintro rfl
    exact ⟨by decide, ht⟩

theorem diskAddrs_oneFile (ht : type % 2 ^ 16 ≠ 0) {k : ℕ} (hk : k ≤ NDIRECT) (i : ℕ) :
    (oneFile type size).diskAddrs i k = if i = 1 ∧ k = 0 then 2 else 0 := by
  unfold State.diskAddrs
  by_cases hi : i = 1
  · rw [if_pos ((live_oneFile ht i).mpr hi), hi]
    unfold oneFile
    rw [dinodeAddrs_setDinode hk, if_pos rfl]
    by_cases hk0 : k = 0
    · rw [if_pos ⟨rfl, hk0⟩, hk0]
      rfl
    · rw [if_neg fun hc => hk0 hc.2, show (fileInode type size).addrs k = 0 from if_neg hk0, Nat.zero_mod]
  · rw [if_neg fun hl => hi ((live_oneFile ht i).mp hl), if_neg fun hc => hi hc.1]

theorem ptr_oneFile (ht : type % 2 ^ 16 ≠ 0) (i k : ℕ) :
    ptr (oneFile type size).diskAddrs (oneFile type size).disk i k = if i = 1 ∧ k = 0 then 2 else 0 := by
  by_cases hk : k ≤ NDIRECT
  · rw [ptr_of_le hk, diskAddrs_oneFile ht hk]
  · -- There is no indirect block.
    have hind : (oneFile type size).diskAddrs i NDIRECT = 0 := by
      rw [diskAddrs_oneFile ht le_rfl, if_neg fun hc => absurd hc.2 (by decide)]
    rw [ptr, if_neg hk, if_pos hind, if_neg]
    rintro ⟨-, rfl⟩
    exact hk (Nat.zero_le _)

theorem marked_oneFile (b : ℕ) (hb : b < 3) :
    marked (oneFile type size).sb (oneFile type size).disk b = true := by
  have hblock : (oneFile type size).sb.bblock b = 1 := by
    unfold Superblock.bblock
    rw [Nat.div_eq_of_lt (hb.trans (by decide))]
    rfl
  have hbitmap : (oneFile type size).disk 1 = Bytes.fill BSIZE 7 := rfl
  have hmod : b % BPB = b := Nat.mod_eq_of_lt (hb.trans (by decide))
  unfold marked bit
  rw [hblock, hbitmap, hmod, Nat.div_eq_of_lt (by omega), Bytes.get_fill (by decide)]
  interval_cases b <;> decide

theorem fsize_oneFile (hs : size ≤ BSIZE) : (oneFile type size).fsize 1 = size := by
  unfold State.fsize oneFile
  rw [dinodeSize_setDinode, if_pos rfl]
  exact Nat.mod_eq_of_lt (hs.trans_lt (by decide))

theorem consistent_oneFile (ht : type % 2 ^ 16 ≠ 0) (hs : size ≤ BSIZE) : Consistent (oneFile type size) 2 := by
  have hptr : ∀ {i k : ℕ}, ptr (oneFile type size).diskAddrs (oneFile type size).disk i k ≠ 0 →
      i = 1 ∧ k = 0 := by
    intro i k hne
    by_contra hc
    rw [ptr_oneFile ht, if_neg hc] at hne
    exact hne rfl
  constructor
  · constructor
    · intro i hi
      change i / IPB + 0 < 1
      have hlt : i < IPB := lt_trans (show i < 2 from hi) (by decide)
      rw [Nat.div_eq_of_lt hlt]
      decide
    · intro b hb
      change b / BPB + 1 < 2
      have hlt : b < BPB := lt_trans (show b < 4 from hb) (by decide)
      rw [Nat.div_eq_of_lt hlt]
      decide
    · exact (by decide : 2 ≤ 4)
    · exact (by decide : 4 < 2 ^ 32)
  · decide
  · constructor
    · intro i k hk hne
      obtain ⟨rfl, rfl⟩ := hptr hne
      rw [ptr_oneFile ht]
      exact (by decide : 2 ≤ 2 ∧ 2 < 4)
    · intro i k i' k' hk hk' hne heq
      obtain ⟨rfl, rfl⟩ := hptr hne
      obtain ⟨rfl, rfl⟩ := hptr (heq ▸ hne)
      exact ⟨rfl, rfl⟩
  · exact fun b hb => marked_oneFile b (by omega)
  · intro i k hk hne
    obtain ⟨rfl, rfl⟩ := hptr hne
    rw [ptr_oneFile ht]
    exact marked_oneFile 2 (by decide)
  · intro i hi
    rw [(live_oneFile ht i).mp hi, fsize_oneFile hs]
    exact hs.trans (by decide)
  · intro i hi bn hbn
    rw [(live_oneFile ht i).mp hi, fsize_oneFile hs] at *
    obtain rfl : bn = 0 := by
      rw [show BSIZE = 1024 from rfl] at hbn hs
      omega
    rw [ptr_oneFile ht]
    decide

theorem loaded_oneFile (ht : type ≠ 0) (ht' : type < 2 ^ 16) (hs : size ≤ BSIZE) (ip : Ino) :
    Loaded (oneFile type size) ip := by
  have hmod : type % 2 ^ 16 = type := Nat.mod_eq_of_lt ht'
  have hlive : Live (oneFile type size) 1 := (live_oneFile (by rwa [hmod]) 1).mpr rfl
  constructor
  · exact hlive
  · unfold oneFile
    rw [dinodeType_setDinode]
    exact hmod.symm
  · unfold oneFile
    rw [dinodeNlink_setDinode]
    rfl
  · exact (fsize_oneFile hs).symm
  · intro k hk
    have : (oneFile type size).diskAddrs 1 k = _ :=
      diskAddrs_oneFile (show type % 2 ^ 16 ≠ 0 by rwa [hmod]) hk 1
    rw [State.diskAddrs, if_pos hlive] at this
    refine Eq.trans ?_ this.symm
    by_cases hk0 : k = 0
    · rw [if_pos ⟨rfl, hk0⟩]
      exact if_pos hk0
    · rw [if_neg fun hc => hk0 hc.2]
      exact if_neg hk0

theorem content_oneFile (ht : type % 2 ^ 16 ≠ 0) {p : ℕ} (hp : p < BSIZE) :
    (oneFile type size).content 1 p = 0 := by
  have hblock : (oneFile type size).disk 2 = Bytes.fill BSIZE 0 := rfl
  unfold State.content byteAt blockData
  rw [Nat.div_eq_of_lt hp, Nat.mod_eq_of_lt hp, ptr_oneFile ht]
  change ((oneFile type size).disk 2).get p = 0
  rw [hblock, Bytes.get_fill hp]

/-- Reading ten bytes of a file of eight bytes from offset 5 on returns the last three. -/
theorem readi_writei_bytes_oneFile : Consistent (oneFile T_FILE 8) 2 ∧ ∃ ip, Loaded (oneFile T_FILE 8) ip ∧
    wp (readi ip 5 10) (oneFile T_FILE 8) fun r s' => s' = oneFile T_FILE 8 ∧
      r = (List.range 3).map fun k => (oneFile T_FILE 8).content 1 (5 + k) := by
  have ip : Ino := ⟨0, by decide⟩
  have hc : Consistent (oneFile T_FILE 8) 2 := consistent_oneFile (by decide) (by decide)
  have hl : Loaded (oneFile T_FILE 8) ip := loaded_oneFile (by decide) (by decide) (by decide) ip
  refine ⟨hc, ip, hl, ?_⟩
  have h := (readi_writei_bytes hc hl (fun _ => 0) (show 5 < 2 ^ 32 by decide)
    (show 10 < 2 ^ 32 by decide)).2
  rw [show ((oneFile T_FILE 8).inode ip).inum = 1 from rfl, fsize_oneFile (by decide)] at h
  exact h

end OneFile

end Xv6.Fs
