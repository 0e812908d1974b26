import Xv6.Fs.Content
import Xv6.Vm.Image

/-!
# `writei` from user memory

With a source in user memory `writei` copies each piece straight into the cached block with `copyin`,
which stops at the first page that the user cannot read. The bytes copied before it are then in the
buffer, though they are not counted and not logged. `writei_short_iff` says exactly when a later `readi`
can see that.
-/

namespace Xv6.Fs

open Function Lib
open Vm (Image PGSIZE)

/-- The loop of `writei` with a source in user memory: how much it has written. When `copyin` fails the
buffer is released without `log_write`; `kept` says whether it is still in the cache when the block is
read again. Source addresses do not wrap: `copyin` fails beyond `MAXVA`. -/
def writeLoopUser (kept : Bool) (img : Image) (ip : Ino) : ℕ → ℕ → ℕ → ℕ → F ℕ
  | 0, _, _, _ => return 0
  | fuel + 1, src, off, n => do
    if n = 0 then return 0
    let addr ← bmap ip (off / BSIZE)
    if addr = 0 then return 0
    let bp ← bread addr
    let m := min n (BSIZE - off % BSIZE)
    let r := img.copyin m src m
    if r.1 = -1 then
      if kept then logWrite addr (bp.splice (off % BSIZE) r.2.length fun k => r.2.getD k 0)
      return 0
    logWrite addr (bp.splice (off % BSIZE) m fun k => r.2.getD k 0)
    let rest ← writeLoopUser kept img ip fuel (src + m) (off + m) (n - m)
    return m + rest

/-- `writei` from user memory: how many bytes were written, or -1. -/
def writeiUser (kept : Bool) (img : Image) (ip : Ino) (src off n : ℕ) : F ℤ := do
  let i := (← get).inode ip
  if off > i.size ∨ (off + n) % 2 ^ 32 < off then return -1
  if (off + n) % 2 ^ 32 > MAXFILE * BSIZE then return -1
  let tot ← writeLoopUser kept img ip n src off n
  if off + tot > ((← get).inode ip).size then
    setInode ip fun i => { i with size := off + tot }
  iupdate ip
  return tot

/-! ## `copyin` -/

/-- The byte at `va`, 0 where the user has no access. -/
def userByte (img : Image) (va : ℕ) : UInt8 := (img.byte va).getD 0

/-- The user can read `av` bytes from `va` on, and then no more, up to `n` bytes. -/
structure Readable (img : Image) (va n av : ℕ) : Prop where
  le : av ≤ n
  some : ∀ i, i < av → (img.byte (va + i)).isSome
  none : av < n → img.byte (va + av) = none

section Copyin

variable {img : Image} {va n av av' m fuel : ℕ}

theorem Readable.eq (h : Readable img va n av) (h' : Readable img va n av') : av = av' := by
  have key : ∀ {a b : ℕ}, Readable img va n a → Readable img va n b → ¬ a < b := by
    intro a b ha hb hlt
    have := hb.some a hlt
    rw [ha.none (hlt.trans_le hb.le)] at this
    cases this
  have h1 := key h h'
  have h2 := key h' h
  omega

theorem Readable.take (h : Readable img va n av) (hm : m ≤ n) : Readable img va m (min m av) where
  le := Nat.min_le_left ..
  some i hi := h.some i (by omega)
  none hlt := by
    rw [Nat.min_eq_right (by omega)] at hlt ⊢
    exact h.none (by omega)

theorem Readable.drop (h : Readable img va n av) (hm : m ≤ av) :
    Readable img (va + m) (n - m) (av - m) where
  le := Nat.sub_le_sub_right h.le m
  some i hi := by
    rw [Nat.add_assoc]
    exact h.some _ (by omega)
  none hlt := by
    rw [Nat.add_assoc, Nat.add_sub_cancel' hm]
    exact h.none (by omega)

theorem byte_page {pg : Vm.View} (h : img.userPage va = some pg) {i : ℕ} (hi : i < PGSIZE - va % PGSIZE) :
    img.byte (va + i) = some (pg.bytes.get (va % PGSIZE + i)) := by
  have hpos : 0 < PGSIZE := by decide
  have hdiv := Nat.div_add_mod va PGSIZE
  have hq : (va + i) / PGSIZE = va / PGSIZE := by
    refine Nat.div_eq_of_lt_le ?_ ?_
    · rw [Nat.mul_comm]
      omega
    · rw [Nat.add_mul, Nat.one_mul, Nat.mul_comm]
      omega
  have hr : (va + i) % PGSIZE = va % PGSIZE + i := by
    have := Nat.div_add_mod (va + i) PGSIZE
    rw [hq] at this
    omega
  unfold Image.byte
  rw [show img.userPage (va + i) = some pg by unfold Image.userPage at h ⊢; rwa [hq], hr]
  rfl

/-- `copyin` copies the readable bytes, and fails if these are not all. -/
theorem copyin_spec (img : Image) (va : ℕ) (hfuel : n ≤ fuel) : ∃ av, Readable img va n av ∧
    img.copyin fuel va n = (if av = n then 0 else -1, (List.range av).map fun i => userByte img (va + i)) := by
  induction fuel generalizing va n with
  | zero =>
    obtain rfl : n = 0 := by omega
    exact ⟨0, ⟨le_rfl, fun i hi => absurd hi (Nat.not_lt_zero i), fun h => absurd h (lt_irrefl 0)⟩, rfl⟩
  | succ fuel ih =>
    rw [Image.copyin]
    by_cases hn : n = 0
    · subst hn
      rw [if_pos rfl]
      exact ⟨0, ⟨le_rfl, fun i hi => absurd hi (Nat.not_lt_zero i), fun h => absurd h (lt_irrefl 0)⟩, rfl⟩
    rw [if_neg hn]
    cases hpage : img.userPage va with
    | none =>
      refine ⟨0, ⟨Nat.zero_le n, fun i hi => absurd hi (Nat.not_lt_zero i), fun _ => ?_⟩, ?_⟩
      · unfold Image.byte
        rw [Nat.add_zero, hpage]
        rfl
      · rw [if_neg (Ne.symm hn)]
        rfl
    | some pg =>
      have hmod : va % PGSIZE < PGSIZE := Nat.mod_lt _ (by decide)
      have hdiv := Nat.div_add_mod va PGSIZE
      generalize hm : min (PGSIZE - va % PGSIZE) n = m
      obtain ⟨av, hav, hcopy⟩ := ih (va / PGSIZE * PGSIZE + PGSIZE) (show n - m ≤ fuel by omega)
      have hbyte : ∀ i, i < m → img.byte (va + i) = some (pg.bytes.get (va % PGSIZE + i)) :=
        fun i hi => byte_page hpage (by omega)
      -- If anything is left, the next page starts right after this piece.
      have hnext : 0 < n - m → va / PGSIZE * PGSIZE + PGSIZE = va + m := by
        intro hpos
        rw [Nat.mul_comm]
        omega
      have hle := hav.le
      refine ⟨m + av, ⟨by omega, ?_, ?_⟩, ?_⟩
      · intro i hi
        by_cases him : i < m
        · rw [hbyte i him]
          rfl
        · have := hav.some (i - m) (by omega)
          rwa [hnext (by omega), Nat.add_assoc, Nat.add_sub_cancel' (not_lt.mp him)] at this
      · intro hlt
        have := hav.none (by omega)
        rwa [hnext (by omega), Nat.add_assoc] at this
      · simp only [hcopy]
        refine Prod.ext ?_ ?_
        · exact if_congr (by omega) rfl rfl
        · simp only
          rw [List.range_add, List.map_append, List.map_map]
          refine congrArg₂ _ (List.map_congr_left ?_) (List.map_congr_left ?_)
          · intro i hi
            rw [userByte, hbyte i (List.mem_range.mp hi)]
            rfl
          · intro i hi
            have := List.mem_range.mp hi
            rw [comp_apply, hnext (by omega), Nat.add_assoc]

theorem copyin_eq (h : Readable img va n av) (hm : m ≤ n) : img.copyin m va m =
    (if m ≤ av then 0 else -1, (List.range (min m av)).map fun i => userByte img (va + i)) := by
  obtain ⟨av', hav', hcopy⟩ := copyin_spec img va (le_refl m)
  rw [hcopy, hav'.eq (h.take hm)]
  refine Prod.ext ?_ rfl
  exact if_congr (by omega) rfl rfl

end Copyin

/-! ## The loop -/

section Loop

variable {s t : State} {ip : Ino} {img : Image} {lo src off n av fuel : ℕ} {kept : Bool}

/-- What is written in whole pieces: all, or up to the start of the piece that fails. -/
def whole (off n av : ℕ) : ℕ := if av = n then n else max off ((off + av) / BSIZE * BSIZE) - off

/-- The piece that fails: `k` bytes from `src` go to the buffer of the block at `off`. -/
def failingPiece (kept : Bool) (img : Image) (ip : Ino) (src off k : ℕ) : F Unit := do
  let addr ← bmap ip (off / BSIZE)
  if addr ≠ 0 then
    let bp ← bread addr
    if kept then logWrite addr (bp.splice (off % BSIZE) k fun j => userByte img (src + j))

theorem splice_getD {len : ℕ} (b : Block) (o : ℕ) (f : ℕ → UInt8) :
    (b.splice o len fun k => ((List.range len).map f).getD k 0) = b.splice o len f := by
  refine Bytes.ext_get fun i hi => ?_
  rw [Bytes.get_splice _ _ _ _ hi, Bytes.get_splice _ _ _ _ hi]
  refine if_ctx_congr Iff.rfl (fun hc => ?_) fun _ => rfl
  rw [List.getD_eq_getElem _ _ (by simpa using (by omega : i - o < len))]
  simp

/-- The loop writes the whole pieces as from kernel memory, then it may come to a piece that fails. -/
theorem writeLoopUser_eq (h : Readable img src n av) (hfuel : n ≤ fuel) :
    writeLoopUser kept img ip fuel src off n = (do
      let tot ← writeLoop ip fuel (fun k => userByte img (src + k)) off (whole off n av)
      if tot < whole off n av ∨ av = n then return tot
      failingPiece kept img ip (src + whole off n av) (off + whole off n av) (av - whole off n av)
      return tot) := by
  have hBpos : 0 < BSIZE := by decide
  induction fuel generalizing src off n av with
  | zero =>
    obtain rfl : n = 0 := by omega
    obtain rfl : av = 0 := Nat.le_zero.mp h.le
    rfl
  | succ fuel ih =>
    have hmod : off % BSIZE < BSIZE := Nat.mod_lt _ hBpos
    have hdiv := Nat.div_add_mod off BSIZE
    have hle := h.le
    rw [writeLoopUser, writeLoop]
    by_cases hn : n = 0
    · subst hn
      obtain rfl : av = 0 := Nat.le_zero.mp hle
      rfl
    rw [if_neg hn]
    generalize hm : min n (BSIZE - off % BSIZE) = m
    simp only [copyin_eq h (show m ≤ n by omega)]
    by_cases hfail : av < m
    · -- The first piece fails.
      have hblock : (off + av) / BSIZE = off / BSIZE := by
        refine Nat.div_eq_of_lt_le ?_ ?_
        · rw [Nat.mul_comm]
          omega
        · rw [Nat.add_mul, Nat.one_mul, Nat.mul_comm]
          omega
      have hwhole : whole off n av = 0 := by
        unfold whole
        rw [if_neg (by omega), hblock, Nat.mul_comm]
        omega
      rw [hwhole, if_pos rfl, pure_bind, if_neg (show ¬ (0 < 0 ∨ av = n) by omega)]
      simp only [not_le.mpr hfail, if_false, Nat.min_eq_right hfail.le, List.length_map, List.length_range,
        if_true, splice_getD, Nat.add_zero, Nat.sub_zero, failingPiece, bind_assoc]
      refine congrArg (bmap ip (off / BSIZE) >>= ·) (funext fun addr => ?_)
      by_cases ha : addr = 0
      · rw [if_pos ha, if_neg (not_not.mpr ha), pure_bind]
      · rw [if_neg ha, if_pos ha]
        simp only [bind_assoc]
        refine congrArg (bread addr >>= ·) (funext fun bp => ?_)
        cases kept <;> rfl
    · -- The first piece is written.
      have hmle : m ≤ av := not_lt.mp hfail
      have hwhole : whole off n av = m + whole (off + m) (n - m) (av - m) := by
        unfold whole
        by_cases hall : av = n
        · rw [if_pos hall, if_pos (by omega)]
          omega
        · have hm' : m = BSIZE - off % BSIZE := by omega
          have hnext : (off / BSIZE + 1) * BSIZE = off + m := by
            rw [Nat.add_mul, Nat.one_mul, Nat.mul_comm]
            omega
          have hge : off + m ≤ (off + av) / BSIZE * BSIZE := by
            rw [← hnext]
            apply Nat.mul_le_mul_right
            rw [Nat.le_div_iff_mul_le hBpos, hnext]
            omega
          rw [if_neg hall, if_neg (by omega), show off + m + (av - m) = off + av by omega]
          omega
      have hmin : min (whole off n av) (BSIZE - off % BSIZE) = m := by
        by_cases hall : av = n
        · rw [show whole off n av = n by unfold whole; exact if_pos hall]
          exact hm
        · omega
      rw [if_neg (by omega : ¬ whole off n av = 0), hmin]
      simp only [if_pos hmle, Nat.min_eq_left hmle, splice_getD, bind_assoc]
      refine congrArg (bmap ip (off / BSIZE) >>= ·) (funext fun addr => ?_)
      by_cases ha : addr = 0
      · rw [if_pos ha, if_pos ha, pure_bind, if_pos (.inl (by omega))]
      · rw [if_neg ha, if_neg ha, ih (h.drop hmle) (by omega)]
        simp only [bind_assoc, pure_bind, show ¬ (0 : ℤ) = -1 by decide, if_false]
        refine congrArg (bread addr >>= ·) (funext fun bp => congrArg (logWrite addr _ >>= ·) (funext fun _ => ?_))
        have hsub : whole off n av - m = whole (off + m) (n - m) (av - m) := by omega
        simp only [hsub, Nat.add_assoc]
        refine congrArg (writeLoop ip fuel _ _ _ >>= ·) (funext fun tot => ?_)
        by_cases hstop : tot < whole (off + m) (n - m) (av - m) ∨ av - m = n - m
        · rw [if_pos hstop, if_pos (by omega), pure_bind]
        · rw [if_neg hstop, if_neg (by omega), hwhole, bind_assoc,
            show av - m - whole (off + m) (n - m) (av - m) =
              av - (m + whole (off + m) (n - m) (av - m)) by omega]
          simp only [pure_bind]

/-- The piece that fails lies in the block of the first byte that cannot be read. -/
theorem whole_spec (off : ℕ) (hav : av < n) : whole off n av ≤ av ∧ (off + whole off n av) / BSIZE = (off + av) / BSIZE ∧
    av - whole off n av ≤ BSIZE - (off + whole off n av) % BSIZE := by
  have hBpos : 0 < BSIZE := by decide
  have hdiv := Nat.div_add_mod (off + av) BSIZE
  have hmod := Nat.mod_lt (off + av) hBpos
  have hle : whole off n av ≤ av := by
    unfold whole
    rw [if_neg hav.ne, Nat.mul_comm]
    omega
  have hge : (off + av) / BSIZE * BSIZE ≤ off + whole off n av := by
    unfold whole
    rw [if_neg hav.ne]
    omega
  have hblock : (off + whole off n av) / BSIZE = (off + av) / BSIZE := by
    refine Nat.div_eq_of_lt_le hge ?_
    rw [Nat.add_mul, Nat.one_mul, Nat.mul_comm]
    omega
  refine ⟨hle, hblock, ?_⟩
  have := Nat.div_add_mod (off + whole off n av) BSIZE
  rw [hblock] at this
  omega

/-- The piece that fails leaves up to `k` bytes in the file: all of them if the buffer is kept and the
block was there. -/
theorem failingPiece_spec {k : ℕ} (h : Volume s ip lo) (hbn : off / BSIZE < MAXFILE)
    (hk : k ≤ BSIZE - off % BSIZE) :
    wp (failingPiece kept img ip src off k) s fun _ s' => Volume s' ip lo ∧ Grows ip s s' ∧
      (Tight s ip lo → Tight s' ip lo) ∧
      (∀ i bn, bn < MAXFILE → ptr (s.addrs ip) s.disk i (slotOf bn) ≠ 0 →
        ptr (s'.addrs ip) s'.disk i (slotOf bn) ≠ 0) ∧
      ∃ e, e ≤ k ∧ (∀ i q, q < MAXFILE * BSIZE → byteAt (s'.addrs ip) s'.disk i q =
          if i = (s.inode ip).inum ∧ off ≤ q ∧ q < off + e then userByte img (src + (q - off))
          else byteAt (s.addrs ip) s.disk i q) ∧
        (kept = true → ptr (s.addrs ip) s.disk (s.inode ip).inum (slotOf (off / BSIZE)) ≠ 0 → e = k) := by
  unfold failingPiece
  refine (bmap_spec h hbn).bind ?_
  intro a t hmap
  have hext : ∀ i q, q < MAXFILE * BSIZE →
      byteAt (t.addrs ip) t.disk i q = byteAt (s.addrs ip) s.disk i q := by
    intro i q hq
    rw [byteAt, byteAt, hmap.ext.data i _ (Nat.div_lt_of_lt_mul (by rwa [Nat.mul_comm]))]
  have hkeep : ∀ i bn, bn < MAXFILE → ptr (s.addrs ip) s.disk i (slotOf bn) ≠ 0 →
      ptr (t.addrs ip) t.disk i (slotOf bn) ≠ 0 := by
    intro i bn hbn' hne
    rwa [hmap.ext.keep i _ (slotOf_lt hbn') hne]
  -- Without a write the file is as before.
  have hnone : (kept = true → ptr (s.addrs ip) s.disk (s.inode ip).inum (slotOf (off / BSIZE)) ≠ 0 →
      0 = k) → ∃ e, e ≤ k ∧ (∀ i q, q < MAXFILE * BSIZE → byteAt (t.addrs ip) t.disk i q =
          if i = (s.inode ip).inum ∧ off ≤ q ∧ q < off + e then userByte img (src + (q - off))
          else byteAt (s.addrs ip) s.disk i q) ∧
        (kept = true → ptr (s.addrs ip) s.disk (s.inode ip).inum (slotOf (off / BSIZE)) ≠ 0 → e = k) := by
    intro hall
    refine ⟨0, Nat.zero_le k, fun i q hq => ?_, hall⟩
    rw [hext i q hq, if_neg (by omega)]
  by_cases ha : a = 0
  · rw [if_neg (not_not.mpr ha), wp_pure]
    refine ⟨hmap.vol, hmap.grows, hmap.tight, hkeep, hnone fun _ hne => ?_⟩
    obtain rfl := hmap.same hne
    exact absurd (hmap.addr.trans ha) hne
  rw [if_pos ha]
  unfold bread
  rw [wp_bind, wp_bind, wp_get, wp_pure]
  cases kept with
  | false =>
    rw [if_neg (by decide), wp_pure]
    exact ⟨hmap.vol, hmap.grows, hmap.tight, hkeep, hnone fun hfalse => by cases hfalse⟩
  | true =>
    rw [if_pos rfl, logWrite, wp_modify]
    have haddr := hmap.addr
    rw [← hmap.grows.inum] at haddr
    generalize hu : (⟨t.sb, update t.disk a ((t.disk a).splice (off % BSIZE) k fun j =>
      userByte img (src + j)), t.inode⟩ : State) = u
    have hud : u.disk = update t.disk a ((t.disk a).splice (off % BSIZE) k fun j =>
      userByte img (src + j)) := by rw [← hu]
    obtain ⟨hvol, hgrows, hA, hptr, htight⟩ := hmap.vol.write (slotOf_lt hbn) (slotOf_ne _) haddr ha
      (by rw [← hu]) (by rw [← hu]) hud
    refine ⟨hvol, hmap.grows.trans hgrows, fun h => htight (hmap.tight h), ?_, k, le_rfl, ?_,
      fun _ _ => rfl⟩
    · intro i bn hbn' hne
      rw [hptr]
      exact hkeep i bn hbn' hne
    · intro i q hq
      have hwrite := hmap.vol.owns.byteAt_write i (p := fun j => userByte img (src + j)) hbn
        (by rw [haddr]; exact ha) hk hq
      rw [haddr, ← hud, ← hA, hmap.grows.inum] at hwrite
      rw [hwrite]
      refine if_congr Iff.rfl rfl ?_
      rw [hA]
      exact hext i q hq

/-- The loop of `writei` has written `tot` bytes from user memory, and left `e` more in the buffer of a
piece that failed. -/
structure WroteUser (kept : Bool) (img : Image) (ip : Ino) (lo src off n av : ℕ) (s : State) (tot e : ℕ)
    (s' : State) : Prop where
  le : tot ≤ whole off n av
  vol : Volume s' ip lo
  grows : Grows ip s s'
  bytes : ∀ i q, q < MAXFILE * BSIZE → byteAt (s'.addrs ip) s'.disk i q =
    if i = (s.inode ip).inum ∧ off ≤ q ∧ q < off + (tot + e) then userByte img (src + (q - off))
    else byteAt (s.addrs ip) s.disk i q
  keep : ∀ i bn, bn < MAXFILE → ptr (s.addrs ip) s.disk i (slotOf bn) ≠ 0 →
    ptr (s'.addrs ip) s'.disk i (slotOf bn) ≠ 0
  blocks : 0 < tot → ∀ bn, bn < MAXFILE → off < bn * BSIZE + BSIZE → bn * BSIZE < off + tot →
    ptr (s'.addrs ip) s'.disk (s.inode ip).inum (slotOf bn) ≠ 0
  tight : Tight s ip lo → Tight s' ip lo
  extra : e ≠ 0 → av < n ∧ tot = whole off n av ∧ tot + e ≤ av
  all : kept = true → av < n → (∀ bn, bn ≤ (off + av) / BSIZE →
      ptr (s.addrs ip) s.disk (s.inode ip).inum (slotOf bn) ≠ 0) → tot = whole off n av ∧ tot + e = av

/-- The loop of `writei` on a source that is readable up to some byte. -/
theorem writeLoopUser_spec (h : Volume s ip lo) (hr : Readable img src n av)
    (hmax : off + n ≤ MAXFILE * BSIZE) :
    wp (writeLoopUser kept img ip n src off n) s fun tot s' =>
      ∃ e, WroteUser kept img ip lo src off n av s tot e s' := by
  have hBpos : 0 < BSIZE := by decide
  have hav := hr.le
  have hwn : whole off n av ≤ n := by
    by_cases hall : av = n
    · unfold whole
      rw [if_pos hall]
    · exact (whole_spec off (by omega : av < n)).1.trans hav
  rw [writeLoopUser_eq hr le_rfl]
  refine (writeLoop_spec h hwn (by omega)).bind ?_
  intro tot t hw
  by_cases hstop : tot < whole off n av ∨ av = n
  · rw [if_pos hstop, wp_pure]
    refine ⟨0, hw.le, hw.vol, hw.grows, hw.bytes, hw.keep, hw.blocks, hw.tight, fun h0 => absurd rfl h0, ?_⟩
    intro _ hlt hblocks
    -- The loop has stopped at a block that was not there.
    have htot : tot < whole off n av := by omega
    have hbn : (off + tot) / BSIZE < MAXFILE := by
      rw [Nat.div_lt_iff_lt_mul hBpos]
      omega
    have hle : (off + tot) / BSIZE ≤ (off + av) / BSIZE :=
      Nat.div_le_div_right (by have := (whole_spec off hlt).1; omega)
    exact absurd (hw.stop htot) (hw.keep _ _ hbn (hblocks _ hle))
  · rw [if_neg hstop]
    obtain rfl : tot = whole off n av := by
      have := hw.le
      omega
    have hlt : av < n := by omega
    obtain ⟨hle, hblock, hk⟩ := whole_spec off hlt
    have hbn : (off + whole off n av) / BSIZE < MAXFILE := by
      rw [Nat.div_lt_iff_lt_mul hBpos]
      omega
    refine (failingPiece_spec hw.vol hbn hk).bind ?_
    rintro _ u ⟨hvol, hgrows, htight, hkeep, e, he, hbytes, hall⟩
    rw [wp_pure]
    refine ⟨e, le_rfl, hvol, hw.grows.trans hgrows, ?_, ?_, ?_, fun h => htight (hw.tight h), ?_, ?_⟩
    · intro i q hq
      rw [hbytes i q hq, hw.bytes i q hq, hw.grows.inum]
      exact ite_written fun _ => by rw [show src + whole off n av + (q - (off + whole off n av)) =
        src + (q - off) by omega]
    · intro i bn hbn' hne
      exact hkeep i bn hbn' (hw.keep i bn hbn' hne)
    · intro hpos bn hbn' h1 h2
      exact hkeep _ bn hbn' (hw.blocks hpos bn hbn' h1 h2)
    · exact fun _ => ⟨hlt, rfl, by omega⟩
    · intro hkept _ hblocks
      have := hall hkept (by
        rw [hw.grows.inum, hblock]
        exact hw.keep _ _ (hblock ▸ hbn) (hblocks _ le_rfl))
      exact ⟨rfl, by omega⟩

end Loop

/-! ## Short writes -/

section Short

variable {s s' : State} {ip : Ino} {img : Image} {lo src off n av tot : ℕ} {kept : Bool}

/-- What the file should hold after `tot` bytes have been written at `off`. -/
def expected (img : Image) (src off tot : ℕ) (s : State) (i p : ℕ) : Option UInt8 :=
  if off ≤ p ∧ p < off + tot then img.byte (src + (p - off)) else some (s.content i p)

/-- Every `readi` returns what the file should hold after `tot` bytes have been written at `off`. -/
def ReadsBack (ip : Ino) (img : Image) (src off tot : ℕ) (s s' : State) : Prop :=
  ∀ o len, o + len < 2 ^ 32 → wp (readi ip o len) s' fun r _ => ∀ k, k < len →
    o + k < max (s.fsize (s.inode ip).inum) (off + tot) →
      r[k]? = expected img src off tot s (s.inode ip).inum (o + k)

theorem readsBack_iff (h : Consistent s' lo) (hl : Loaded s' ip)
    (hinum : (s'.inode ip).inum = (s.inode ip).inum)
    (hsize : s'.fsize (s.inode ip).inum = max (s.fsize (s.inode ip).inum) (off + tot)) :
    ReadsBack ip img src off tot s s' ↔
      ∀ q, q < max (s.fsize (s.inode ip).inum) (off + tot) →
        some (s'.content (s.inode ip).inum q) = expected img src off tot s (s.inode ip).inum q := by
  have hle := h.size _ hl.live
  have hmax := maxfile_lt
  rw [hinum, hsize] at hle
  constructor
  · intro hreads q hq
    -- Read one byte.
    obtain ⟨r, t, hrun, hr⟩ := hreads q 1 (by omega)
    obtain ⟨-, rfl⟩ := (readi_spec h hl (show q < 2 ^ 32 by omega) (show 1 < 2 ^ 32 by omega)).of_run hrun
    have := hr 0 (by decide) hq
    rw [hinum, hsize, if_neg (by omega), Nat.min_eq_left (by omega)] at this
    simpa using this
  · intro hall o len hlen
    refine (readi_spec h hl (show o < 2 ^ 32 by omega) (show len < 2 ^ 32 by omega)).mono ?_
    rintro r t ⟨-, rfl⟩ k hk hlt
    rw [hinum, hsize, if_neg (by omega), ← hall _ hlt, List.getElem?_map, List.getElem?_range (by omega)]
    rfl

/-- What `writei` has done with a source in user memory. -/
structure WrittenUser (kept : Bool) (ip : Ino) (img : Image) (lo src off n av : ℕ) (s : State)
    (tot e : ℕ) (s' : State) : Prop where
  cons : Consistent s' lo
  loaded : Loaded s' ip
  exact : Exact s lo → Exact s' lo
  sb : s'.sb = s.sb
  inode : s'.inode = update s.inode ip
    { s.inode ip with size := (s'.inode ip).size, addrs := (s'.inode ip).addrs }
  type : ∀ i, i < s.sb.ninodes → dinodeType s.sb s'.disk i = dinodeType s.sb s.disk i
  nlink : ∀ i, i < s.sb.ninodes → dinodeNlink s.sb s'.disk i = dinodeNlink s.sb s.disk i
  others : ∀ i, i < s.sb.ninodes → i ≠ (s.inode ip).inum → s'.fsize i = s.fsize i ∧
    (∀ k, k ≤ NDIRECT → dinodeAddrs s.sb s'.disk i k = dinodeAddrs s.sb s.disk i k) ∧
    ∀ p, p < MAXFILE * BSIZE → s'.content i p = s.content i p
  size : s'.fsize (s.inode ip).inum = max (s.fsize (s.inode ip).inum) (off + tot)
  bytes : ∀ q, q < MAXFILE * BSIZE → s'.content (s.inode ip).inum q =
    if off ≤ q ∧ q < off + (tot + e) then userByte img (src + (q - off)) else s.content (s.inode ip).inum q
  le : tot + e ≤ av
  extra : e ≠ 0 → av < n ∧ tot = whole off n av
  all : kept = true → av < n → (off + av) / BSIZE * BSIZE < s.fsize (s.inode ip).inum →
    tot = whole off n av ∧ tot + e = av

theorem WrittenUser.inum {e : ℕ} (h : WrittenUser kept ip img lo src off n av s tot e s') :
    (s'.inode ip).inum = (s.inode ip).inum := by
  rw [h.inode, update_self]

/-- `writei` counts the whole pieces; bytes of the one that failed may be in the cache. -/
theorem writeiUser_spec (kept : Bool) (h : Consistent s lo) (hl : Loaded s ip) (hr : Readable img src n av)
    (hoff : off ≤ s.fsize (s.inode ip).inum) (hmax : off + n ≤ MAXFILE * BSIZE) :
    wp (writeiUser kept img ip src off n) s fun r s' =>
      ∃ tot e, r = (tot : ℕ) ∧ WrittenUser kept ip img lo src off n av s tot e s' := by
  have hlt := maxfile_lt
  have hsize := h.loaded_size hl
  have hBpos : 0 < BSIZE := by decide
  unfold writeiUser
  rw [wp_bind, wp_get, if_neg (by rw [hl.size, Nat.mod_eq_of_lt (by omega)]; omega),
    if_neg (by rw [Nat.mod_eq_of_lt (by omega)]; omega)]
  refine (writeLoopUser_spec (h.volume hl) hr hmax).bind ?_
  rintro tot t ⟨e, hw⟩
  apply writei_end
  rw [hw.grows.size]
  have hav := hr.le
  have hwhole : whole off n av ≤ av := by
    by_cases hall : av = n
    · unfold whole
      rw [if_pos hall, hall]
    · exact (whole_spec off (by omega)).1
  have htot := hw.le
  have hblocks : ∀ bn, bn < MAXFILE → bn * BSIZE < max (s.inode ip).size (off + tot) →
      ptr (t.addrs ip) t.disk (s.inode ip).inum (slotOf bn) ≠ 0 := by
    intro bn hbn hlt
    by_cases hold : bn * BSIZE < (s.inode ip).size
    · exact hw.keep _ bn hbn (h.loaded_blocks hl hold)
    · rw [← hl.size] at hoff
      exact hw.blocks (by omega) bn hbn (by omega) (by omega)
  obtain ⟨hc, hl', hst, hexact⟩ := h.writeBack hl hw.vol hw.grows
    (show max (s.inode ip).size (off + tot) ≤ MAXFILE * BSIZE by omega) (fun i bn _ => hw.keep i bn) hblocks
  refine ⟨tot, e, rfl, hc, hl', fun he => hexact (hw.tight (hl.tight he)), hw.grows.sb, ?_, hst.type,
    hst.nlink, ?_, ?_, ?_, ?_, ?_, ?_⟩
  · unfold State.writeBack
    simp only [update_self]
    rw [hw.grows.inode]
    simp only [update_self, update_idem]
  · intro i hi hne
    refine ⟨(hst.others i hi hne).1, (hst.others i hi hne).2, fun p hp => ?_⟩
    rw [hst.content i p hp, hw.bytes i p hp, if_neg fun hc => hne hc.1, hl.byteAt_eq]
  · rw [hst.size, hl.size]
  · intro q hq
    rw [hst.content _ q hq, hw.bytes _ q hq, hl.byteAt_eq]
    simp
  · by_cases he : e = 0
    · omega
    · exact (hw.extra he).2.2
  · exact fun he => ⟨(hw.extra he).1, (hw.extra he).2.1⟩
  · intro hkept hlt' hin
    refine hw.all hkept hlt' fun bn hbn => ?_
    apply h.loaded_blocks hl
    rw [hl.size]
    exact (Nat.mul_le_mul_right BSIZE hbn).trans_lt hin

theorem writeiUser_range (hoff : off ≤ (s.inode ip).size) (hsize : (s.inode ip).size ≤ MAXFILE * BSIZE)
    (hn : n < 2 ^ 32) (hmax : MAXFILE * BSIZE < off + n) :
    wp (writeiUser kept img ip src off n) s fun r s' => r = -1 ∧ s' = s := by
  have hlt := maxfile_lt
  unfold writeiUser
  rw [wp_bind, wp_get]
  by_cases hrange : off > (s.inode ip).size ∨ (off + n) % 2 ^ 32 < off
  · rw [if_pos hrange, wp_pure]
    exact ⟨rfl, rfl⟩
  · rw [if_neg hrange, if_pos (by rw [Nat.mod_eq_of_lt (by omega)]; omega), wp_pure]
    exact ⟨rfl, rfl⟩

/-- The piece that fails holds what the file holds already: `av` bytes are readable, and the bytes from
the start of the piece up to the first unreadable one equal those of the file, as far as that goes. -/
def Harmless (img : Image) (src off n : ℕ) (s : State) (i : ℕ) : Prop :=
  ∀ av, Readable img src n av → av < n → off + n ≤ MAXFILE * BSIZE →
    ∀ q, max off ((off + av) / BSIZE * BSIZE) ≤ q → q < off + av → q < s.fsize i →
      img.byte (src + (q - off)) = some (s.content i q)

theorem byte_of_readable (h : Readable img src n av) {j : ℕ} (hj : j < av) :
    img.byte (src + j) = some (userByte img (src + j)) := by
  obtain ⟨b, hb⟩ := Option.isSome_iff_exists.mp (h.some j hj)
  rw [userByte, hb]
  rfl

/-- The bytes of the failing piece stay in the cache, where `readi` finds them. -/
theorem harmless_of_readsBack (h : Consistent s lo) (hl : Loaded s ip)
    (hoff : off ≤ s.fsize (s.inode ip).inum)
    (hall : ∀ kept, wp (writeiUser kept img ip src off n) s fun r s' =>
      ∀ tot : ℕ, r = tot → tot < n → ReadsBack ip img src off tot s s') :
    Harmless img src off n s (s.inode ip).inum := by
  have hsize := h.size _ hl.live
  intro av hr hlt hle q hfrom hto hin
  obtain ⟨r, t, hrun, hback⟩ := hall true
  obtain ⟨tot, e, rfl, hw⟩ := (writeiUser_spec true h hl hr hoff hle).of_run hrun
  -- The blocks up to that of `q` are there, so that the piece is reached.
  obtain ⟨htot, hte⟩ := hw.all rfl hlt (by omega)
  have hstart : off + tot = max off ((off + av) / BSIZE * BSIZE) := by
    rw [htot, whole, if_neg hlt.ne]
    omega
  have hq := (readsBack_iff hw.cons hw.loaded hw.inum hw.size).mp (hback tot rfl (by omega)) q (by omega)
  rw [hw.bytes q (by omega), if_pos ⟨by omega, by omega⟩, expected, if_neg (by omega)] at hq
  rw [byte_of_readable hr (by omega)]
  exact hq

theorem Harmless.readsBack (hharm : Harmless img src off n s (s.inode ip).inum) (h : Consistent s lo)
    (hl : Loaded s ip) (hoff : off ≤ s.fsize (s.inode ip).inum) (hn : n < 2 ^ 32) (kept : Bool) :
    wp (writeiUser kept img ip src off n) s fun r s' =>
      ∀ tot : ℕ, r = tot → tot < n → ReadsBack ip img src off tot s s' := by
  have hsize := h.size _ hl.live
  by_cases hmax : MAXFILE * BSIZE < off + n
  · refine (writeiUser_range (by rwa [hl.size]) (by rwa [hl.size]) hn hmax).mono ?_
    rintro _ _ ⟨rfl, rfl⟩ tot htot
    omega
  obtain ⟨av, hr, -⟩ := copyin_spec img src (le_refl n)
  refine (writeiUser_spec kept h hl hr hoff (not_lt.mp hmax)).mono ?_
  rintro _ t ⟨tot, e, rfl, hw⟩ tot' heq hlt
  obtain rfl : tot = tot' := Int.ofNat.inj heq
  rw [readsBack_iff hw.cons hw.loaded hw.inum hw.size]
  intro q hq
  have hle := hw.le
  have hav := hr.le
  rw [hw.bytes q (by omega), expected]
  by_cases hnew : off ≤ q ∧ q < off + tot
  · rw [if_pos ⟨hnew.1, by omega⟩, if_pos hnew, byte_of_readable hr (by omega)]
  rw [if_neg hnew]
  by_cases hextra : off ≤ q ∧ q < off + (tot + e)
  · -- A byte of the piece that failed, inside the old file.
    obtain ⟨hlt', htot⟩ := hw.extra (by omega)
    have hstart : off + tot = max off ((off + av) / BSIZE * BSIZE) := by
      rw [htot, whole, if_neg hlt'.ne]
      omega
    have := hharm av hr hlt' (not_lt.mp hmax) q (by omega) (by omega) (by omega)
    rw [if_pos hextra, ← byte_of_readable hr (by omega), this]
  · rw [if_neg hextra]

/-- **Short writes.** Take a consistent state, a loaded inode, an offset within the file and a source in
user memory that may become unreadable anywhere. After a `writei` that reports `tot < n`, whether the
disk was full or `copyin` failed and whether or not the failed buffer stays in the cache, every `readi`
sees the first `tot` source bytes at `off` and the rest of the old file unchanged, if and only if the
bytes of the failing piece that can be read equal those of the file. -/
theorem writei_short_iff (h : Consistent s lo) (hl : Loaded s ip)
    (hoff : off ≤ s.fsize (s.inode ip).inum) (hn : n < 2 ^ 32) (img : Image) (src : ℕ) :
    (∀ kept, wp (writeiUser kept img ip src off n) s fun r s' =>
      ∀ tot : ℕ, r = tot → tot < n → ReadsBack ip img src off tot s s') ↔
        Harmless img src off n s (s.inode ip).inum :=
  ⟨harmless_of_readsBack h hl hoff, fun hharm => hharm.readsBack h hl hoff hn⟩

/-- A process with one page of ones. -/
def onePage : Image := fun v =>
  if v = 0 then some ⟨Bytes.fill PGSIZE 1, true, false, true⟩ else none

theorem readable_onePage : Readable onePage 4094 4 2 where
  le := by decide
  some i hi := by
    interval_cases i <;> rfl
  none _ := rfl

theorem not_harmless_onePage : ¬ Harmless onePage 4094 0 4 (oneFile T_FILE 8) 1 := by
  intro hharm
  have := hharm 2 readable_onePage (by decide) (by decide) 0 (by decide) (by decide)
    (by rw [fsize_oneFile (by decide)]; decide)
  rw [content_oneFile (by decide) (by decide)] at this
  exact absurd this (by decide)

/-- Four bytes of which two are readable, over a file of zeros. -/
theorem writei_short_iff_onePage : ∃ ip : Ino, Loaded (oneFile T_FILE 8) ip ∧
    ¬ ∀ kept, wp (writeiUser kept onePage ip 4094 0 4) (oneFile T_FILE 8) fun r s' =>
      ∀ tot : ℕ, r = tot → tot < 4 → ReadsBack ip onePage 4094 0 tot (oneFile T_FILE 8) s' := by
  have ip : Ino := ⟨0, by decide⟩
  have hl : Loaded (oneFile T_FILE 8) ip := loaded_oneFile (by decide) (by decide) (by decide) ip
  refine ⟨ip, hl, fun hall => ?_⟩
  have := writei_short_iff (consistent_oneFile (by decide) (by decide)) hl (Nat.zero_le _)
    (show 4 < 2 ^ 32 by decide) onePage 4094
  exact not_harmless_onePage (this.mp hall)

/-- `writei` reports that it has written nothing, and the file has changed. -/
theorem writei_short_changes_file : ¬ ∀ (s : State) (lo : ℕ) (ip : Ino) (img : Image) (src off n : ℕ),
    Consistent s lo → Loaded s ip → off ≤ s.fsize (s.inode ip).inum → n < 2 ^ 32 →
      ∀ kept, wp (writeiUser kept img ip src off n) s fun r s' =>
        ∀ tot : ℕ, r = tot → tot < n → ReadsBack ip img src off tot s s' := by
  intro hall
  have ip : Ino := ⟨0, by decide⟩
  have hc : Consistent (oneFile T_FILE 8) 2 := consistent_oneFile (by decide) (by decide)
  have hl : Loaded (oneFile T_FILE 8) ip := loaded_oneFile (by decide) (by decide) (by decide) ip
  exact not_harmless_onePage (harmless_of_readsBack hc hl (Nat.zero_le _)
    (hall (oneFile T_FILE 8) 2 ip onePage 4094 0 4 hc hl (Nat.zero_le _) (by decide)))

end Short

end Xv6.Fs
