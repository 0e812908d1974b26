import Xv6.Mkfs.Mkfs

/-!
# What `mkfs` keeps

`Files` is the invariant of `mkfs` on the blocks of files: every block below `freeblock` has at most one
place, every block from `freeblock` on is zero, and each file has exactly the blocks that its size needs
and holds the bytes that were appended to it. One turn of the loop of `iappend` keeps it
(`iappendLoop_spec`), and so do the calls of `main`.
-/

namespace Xv6.Mkfs

open Function Lib
open Fs

/-- What holds after `x`, which fails only if `E` holds. -/
abbrev after {α : Type} (E : Prop) (x : M α) (s : Img) (Q : α → Img → Prop) : Prop :=
  wpOr (fun _ => E) x s Q

/-- The number of blocks that a file of `sz` bytes takes, with its indirect block. -/
def need (sz : ℕ) : ℕ :=
  let n := (sz + (BSIZE - 1)) / BSIZE
  if NDIRECT < n then n + 1 else n

/-- The invariant: the addresses, sizes and contents of the files in the image. -/
structure Files (A : Addrs) (sz : ℕ → ℕ) (c : ℕ → ℕ → UInt8) (s : Img) : Prop where
  nsect : s.nsect = FSSIZE
  lo : nmeta ≤ s.freeblock
  hi : s.freeblock ≤ FSSIZE
  owns : Owns A s.disk nmeta s.freeblock
  zero : ∀ b, s.freeblock ≤ b → s.disk b = Bytes.fill BSIZE 0
  fits : ∀ i, sz i ≤ MAXFILE * BSIZE
  blocks : ∀ i bn, bn < MAXFILE → (ptr A s.disk i (slotOf bn) ≠ 0 ↔ bn * BSIZE < sz i)
  indirect : ∀ i, A i NDIRECT ≠ 0 ↔ NDIRECT * BSIZE < sz i
  bytes : ∀ i p, p < MAXFILE * BSIZE → byteAt A s.disk i p = if p < sz i then c i p else 0

/-- What writing data leaves alone: the blocks before the data area, the inodes and the length of the
file. -/
structure Quiet (s s' : Img) : Prop where
  nsect : s'.nsect = s.nsect
  freeinode : s'.freeinode = s.freeinode
  inodes : s'.inodes = s.inodes
  low : ∀ b, b < nmeta → s'.disk b = s.disk b
  written : ∀ b ∈ s'.written, b ∈ s.written ∨ nmeta ≤ b ∧ b < FSSIZE

theorem Quiet.refl (s : Img) : Quiet s s := ⟨rfl, rfl, rfl, fun _ _ => rfl, fun _ h => .inl h⟩

theorem Quiet.trans {s s' s'' : Img} (h : Quiet s s') (h' : Quiet s' s'') : Quiet s s'' where
  nsect := h'.nsect.trans h.nsect
  freeinode := h'.freeinode.trans h.freeinode
  inodes := h'.inodes.trans h.inodes
  low b hb := (h'.low b hb).trans (h.low b hb)
  written b hb := by
    rcases h'.written b hb with hb | hb
    · exact h.written b hb
    · exact .inr hb

theorem nmeta_pos : 0 < nmeta := by decide

section Sectors

variable {s : Img} {sec : ℕ} {buf : Block} {A : Addrs} {E : Prop}

/-- `rsect` reads a sector that the file has. -/
theorem rsect_spec (hE : s.nsect ≤ sec → E) : after E (rsect sec) s fun b s' =>
    b = s.disk sec ∧ s' = s ∧ sec < s.nsect := by
  refine wpOr_get_bind.mpr (.ite (fun h => ?_) fun h => wpOr_throw.mpr (hE (not_lt.mp h)))
  exact (wpOr_pure _).mpr ⟨rfl, rfl, h⟩

/-- A write to the data area changes that block only. -/
theorem wsectData_spec (hlo : nmeta ≤ sec) (hsec : sec < s.nsect) (hn : s.nsect = FSSIZE) :
    after E (wsectData sec buf) s fun _ s' => Quiet s s' ∧ s'.freeblock = s.freeblock ∧
      s'.disk = update s.disk sec buf := by
  refine (wpOr_modify_bind _).mpr ((wpOr_modify _).mpr ⟨?_, rfl, rfl⟩)
  constructor
  · exact max_eq_left hsec
  · rfl
  · rfl
  · intro b hb
    exact update_of_ne (by omega) _ _
  · intro b hb
    rcases List.mem_cons.mp hb with rfl | hb
    · exact .inr ⟨hlo, hn ▸ hsec⟩
    · exact .inl hb

theorem unowned_freeblock (h : Owns A s.disk nmeta s.freeblock) (hlo : nmeta ≤ s.freeblock) :
    Unowned A s.disk s.freeblock := by
  intro i k hk heq
  have hpos := nmeta_pos
  have := h.range i k hk (by omega)
  omega

end Sectors

/-! ## Addresses -/

section Addresses

variable {s : Img} {A : Addrs} {i k fbn : ℕ} {din : Inode} {E : Prop}

/-- How many blocks are added for block `fbn` of file `i`. -/
def newBlocks (A : Addrs) (d : Disk) (i fbn : ℕ) : ℕ :=
  if ptr A d i (slotOf fbn) ≠ 0 then 0 else if NDIRECT ≤ fbn ∧ A i NDIRECT = 0 then 2 else 1

/-- The address of a block of file `i` has been found: the files hold what they held, and at most the
place of this block and that of the indirect block have changed. -/
structure Found (A : Addrs) (s : Img) (i fbn x : ℕ) (A' : Addrs) (s' : Img) : Prop where
  owns : Owns A' s'.disk nmeta s'.freeblock
  ext : Extends A s.disk A' s'.disk
  other : ∀ i' bn, bn < MAXFILE → ¬ (i' = i ∧ bn = fbn) →
    ptr A' s'.disk i' (slotOf bn) = ptr A s.disk i' (slotOf bn)
  found : ptr A' s'.disk i (slotOf fbn) = x
  ne : x ≠ 0
  lo : nmeta ≤ s'.freeblock
  zero : ∀ b, s'.freeblock ≤ b → s'.disk b = Bytes.fill BSIZE 0
  next : s'.freeblock = s.freeblock ∨ s'.freeblock = x + 1
  count : s'.freeblock = s.freeblock + newBlocks A s.disk i fbn
  indirect : ∀ i', A' i' NDIRECT ≠ 0 ↔ A i' NDIRECT ≠ 0 ∨ i' = i ∧ NDIRECT ≤ fbn
  quiet : Quiet s s'

/-- An address is there, or is the next free block. -/
theorem dinAddr_spec (din : Inode) (k : ℕ) : after E (dinAddr din k) s fun din' s' =>
    din.addrs k ≠ 0 ∧ din' = din ∧ s' = s ∨
      din.addrs k = 0 ∧ din' = { din with addrs := update din.addrs k s.freeblock } ∧
        s' = { s with freeblock := s.freeblock + 1 } := by
  unfold dinAddr nextBlock
  refine .ite (fun h => ?_) fun h => (wpOr_pure _).mpr (.inl ⟨h, rfl, rfl⟩)
  rw [bind_assoc]
  refine wpOr_get_bind.mpr ?_
  rw [bind_assoc]
  refine (wpOr_modify_bind _).mpr ?_
  rw [pure_bind]
  exact (wpOr_pure _).mpr (.inr ⟨h, rfl, rfl⟩)

theorem Found.of_added {A' : Addrs} {d' : Disk}
    (hlo : nmeta ≤ s.freeblock) (hzero : ∀ b, s.freeblock ≤ b → s.disk b = Bytes.fill BSIZE 0)
    (hslot : slotOf fbn = k) (hfbn : fbn < MAXFILE)
    (hadd : Added A s.disk i k s.freeblock A' d') (howns' : Owns A' d' nmeta (s.freeblock + 1))
    (hext : Extends A s.disk A' d') (hd : ∀ b, s.freeblock < b → d' b = s.disk b) {s' : Img}
    (hs' : s'.disk = d') (hfb : s'.freeblock = s.freeblock + 1) (hquiet : Quiet s s')
    (hnull : ptr A s.disk i (slotOf fbn) = 0) (hind : NDIRECT ≤ fbn → A i NDIRECT ≠ 0)
    (hA' : ∀ i', A' i' NDIRECT = A i' NDIRECT) : Found A s i fbn s.freeblock A' s' := by
  have hpos := nmeta_pos
  constructor
  · rwa [hs', hfb]
  · rwa [hs']
  · intro i' bn hbn hne
    rw [hs', hadd i' _ (slotOf_lt hbn), if_neg]
    rintro ⟨rfl, hk⟩
    exact hne ⟨rfl, slotOf_inj (hk.trans hslot.symm)⟩
  · rw [hs', hslot, hadd i k (hslot ▸ slotOf_lt hfbn), if_pos ⟨rfl, rfl⟩]
  · omega
  · omega
  · intro b hb
    rw [hs', hd b (by omega), hzero b (by omega)]
  · exact .inr hfb
  · rw [hfb, newBlocks, if_neg (not_not.mpr hnull), if_neg fun h => hind h.1 h.2]
  · intro i'
    rw [hA']
    constructor
    · exact .inl
    · rintro (h | ⟨rfl, h⟩)
      · exact h
      · exact hind h
  · exact hquiet

theorem Found.of_found (howns : Owns A s.disk nmeta s.freeblock)
    (hlo : nmeta ≤ s.freeblock) (hzero : ∀ b, s.freeblock ≤ b → s.disk b = Bytes.fill BSIZE 0)
    (hne : ptr A s.disk i (slotOf fbn) ≠ 0) : Found A s i fbn (ptr A s.disk i (slotOf fbn)) A s where
  owns := howns
  ext := .refl _ _
  other _ _ _ _ := rfl
  found := rfl
  ne := hne
  lo := hlo
  zero := hzero
  next := .inl rfl
  count := by rw [newBlocks, if_pos hne, Nat.add_zero]
  indirect i' := by
    constructor
    · exact .inl
    · rintro (h | ⟨rfl, h⟩)
      · exact h
      · intro h0
        rw [slotOf, if_neg (by omega), ptr, if_neg (by omega), if_pos h0] at hne
        exact hne rfl
  quiet := .refl s

theorem Found.after_indirect {A1 A' : Addrs} {u s' : Img} {x : ℕ} (hext : Extends A s.disk A1 u.disk)
    (hsame : ∀ i' bn, bn < MAXFILE → ptr A1 u.disk i' (slotOf bn) = ptr A s.disk i' (slotOf bn))
    (hfb : u.freeblock = s.freeblock + 1) (hnull : ptr A s.disk i (slotOf fbn) = 0)
    (hge : NDIRECT ≤ fbn) (hfbn : fbn < MAXFILE) (hind : A i NDIRECT = 0) (hind1 : A1 i NDIRECT ≠ 0)
    (hA1 : ∀ i', i' ≠ i → A1 i' NDIRECT = A i' NDIRECT)
    (hquiet : Quiet s u) (h : Found A1 u i fbn x A' s')
    (hx : s'.freeblock = u.freeblock → x = ptr A s.disk i (slotOf fbn)) :
    Found A s i fbn x A' s' where
  owns := h.owns
  ext := hext.trans h.ext
  other i' bn hbn hne := (h.other i' bn hbn hne).trans (hsame i' bn hbn)
  found := h.found
  ne := h.ne
  lo := h.lo
  zero := h.zero
  next := by
    rcases h.next with hsame' | hnew
    · exact absurd ((hx hsame').trans hnull) h.ne
    · exact .inr hnew
  count := by
    rw [h.count, hfb, newBlocks, newBlocks, hsame i fbn hfbn, if_neg (not_not.mpr hnull),
      if_neg (not_not.mpr hnull), if_neg fun h => hind1 h.2, if_pos ⟨hge, hind⟩]
  indirect i' := by
    rw [h.indirect i']
    by_cases hi : i' = i
    · exact iff_of_true (.inr ⟨hi, hge⟩) (.inr ⟨hi, hge⟩)
    · rw [hA1 i' hi]
  quiet := hquiet.trans h.quiet

/-- The next block is written down in the indirect block. -/
theorem indirect_spec (howns : Owns A s.disk nmeta s.freeblock) (hlo : nmeta ≤ s.freeblock)
    (hhi : s.freeblock ≤ FSSIZE + 1) (hzero : ∀ b, s.freeblock ≤ b → s.disk b = Bytes.fill BSIZE 0)
    (hn : s.nsect = FSSIZE) (hA : A i = din.addrs) (hind : A i NDIRECT ≠ 0) (hfbn : fbn < MAXFILE)
    (hge : ¬ fbn < NDIRECT) (hE : FSSIZE ≤ A i NDIRECT → E) :
    after E (do
      let indirect ← rsect (din.addrs NDIRECT)
      if indirect.word (fbn - NDIRECT) = 0 then
        let b ← nextBlock
        let indirect := indirect.setWord (fbn - NDIRECT) b
        wsectData (din.addrs NDIRECT) indirect
        return (indirect.word (fbn - NDIRECT), din)
      else return (indirect.word (fbn - NDIRECT), din)) s fun r s' =>
        r.2 = din ∧ Found A s i fbn r.1 A s' ∧
          (s'.freeblock = s.freeblock → r.1 = ptr A s.disk i (slotOf fbn)) := by
  have hj : fbn - NDIRECT < NINDIRECT := by
    unfold MAXFILE at hfbn
    omega
  have hword : (s.disk (din.addrs NDIRECT)).word (fbn - NDIRECT) = ptr A s.disk i (slotOf fbn) := by
    rw [slotOf_indirect hge, ptr_entry _ hind, hA]
  refine (rsect_spec (by rw [hn, ← hA]; exact hE)).bind ?_
  rintro ind t ⟨rfl, rfl, hsec⟩
  rw [hword]
  refine .ite (fun hnull => ?_) fun hne => ?_
  swap
  · exact (wpOr_pure _).mpr ⟨rfl, .of_found howns hlo hzero hne, fun _ => rfl⟩
  have hrange := howns.range i NDIRECT ndirect_lt (by rwa [ptr_of_le le_rfl])
  rw [ptr_of_le le_rfl, hA] at hrange
  have hun := unowned_freeblock howns hlo
  obtain ⟨hadd, howns', hext⟩ := (howns.mono (Nat.le_succ _)).setWord hun hlo (Nat.lt_succ_self _)
    (hzero _ le_rfl) hj hind (by rw [hA, hword, hnull]) (by
      have : FSSIZE + 1 < 2 ^ 32 := by decide
      omega)
  unfold nextBlock
  rw [bind_assoc]
  refine wpOr_get_bind.mpr ?_
  rw [bind_assoc]
  refine (wpOr_modify_bind _).mpr ?_
  rw [pure_bind]
  refine wpOr.bind (wsectData_spec (s := { t with freeblock := t.freeblock + 1 }) hrange.1 hsec hn) ?_
  rintro - u ⟨hquiet, hfb, hdisk⟩
  refine (wpOr_pure _).mpr ⟨rfl, ?_, fun heq => absurd (hfb.symm.trans heq) (by simp)⟩
  have hval : ((t.disk (din.addrs NDIRECT)).setWord (fbn - NDIRECT) t.freeblock).word (fbn - NDIRECT) =
      t.freeblock := by
    rw [Block.word_setWord _ (by unfold NINDIRECT BSIZE at hj; omega), if_pos rfl]
    have : FSSIZE + 1 < 2 ^ 32 := by decide
    exact Nat.mod_eq_of_lt (by omega)
  rw [hval]
  rw [hA] at hadd howns' hext
  refine .of_added hlo hzero (slotOf_indirect hge) hfbn hadd howns' hext ?_ hdisk hfb ?_ hnull
    (fun _ => hind) fun _ => rfl
  · intro b hb
    exact update_of_ne (by omega) _ _
  · exact ⟨hquiet.nsect, hquiet.freeinode, hquiet.inodes, hquiet.low, hquiet.written⟩

/-- `iappend` finds or allocates the block of the file. -/
theorem iappendAddr_spec (howns : Owns A s.disk nmeta s.freeblock) (hlo : nmeta ≤ s.freeblock)
    (hhi : s.freeblock ≤ FSSIZE) (hzero : ∀ b, s.freeblock ≤ b → s.disk b = Bytes.fill BSIZE 0)
    (hn : s.nsect = FSSIZE) (hA : A i = din.addrs) (hfbn : fbn < MAXFILE)
    (hE : FSSIZE < s.freeblock + newBlocks A s.disk i fbn → E) :
    after E (iappendAddr din fbn) s fun r s' => r.2 = { din with addrs := r.2.addrs } ∧
      Found A s i fbn r.1 (update A i r.2.addrs) s' := by
  have hself : update A i din.addrs = A := by rw [← hA, update_eq_self]
  have hun := unowned_freeblock howns hlo
  have hadded : ∀ k, k ≤ NDIRECT → din.addrs k = 0 → _ := fun k hk hnull =>
    (howns.mono (Nat.le_succ _)).setAddr (i := i) hun hlo (Nat.lt_succ_self _) (hzero _ le_rfl) hk
      (by rw [hA, hnull])
  unfold iappendAddr
  refine .ite (fun hdir => ?_) fun hge => ?_
  · refine (dinAddr_spec din fbn).bind ?_
    rintro din' s' (⟨hne, rfl, rfl⟩ | ⟨hnull, rfl, rfl⟩)
    · refine (wpOr_pure _).mpr ⟨rfl, ?_⟩
      have hptr : ptr A s'.disk i (slotOf fbn) = din'.addrs fbn := by
        rw [slotOf_direct hdir, ptr_of_le hdir.le, hA]
      rw [hself, ← hptr]
      exact .of_found howns hlo hzero (by rwa [hptr])
    · obtain ⟨hadd, howns', hext⟩ := hadded fbn hdir.le hnull
      refine (wpOr_pure _).mpr ⟨rfl, ?_⟩
      simp only [update_self]
      rw [hA] at hadd howns' hext
      refine .of_added hlo hzero (slotOf_direct hdir) hfbn hadd howns' hext (fun _ _ => rfl) rfl rfl
        ⟨rfl, rfl, rfl, fun _ _ => rfl, fun _ h => .inl h⟩ ?_ (fun h => absurd hdir (by omega)) ?_
      · rw [slotOf_direct hdir, ptr_of_le hdir.le, hA, hnull]
      · intro i'
        by_cases hi : i' = i
        · rw [hi, update_self, update_of_ne (by omega), hA]
        · rw [update_of_ne hi]
  · refine (dinAddr_spec din NDIRECT).bind ?_
    rintro din' s' (⟨hne, rfl, rfl⟩ | ⟨hnull, rfl, rfl⟩)
    · refine (indirect_spec howns hlo (by omega) hzero hn hA (by rwa [hA]) hfbn hge ?_).mono ?_
      · intro hlarge
        have := (howns.range i NDIRECT ndirect_lt (by rwa [ptr_of_le le_rfl, hA])).2
        rw [ptr_of_le le_rfl] at this
        omega
      rintro ⟨x, _⟩ u ⟨rfl, hfound, -⟩
      rw [hself]
      exact ⟨rfl, hfound⟩
    · -- The indirect block is new, and has no entries.
      obtain ⟨hadd, howns', hext⟩ := hadded NDIRECT le_rfl hnull
      rw [hA] at hadd howns' hext
      have hpos : s.freeblock ≠ 0 := by
        have := nmeta_pos
        omega
      have hzeroSlot : ptr A s.disk i (slotOf fbn) = 0 := by
        rw [slotOf_indirect hge, ptr, if_neg (by omega), if_pos (by rw [hA, hnull])]
      refine (indirect_spec (s := { s with freeblock := s.freeblock + 1 }) (i := i) howns' (by simp; omega)
        (by simpa using hhi) (fun b hb => hzero b (by simp at hb; omega)) hn (by simp) (by simp [hpos])
        hfbn hge ?_).mono ?_
      · intro hlarge
        rw [update_self, update_self] at hlarge
        apply hE
        rw [newBlocks, if_neg (not_not.mpr hzeroSlot), if_pos ⟨not_lt.mp hge, by rw [hA, hnull]⟩]
        omega
      rintro ⟨x, _⟩ u ⟨rfl, hfound, hx⟩
      have hsame : ∀ i' bn, bn < MAXFILE →
          ptr (update A i (update din.addrs NDIRECT s.freeblock)) s.disk i' (slotOf bn) =
            ptr A s.disk i' (slotOf bn) := by
        intro i' bn hbn
        rw [hadd i' _ (slotOf_lt hbn), if_neg fun h => slotOf_ne bn h.2]
      refine ⟨rfl, .after_indirect (u := { s with freeblock := s.freeblock + 1 }) hext hsame rfl
        hzeroSlot (not_lt.mp hge) hfbn (by rw [hA, hnull]) (by simp [hpos]) (fun i' hi => ?_)
        ⟨rfl, rfl, rfl, fun _ _ => rfl, fun _ h => .inl h⟩ hfound
        fun h => (hx h).trans (hsame i fbn hfbn)⟩
      rw [update_of_ne hi]

end Addresses

/-! ## Appending -/

section Append

variable {s s' s'' : Img} {A A' : Addrs} {sz : ℕ → ℕ} {c : ℕ → ℕ → UInt8} {i off n m x : ℕ}
  {p : ℕ → UInt8} {din : Inode} {E : Prop}

/-- One turn of the loop of `iappend`: `m` bytes go to the block at offset `off`, which is the end of the
file. -/
theorem Files.turn (h : Files A sz c s) (hoff : sz i = off) (hf : Found A s i (off / BSIZE) x A' s')
    (hbn : off / BSIZE < MAXFILE) (hpos : 0 < m) (hm : m ≤ BSIZE - off % BSIZE) (hx : x < FSSIZE)
    (hq : Quiet s' s'') (hfb : s''.freeblock = s'.freeblock)
    (hdisk : s''.disk = update s'.disk x ((s'.disk x).splice (off % BSIZE) m p)) :
    Files A' (update sz i (off + m)) (update c i (overlay (c i) off m p)) s'' := by
  have hBpos : 0 < BSIZE := by decide
  have hmod : off % BSIZE < BSIZE := Nat.mod_lt _ hBpos
  have hdiv := Nat.div_add_mod off BSIZE
  have hx0 : ptr A' s'.disk i (slotOf (off / BSIZE)) ≠ 0 := by rw [hf.found]; exact hf.ne
  have hptr : ∀ i' k, ptr A' s''.disk i' k = ptr A' s'.disk i' k := by
    intro i' k
    rw [hdisk, ← hf.found]
    exact hf.owns.ptr_write (slotOf_lt hbn) (slotOf_ne _) hx0 i' k
  have hend : off + m ≤ (off / BSIZE + 1) * BSIZE := by
    rw [Nat.add_mul, Nat.mul_comm (off / BSIZE), Nat.one_mul]
    omega
  constructor
  · rw [hq.nsect, hf.quiet.nsect, h.nsect]
  · rw [hfb]
    exact hf.lo
  · rw [hfb]
    rcases hf.next with hsame | hnew
    · rw [hsame]
      exact h.hi
    · omega
  · rw [hfb]
    exact hf.owns.of_ptr_eq fun i' k _ => hptr i' k
  · intro b hb
    have hlt := (hf.owns.range i _ (slotOf_lt hbn) hx0).2
    rw [hf.found] at hlt
    rw [hdisk, update_of_ne (by omega), hf.zero b (by omega)]
  · intro i'
    by_cases hi : i' = i
    · rw [hi, update_self]
      exact hend.trans (Nat.mul_le_mul_right _ hbn)
    · rw [update_of_ne hi]
      exact h.fits i'
  · -- Exactly the block at `off` has been added, if it was not there.
    intro i' bn hbn'
    rw [hptr]
    by_cases hi : i' = i
    · subst hi
      rw [update_self]
      by_cases hsame : bn = off / BSIZE
      · rw [hsame]
        refine iff_of_true hx0 ?_
        rw [Nat.mul_comm]
        omega
      · rw [hf.other i' bn hbn' fun hc => hsame hc.2, h.blocks i' bn hbn', hoff]
        rcases lt_or_gt_of_ne hsame with hlt | hgt
        · have := Nat.mul_le_mul_right BSIZE (Nat.succ_le_of_lt hlt)
          rw [Nat.succ_eq_add_one, Nat.add_mul, Nat.one_mul, Nat.mul_comm (off / BSIZE)] at this
          refine iff_of_true ?_ ?_ <;> omega
        · have := Nat.mul_le_mul_right BSIZE (Nat.succ_le_of_lt hgt)
          rw [Nat.succ_eq_add_one] at this
          refine iff_of_false ?_ ?_ <;> omega
    · rw [hf.other i' bn hbn' fun hc => hi hc.1, h.blocks i' bn hbn', update_of_ne hi]
  · intro i'
    rw [hf.indirect i', h.indirect i']
    by_cases hi : i' = i
    · rw [hi, update_self, hoff]
      clear * - hm hpos
      simp only [show BSIZE = 1024 from rfl, show NDIRECT = 12 from rfl, true_and] at hm ⊢
      omega
    · rw [update_of_ne hi]
      simp [hi]
  · intro i' q hqlt
    have hbefore : byteAt A' s'.disk i' q = if q < sz i' then c i' q else 0 := by
      unfold byteAt
      rw [hf.ext.data i' _ (Nat.div_lt_of_lt_mul (by rwa [Nat.mul_comm]))]
      exact h.bytes i' q hqlt
    have hwrite := hf.owns.byteAt_write i' (p := p) hbn hx0 hm hqlt
    rw [hf.found] at hwrite
    rw [hdisk, hwrite, hbefore]
    by_cases hi : i' = i
    · subst hi
      rw [update_self, update_self, hoff]
      unfold overlay
      by_cases hin : off ≤ q ∧ q < off + m
      · rw [if_pos ⟨rfl, hin⟩, if_pos hin.2, if_pos hin]
      · rw [if_neg fun hc => hin hc.2, if_neg hin]
        refine if_congr ?_ rfl rfl
        omega
    · rw [if_neg fun hc => hi hc.1, update_of_ne hi, update_of_ne hi]

theorem need_mono {a b : ℕ} (h : a ≤ b) : need a ≤ need b := by
  unfold need
  simp only [show BSIZE = 1024 from rfl, show NDIRECT = 12 from rfl]
  split_ifs <;> omega

theorem Files.need_turn (h : Files A sz c s) (hoff : sz i = off) (hbn : off / BSIZE < MAXFILE)
    (hpos : 0 < m) (hm : m ≤ BSIZE - off % BSIZE) :
    need (off + m) = need off + newBlocks A s.disk i (off / BSIZE) := by
  have hblock := h.blocks i _ hbn
  have hind := not_congr (h.indirect i)
  rw [hoff] at hblock hind
  rw [not_not] at hind
  unfold newBlocks need
  simp only [hblock, hind]
  simp only [show BSIZE = 1024 from rfl, show NDIRECT = 12 from rfl] at hm ⊢
  split_ifs <;> omega

/-- The loop of `iappend` appends its bytes to the file. -/
theorem iappendLoop_spec (fuel : ℕ) (hfuel : n ≤ fuel) (h : Files A sz c s) (hA : A i = din.addrs)
    (hoff : sz i = off)
    (hE : FSSIZE < s.freeblock + (need (off + n) - need off) ∨ MAXFILE * BSIZE < off + n → E) :
    after E (iappendLoop fuel p n off din) s fun r s' => r.1 = off + n ∧
      r.2 = { din with addrs := r.2.addrs } ∧ Quiet s s' ∧
      s'.freeblock = s.freeblock + (need (off + n) - need off) ∧
      Files (update A i r.2.addrs) (update sz i (off + n))
        (update c i (overlay (c i) off n p)) s' := by
  -- Each turn appends the bytes up to the end of a block; the rest are appended by the turns after it.
  have hdone : ∀ {A : Addrs} {sz : ℕ → ℕ} {c : ℕ → ℕ → UInt8} {s : Img} {off : ℕ} {din : Inode}
      {p : ℕ → UInt8}, Files A sz c s → A i = din.addrs → sz i = off →
      off = off + 0 ∧ din = { din with addrs := din.addrs } ∧ Quiet s s ∧
        s.freeblock = s.freeblock + (need (off + 0) - need off) ∧
        Files (update A i din.addrs) (update sz i (off + 0))
          (update c i (overlay (c i) off 0 p)) s := by
    intro A sz c s off din p h hA hoff
    refine ⟨rfl, rfl, .refl s, by simp, ?_⟩
    rw [← hA, Nat.add_zero, ← hoff, overlay_zero, update_eq_self, update_eq_self,
      update_eq_self]
    exact h
  induction fuel generalizing A sz c s off n p din with
  | zero =>
    obtain rfl : n = 0 := by omega
    exact (wpOr_pure _).mpr (hdone h hA hoff)
  | succ fuel ih =>
    rw [iappendLoop]
    have hBpos : 0 < BSIZE := by decide
    refine .ite (fun hn => ?_) fun hn => .ite (fun hbn => ?_) fun hbn => ?_
    · subst hn
      exact (wpOr_pure _).mpr (hdone h hA hoff)
    · refine wpOr_throw.mpr (hE (.inr ?_))
      have := (Nat.le_div_iff_mul_le hBpos).mp hbn
      omega
    have hmod : off % BSIZE < BSIZE := Nat.mod_lt _ hBpos
    have hdiv := Nat.div_add_mod off BSIZE
    have hrest : (off / BSIZE + 1) * BSIZE - off = BSIZE - off % BSIZE := by
      rw [Nat.add_mul, Nat.one_mul, Nat.mul_comm]
      omega
    have hstart : off - off / BSIZE * BSIZE = off % BSIZE := by
      rw [Nat.mul_comm]
      omega
    -- The blocks of this turn are among those of the whole append.
    have hneed := h.need_turn hoff (not_le.mp hbn) (m := min n (BSIZE - off % BSIZE)) (by omega) (by omega)
    have hmono := need_mono (show off + min n (BSIZE - off % BSIZE) ≤ off + n by omega)
    refine (iappendAddr_spec h.owns h.lo h.hi h.zero h.nsect hA (not_le.mp hbn) fun hfull =>
      hE (.inl (by omega))).bind ?_
    rintro ⟨x, din'⟩ s' ⟨hdin, hf⟩
    have hcount := hf.count
    refine (rsect_spec (fun hlarge => hE (.inl ?_))).bind ?_
    · rw [hf.quiet.nsect, h.nsect] at hlarge
      have hrange := hf.owns.range i _ (slotOf_lt (not_le.mp hbn)) (by rw [hf.found]; exact hf.ne)
      rw [hf.found] at hrange
      omega
    rintro buf t ⟨rfl, rfl, hx⟩
    rw [hf.quiet.nsect, h.nsect] at hx
    have hrange := hf.owns.range i _ (slotOf_lt (not_le.mp hbn)) (by rw [hf.found]; exact hf.ne)
    rw [hf.found] at hrange
    refine (wsectData_spec hrange.1 (by rw [hf.quiet.nsect, h.nsect]; exact hx)
      (by rw [hf.quiet.nsect, h.nsect])).bind ?_
    rintro - u ⟨hquiet, hfb, hdisk⟩
    simp only [hrest, hstart] at hdisk ⊢
    generalize hm : min n (BSIZE - off % BSIZE) = m at hdisk hneed hmono ⊢
    have hturn := h.turn hoff hf (not_le.mp hbn) (m := m) (by omega) (by omega) hx hquiet hfb hdisk
    have hsum : off + m + (n - m) = off + n := by omega
    refine (ih (by omega) hturn (by rw [update_self]) (by rw [update_self]) ?_).mono ?_
    · rw [hsum]
      rintro (hfull | hlarge)
      · exact hE (.inl (by omega))
      · exact hE (.inr hlarge)
    rintro ⟨off', din''⟩ v ⟨hoff', hdin'', hquiet', hfb', hfiles⟩
    refine ⟨?_, ?_, (hf.quiet.trans hquiet).trans hquiet', ?_, ?_⟩
    · simp only at hoff'
      omega
    · simp only at hdin hdin'' ⊢
      rw [hdin'', hdin]
    · rw [hsum] at hfb'
      omega
    · rw [update_idem, update_idem, update_idem, update_self,
        overlay_append, Nat.add_assoc, Nat.add_sub_cancel' (by omega : m ≤ n)] at hfiles
      exact hfiles

end Append

end Xv6.Mkfs
