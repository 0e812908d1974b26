import Xv6.Process.RefExec
import Xv6.Process.Tables

/-!
# `exec` makes the image it should

The specification of `exec` and `sys_exec`. A new address space is built beside the old one; if that
succeeds, its image is the one of `Ref.exec` and the old one is freed, and if not, the new one is freed
and the old one is as it was. The only failures that `Ref.exec` does not have come from running out of
memory.
-/

namespace Xv6.Process

open Function Lib
open Xv6.Vm

/-! ## Loading -/

section Load

variable {L : Layout} {s : Phys} {T : Tree} {n m i sz offset va v₀ k off : ℕ} {top f : ℕ → ℕ}
  {elf : File}

/-- Nobody else owns pages of the table. -/
def Alone (T : Tree) (f : ℕ → ℕ) : Prop := ∀ q, f q ≠ 0 → T.user q = 0

/-- The pages below `n` are there for the user. -/
def AllUser (img : Image) (n : ℕ) : Prop := ∀ v, v < n → (img v).map View.user = some true

theorem Alone.of_local {s' : Phys} {T' : Tree} (h : Alone T f) (hl : Local f s T s' T') :
    Alone T' f := fun q hq => Nat.le_zero.mp ((hl.user q hq).trans_eq (h q hq))

theorem Alone.rest_eq_zero (ha : Alone T f) (h : Space L s T n top f) {v : ℕ} (hv : v < n) :
    f (ppn (T.leaf v)) = 0 := by
  by_contra hne
  exact h.user_ne_zero hv (ha _ hne)

theorem AllUser.leaf (h : Space L s T n top f) (hu : AllUser (T.image s.mem) n) {v : ℕ}
    (hv : v < n) : (T.leaf v).testBit 4 = true := by
  have := hu v hv
  rw [h.image_of_lt hv] at this
  simpa using this

theorem AllUser.of_leaf (h : Space L s T n top f) (hu : ∀ v, v < n → (T.leaf v).testBit 4 = true) :
    AllUser (T.image s.mem) n := by
  intro v hv
  rw [h.image_of_lt hv, Option.map_some, hu v hv]

theorem AllUser.grow {img : Image} {xperm : ℕ} (hu : AllUser img n) :
    AllUser (img.grow n m xperm) m := by
  intro v hv
  unfold Image.grow
  split_ifs with h
  · rfl
  · exact hu v (by omega)

/-- The loop of `loadseg` over pages that are there reads what the file has. -/
theorem loadLoop_spec (h : Space L s T n top f) (htop : TopOk top) (ha : Alone T f)
    (hu : ∀ v, v < n → (T.leaf v).testBit 4 = true) (hva : va = v₀ * PGSIZE)
    (hrange : va + sz ≤ n * PGSIZE) (hi : i = k * PGSIZE) (hm : i + m * PGSIZE < sz + PGSIZE) :
    wp (loadLoop (T.root * PGSIZE) va elf offset sz m i) s fun r s' => Space L s' T n top f ∧
      Local f s T s' T ∧ s'.oom = s.oom ∧
        (r = if (Ref.loadLoop va elf offset sz m i (T.image s.mem)).1 then 0 else -1) ∧
        T.image s'.mem = (Ref.loadLoop va elf offset sz m i (T.image s.mem)).2 := by
  induction m generalizing s i k with
  | zero =>
    rw [loadLoop, wp_pure]
    exact ⟨h, .refl f s T, rfl, rfl, rfl⟩
  | succ m ih =>
    have hpage : (va + i) / PGSIZE = v₀ + k := by
      rw [hva, hi, ← Nat.add_mul, mul_div_pgsize]
    have hround : pgRoundDown (va + i) = va + i := by
      rw [pgRoundDown, hpage, hva, hi, Nat.add_mul]
    have hv : v₀ + k < n := by
      subst hva hi
      unfold PGSIZE at *
      omega
    have hleaf := hu _ hv
    have hcond : (va + i) / PGSIZE < n ∧ (T.leaf ((va + i) / PGSIZE)).testBit 4 = true := by
      rw [hpage]
      exact ⟨hv, hleaf⟩
    rw [loadLoop, wp_bind, ← hround, wp_walkaddr h htop, if_pos hcond, hpage,
      if_neg (Nat.mul_ne_zero (h.inRam hv).pos pgsize_pos.ne')]
    simp only
    rw [← Nat.add_zero (ppn (T.leaf (v₀ + k)) * PGSIZE), wp_bind, wp_writeBytes pgsize_pos]
    obtain ⟨hs, hl⟩ := h.write hv (ha.rest_eq_zero h hv)
      ((s.mem (ppn (T.leaf (v₀ + k)))).splice 0 (elf.readi ((offset + i) % 2 ^ 32)
        (min (sz - i) PGSIZE)) fun j => elf.byte ((offset + i) % 2 ^ 32 + j))
    rw [Ref.loadLoop]
    simp only [hpage]
    rw [← h.image_write hv]
    by_cases hshort : elf.readi ((offset + i) % 2 ^ 32) (min (sz - i) PGSIZE) ≠ min (sz - i) PGSIZE
    · rw [if_pos hshort, if_pos hshort, wp_pure]
      exact ⟨hs, hl, rfl, rfl, rfl⟩
    · rw [if_neg hshort, if_neg hshort]
      refine wp.mono (ih hs (k := k + 1) (by rw [hi]; ring) ?_) ?_
      · rw [Nat.add_mul, one_mul] at hm
        omega
      · rintro r s' ⟨hs', hl', hoom, hr, himg⟩
        exact ⟨hs', hl.trans hl', hoom, hr, himg⟩

theorem flags2perm_lt (flags : ℕ) : flags2perm flags < 256 := by
  unfold flags2perm
  split_ifs <;> decide

/-- `loadseg` writes the bytes of the file to the pages of the segment. -/
theorem loadseg_spec (h : Space L s T n top f) (htop : TopOk top) (ha : Alone T f)
    (hu : ∀ v, v < n → (T.leaf v).testBit 4 = true) (hva : va = v₀ * PGSIZE)
    (hrange : va + sz ≤ n * PGSIZE) :
    wp (loadseg (T.root * PGSIZE) va elf offset sz) s fun r s' => Space L s' T n top f ∧
      Local f s T s' T ∧ s'.oom = s.oom ∧
        (r = if (Ref.loadseg (T.image s.mem) va elf offset sz).1 then 0 else -1) ∧
        T.image s'.mem = (Ref.loadseg (T.image s.mem) va elf offset sz).2 := by
  have hle := Nat.mod_le sz (2 ^ 32)
  unfold loadseg Ref.loadseg
  refine loadLoop_spec (k := 0) h htop ha hu hva (by omega) (by rw [zero_mul]) ?_
  unfold PGSIZE
  omega

theorem Proghdr.of_ok {ph : Proghdr} (h : ph.ok = true) :
    ph.filesz ≤ ph.memsz ∧ ph.vaddr % PGSIZE = 0 := by
  simp only [Proghdr.ok, Bool.and_eq_true, Bool.not_eq_true', decide_eq_false_iff_not, not_lt,
    decide_eq_true_eq] at h
  exact ⟨h.1.1, h.2⟩

/-- The loop over the program headers, unless memory runs out. -/
theorem loadSegments_spec (h : Space L s T (npages sz) top f) (htop : TopOk top) (ha : Alone T f)
    (hu : AllUser (T.image s.mem) (npages sz)) :
    wp (loadSegments L (T.root * PGSIZE) elf m off sz) s fun r s' => ∃ T',
      Space L s' T' (npages r.2) top f ∧ Local f s T s' T' ∧
        (s'.oom = s.oom ∧ AllUser (T'.image s'.mem) (npages r.2) ∧
            (r.1, r.2, T'.image s'.mem) = Ref.loadSegments elf m off sz (T.image s.mem) ∨
          r.1 = false ∧ s'.oom = true) := by
  induction m generalizing s T off sz with
  | zero =>
    rw [loadSegments, wp_pure]
    exact ⟨T, h, .refl f s T, .inl ⟨rfl, hu, rfl⟩⟩
  | succ m ih =>
    have hstay : ∃ T', Space L s T' (npages sz) top f ∧ Local f s T s T' ∧
        (s.oom = s.oom ∧ AllUser (T'.image s.mem) (npages sz) ∧
            (false, sz, T'.image s.mem) = (false, sz, T.image s.mem) ∨
          false = false ∧ s.oom = true) := ⟨T, h, .refl f s T, .inl ⟨rfl, hu, rfl⟩⟩
    rw [loadSegments, Ref.loadSegments]
    simp only
    by_cases hread : elf.readi off proghdrSize ≠ proghdrSize
    · rw [if_pos hread, if_pos hread]
      exact (wp_pure _).mpr hstay
    rw [if_neg hread, if_neg hread]
    by_cases htype : (elf.proghdr off).type ≠ ELF_PROG_LOAD
    · rw [if_pos htype, if_pos htype]
      exact ih h ha hu
    rw [if_neg htype, if_neg htype]
    by_cases hok : (!(elf.proghdr off).ok) = true
    · rw [if_pos hok, if_pos hok]
      exact (wp_pure _).mpr hstay
    · -- A segment to load.
      rw [if_neg hok, if_neg hok]
      set ph := elf.proghdr off with hph
      refine (uvmalloc_spec h (flags2perm_lt _)).bind ?_
      rintro r t ⟨T1, hl1, ⟨hr, hoom1, h1, himg1⟩ | ⟨rfl, hoom1, h1, himg1⟩⟩
      swap
      · rw [if_pos rfl, wp_pure]
        exact ⟨T1, h1, hl1, .inr ⟨rfl, hoom1⟩⟩
      have halloc : Ref.alloc (T.image s.mem) sz (ph.vaddr + ph.memsz) (flags2perm ph.flags) =
          (r, T1.image t.mem) := by
        rw [Ref.alloc, ← hr, himg1]
      rw [halloc]
      simp only
      have hu1 : AllUser (T1.image t.mem) (npages r) := himg1 ▸ hu.grow
      by_cases hzero : r = 0
      · rw [if_pos hzero, if_pos hzero, wp_pure]
        -- Nothing was allocated.
        have hsz : sz = 0 ∧ ph.vaddr + ph.memsz = 0 := by omega
        have hr0 : npages r = npages sz := by rw [hzero, hsz.1]
        rw [hr0] at h1 hu1 himg1
        exact ⟨T1, h1, hl1, .inl ⟨hoom1, hu1, by rw [himg1, grow_self]⟩⟩
      rw [if_neg hzero, if_neg hzero]
      obtain ⟨hmem, halign⟩ := Proghdr.of_ok (show ph.ok = true by simpa using hok)
      have hva : ph.vaddr = ph.vaddr / PGSIZE * PGSIZE :=
        (Nat.div_mul_cancel (Nat.dvd_of_mod_eq_zero halign)).symm
      have hrange : ph.vaddr + ph.filesz ≤ npages r * PGSIZE := by
        have := le_npages_mul r
        omega
      rw [← hl1.root]
      refine (loadseg_spec h1 htop (ha.of_local hl1) (fun v hv => AllUser.leaf h1 hu1 hv) hva
        hrange).bind ?_
      rintro r2 u ⟨h2, hl2, hoom2, hr2, himg2⟩
      have hu2 : AllUser (T1.image u.mem) (npages r) :=
        AllUser.of_leaf h2 fun v hv => AllUser.leaf h1 hu1 hv
      rw [← himg2]
      cases hl : (Ref.loadseg (T1.image t.mem) ph.vaddr elf ph.off ph.filesz).1 with
      | false =>
        rw [hl] at hr2
        rw [if_pos (by rw [hr2]; decide), wp_pure, if_pos (by rfl)]
        exact ⟨T1, h2, hl1.trans hl2, .inl ⟨hoom2.trans hoom1, hu2, rfl⟩⟩
      | true =>
        rw [hl] at hr2
        rw [if_neg (by rw [hr2]; decide), if_neg (by decide)]
        refine wp.mono (ih h2 ((ha.of_local hl1).of_local hl2) hu2) ?_
        rintro r3 w ⟨T3, h3, hl3, hcase⟩
        refine ⟨T3, h3, (hl1.trans hl2).trans hl3, ?_⟩
        rcases hcase with ⟨hoom3, hrest⟩ | hfail
        · exact .inl ⟨hoom3.trans (hoom2.trans hoom1), hrest⟩
        · exact .inr hfail

end Load

/-! ## Building the new image -/

section Build

variable {L : Layout} {s : Phys} {T : Tree} {n sp stackbase : ℕ} {top f : ℕ → ℕ} {elf : File}
  {acc ustack : List ℕ}

/-- The addresses of pages. -/
def addrs (l : List ℕ) : List ℕ := l.map (· * PGSIZE)

/-- `copyout`, as `exec` uses it: its result is negative exactly if the image's is. -/
theorem copyout_spec (h : Space L s T n top f) (htop : TopOk top) (dstva : ℕ) (src : ℕ → UInt8)
    (len : ℕ) :
    wp (copyout L (T.root * PGSIZE) dstva src len) s fun r s' => ∃ T',
      Space L s' T' n top f ∧ Local f s T s' T' ∧
        (s'.oom = s.oom ∧ (r, T'.image s'.mem) = (T.image s.mem).copyout len dstva src len ∨
          r = -1 ∧ s'.oom = true) :=
  copyoutLoop_spec h htop le_rfl

/-- The loop of `exec` over the arguments, which are in pages held by the kernel. -/
theorem pushArgs_spec (h : Space L s T n top f) (htop : TopOk top) (hacc : ∀ a ∈ acc, f a ≠ 0) :
    wp (pushArgs L (T.root * PGSIZE) stackbase (addrs acc) sp ustack) s fun r s' => ∃ T',
      Space L s' T' n top f ∧ Local f s T s' T' ∧
        (s'.oom = s.oom ∧ Ref.pushArgs stackbase (acc.map s.mem) sp ustack (T.image s.mem) =
            r.map (fun x => (x.1, x.2, T'.image s'.mem)) ∨
          r = none ∧ s'.oom = true) := by
  induction acc generalizing s T sp ustack with
  | nil =>
    rw [addrs, List.map_nil, pushArgs, wp_pure]
    exact ⟨T, h, .refl f s T, .inl ⟨rfl, rfl⟩⟩
  | cons a acc ih =>
    rw [addrs, List.map_cons, pushArgs, List.map_cons, Ref.pushArgs]
    by_cases hlen : ustack.length ≥ MAXARG
    · rw [if_pos hlen, if_pos hlen, wp_pure]
      exact ⟨T, h, .refl f s T, .inl ⟨rfl, rfl⟩⟩
    rw [if_neg hlen, if_neg hlen]
    simp only [wp_bind, wp_get, mul_div_pgsize]
    by_cases hsp : pushDown sp (strlen (s.mem a) + 1) < stackbase
    · rw [if_pos hsp, if_pos hsp, wp_pure]
      exact ⟨T, h, .refl f s T, .inl ⟨rfl, rfl⟩⟩
    rw [if_neg hsp, if_neg hsp]
    refine (copyout_spec h htop _ _ _).bind ?_
    rintro r t ⟨T1, h1, hl1, ⟨hoom1, heq⟩ | ⟨rfl, hoom1⟩⟩
    swap
    · rw [if_pos (by decide), wp_pure]
      exact ⟨T1, h1, hl1, .inr ⟨rfl, hoom1⟩⟩
    rw [← heq]
    by_cases hneg : r < 0
    · rw [if_pos hneg, if_pos hneg, wp_pure]
      exact ⟨T1, h1, hl1, .inl ⟨hoom1, rfl⟩⟩
    rw [if_neg hneg, if_neg hneg, ← hl1.root]
    -- The pages of the other arguments are unchanged.
    have hpages : acc.map s.mem = acc.map t.mem :=
      List.map_congr_left fun b hb => (hl1.keeps b (hacc b (by simp [hb]))).symm
    rw [hpages]
    refine wp.mono (ih h1 fun b hb => hacc b (by simp [hb])) ?_
    rintro r' u ⟨T2, h2, hl2, ⟨hoom2, heq2⟩ | hfail⟩
    · exact ⟨T2, h2, hl1.trans hl2, .inl ⟨hoom2.trans hoom1, heq2⟩⟩
    · exact ⟨T2, h2, hl1.trans hl2, .inr hfail⟩

/-- The new address space has the image of `Ref.buildImage`, or memory ran out. -/
theorem buildImage_spec (h : Space L s T 0 top f) (htop : TopOk top) (hacc : ∀ a ∈ acc, f a ≠ 0) :
    wp (buildImage L (T.root * PGSIZE) elf (addrs acc)) s fun r s' => ∃ T',
      Space L s' T' (npages r.1) top f ∧ Local f s T s' T' ∧
        (s'.oom = s.oom ∧ Ref.buildImage elf (acc.map s.mem) =
            r.2.map (fun _ => (r.1, T'.image s'.mem)) ∨
          r.2 = none ∧ s'.oom = true) := by
  have huser : T.user = 0 := Finset.sum_eq_zero fun v hv => by
    rw [h.unmapped v (Nat.zero_le _) (Finset.mem_range.mp hv), own_zero]
  have hempty : T.image s.mem = Image.empty := funext fun v => h.image_of_le (Nat.zero_le _) _
  unfold buildImage Ref.buildImage
  rw [← npages_zero] at h
  refine (loadSegments_spec h htop (fun q _ => by rw [huser]; rfl)
    (fun v hv => absurd hv (by rw [npages_zero]; exact Nat.not_lt_zero v))).bind ?_
  rintro ⟨ok, sz⟩ t ⟨T1, h1, hl1, ⟨hoom1, -, heq⟩ | ⟨hok, hoom1⟩⟩
  swap
  · obtain rfl : ok = false := hok
    simp only
    rw [if_pos (by rfl), wp_pure]
    exact ⟨T1, h1, hl1, .inr ⟨rfl, hoom1⟩⟩
  rw [hempty] at heq
  rw [← heq]
  simp only at h1 ⊢
  cases ok with
  | false =>
    rw [if_pos (by rfl), if_pos (by rfl), wp_pure]
    exact ⟨T1, h1, hl1, .inl ⟨hoom1, rfl⟩⟩
  | true =>
  rw [if_neg (by decide), if_neg (by decide)]
  -- The stack: two pages, the first of which is a guard.
  have hround := pgRoundUp_eq h1.lt_ram
  rw [hround]
  rw [← npages_mul (npages sz)] at h1
  have hpages : acc.map s.mem = acc.map t.mem :=
    List.map_congr_left fun b hb => (hl1.keeps b (hacc b hb)).symm
  rw [← hl1.root]
  refine (uvmalloc_spec h1 (by decide)).bind ?_
  rintro r u ⟨T2, hl2, ⟨hr, hoom2, h2, himg2⟩ | ⟨rfl, hoom2, h2, himg2⟩⟩
  swap
  · rw [if_pos rfl, wp_pure]
    exact ⟨T2, h2, hl1.trans hl2, .inr ⟨rfl, hoom2⟩⟩
  have hr' : r = (npages sz + 2) * PGSIZE := by
    rw [hr, Nat.add_mul]
    omega
  have halloc : Ref.alloc (T1.image t.mem) (npages sz * PGSIZE) (npages sz * PGSIZE + 2 * PGSIZE)
      PTE_W = (r, T2.image u.mem) := by
    rw [Ref.alloc, ← hr, himg2]
  rw [halloc]
  simp only
  have hguard : r - 2 * PGSIZE = npages sz * PGSIZE := by
    rw [hr', Nat.add_mul]
    omega
  rw [if_neg (by rw [hr']; exact Nat.mul_ne_zero (by omega) pgsize_pos.ne'), hguard, ← hl2.root]
  have hlt : npages sz < npages r := by
    rw [hr', npages_mul]
    omega
  refine (uvmclear_spec h2 hlt).bind ?_
  rintro - w ⟨T3, h3, hl3, himg3, hoom3⟩
  have hl := (hl1.trans hl2).trans hl3
  have hoom := hoom3.trans (hoom2.trans hoom1)
  have hpages' : acc.map s.mem = acc.map w.mem :=
    List.map_congr_left fun b hb => (hl.keeps b (hacc b hb)).symm
  rw [mul_div_pgsize, ← himg3, hpages', ← hl3.root]
  refine (pushArgs_spec h3 htop hacc).bind ?_
  rintro o x ⟨T4, h4, hl4, ⟨hoom4, heq4⟩ | ⟨rfl, hoom4⟩⟩
  swap
  · simp only
    rw [wp_pure]
    exact ⟨T4, h4, hl.trans hl4, .inr ⟨rfl, hoom4⟩⟩
  rw [heq4]
  match o with
  | none =>
    simp only [wp_pure]
    exact ⟨T4, h4, hl.trans hl4, .inl ⟨hoom4.trans hoom, rfl⟩⟩
  | some (sp, ustack) =>
    simp only [Option.map_some]
    by_cases hsp : pushDown sp ((ustack.length + 1) * 8) < r - PGSIZE
    · rw [if_pos hsp, if_pos hsp, wp_pure]
      exact ⟨T4, h4, hl.trans hl4, .inl ⟨hoom4.trans hoom, rfl⟩⟩
    rw [if_neg hsp, if_neg hsp, ← hl4.root]
    refine (copyout_spec h4 htop _ _ _).bind ?_
    rintro r5 y ⟨T5, h5, hl5, ⟨hoom5, heq5⟩ | ⟨rfl, hoom5⟩⟩
    swap
    · rw [if_pos (by decide), wp_pure]
      exact ⟨T5, h5, (hl.trans hl4).trans hl5, .inr ⟨rfl, hoom5⟩⟩
    rw [← heq5]
    have hoom' := hoom5.trans (hoom4.trans hoom)
    by_cases hneg : r5 < 0
    · rw [if_pos hneg, if_pos hneg, wp_pure]
      exact ⟨T5, h5, (hl.trans hl4).trans hl5, .inl ⟨hoom', rfl⟩⟩
    · rw [if_neg hneg, if_neg hneg, wp_pure]
      exact ⟨T5, h5, (hl.trans hl4).trans hl5, .inl ⟨hoom', rfl⟩⟩

end Build

/-! ## `exec` -/

/-- What `exec` does to a process with its trapframe in page `tf`: it changes no page that others own
but the trapframe, and takes none. -/
structure Replaces (tf : ℕ) (f : ℕ → ℕ) (s : Phys) (T : Tree) (s' : Phys) (T' : Tree) : Prop where
  keeps : ∀ q, f q ≠ 0 → q ≠ tf → s'.mem q = s.mem q
  user : ∀ q, f q ≠ 0 → T'.user q ≤ T.user q

section Exec

variable {L : Layout} {s s' : Phys} {T : Tree} {n m sz tf uargv : ℕ} {top f : ℕ → ℕ}
  {file : Option File} {acc : List ℕ}

theorem Space.restore (h : Space L s T n top f) (hacct : Acct L s' (T.pt + T.user + f))
    (hk : Keeps (T.pt + T.user + f) s s') : Space L s' T n top f ∧ Keeps (T.user + f) s s' := by
  refine ⟨h.frame (by rwa [← add_assoc]) (fun q hq => hk q ?_) (fun q hq => ?_) h.priv,
    hk.mono fun q hq => ?_⟩
  · simp only [Pi.add_apply]
    omega
  · by_contra hne
    exact hq (h.pt_eq_zero (.inr hne))
  · simp only [Pi.add_apply] at hq ⊢
    omega

theorem Space.discard {C : Tree} (hc : Space L s C m top (T.pt + T.user + f))
    (hacct : Acct L s' (C.pt + C.user + f)) (hk : Keeps (C.pt + C.user + f) s s') :
    Space L s' C m top f ∧ C.image s'.mem = C.image s.mem := by
  refine ⟨hc.frame (by rwa [← add_assoc]) (fun q hq => hk q ?_) (fun q hq => ?_) fun v hv hw => ?_,
    Tree.image_congr rfl fun q hq => hk q ?_⟩
  · simp only [Pi.add_apply]
    omega
  · by_contra hne
    exact hq (hc.pt_eq_zero (.inr (by simp only [Pi.add_apply]; omega)))
  · have := hc.priv v hv hw
    simp only [Pi.add_apply] at this
    omega
  · simp only [Pi.add_apply]
    omega

/-- `exec`: the new program, or the old one if there is none or no memory for it. -/
theorem exec_spec (h : Space L s T (npages sz) (topEntries L tf) f) (htf : f tf ≠ 0)
    (hlt : tf < 2 ^ 44) (hacc : ∀ a ∈ acc, f a ≠ 0) :
    wp (exec L (tf * PGSIZE) (T.root * PGSIZE) sz file (addrs acc)) s fun r s' => ∃ T',
      r.2.1 = T'.root * PGSIZE ∧ Space L s' T' (npages r.2.2) (topEntries L tf) f ∧
        Replaces tf f s T s' T' ∧
        (s'.oom = s.oom ∧ (r.2.2, T'.image s'.mem) =
            (Ref.exec file (acc.map s.mem)).getD (sz, T.image s.mem) ∨ s'.oom = true) := by
  have hstay : ∀ t, Space L t T (npages sz) (topEntries L tf) f → Keeps (T.user + f) s t →
      (t.oom = s.oom ∧ Ref.exec file (acc.map s.mem) = none ∨ t.oom = true) → ∃ T' : Tree,
      T.root * PGSIZE = T'.root * PGSIZE ∧ Space L t T' (npages sz) (topEntries L tf) f ∧
        Replaces tf f s T t T' ∧
        (t.oom = s.oom ∧ (sz, T'.image t.mem) =
            (Ref.exec file (acc.map s.mem)).getD (sz, T.image s.mem) ∨ t.oom = true) := by
    intro t ht hk hcase
    refine ⟨T, rfl, ht, ⟨fun q hq _ => hk q ?_, fun q _ => le_rfl⟩, ?_⟩
    · rw [Pi.add_apply]
      omega
    · rcases hcase with ⟨hoom, hnone⟩ | hoom
      · refine .inl ⟨hoom, ?_⟩
        rw [hnone, Option.getD_none, Tree.image_congr rfl fun q hq => hk q ?_]
        rw [Pi.add_apply]
        omega
      · exact .inr hoom
  cases file with
  | none =>
    rw [exec, wp_pure]
    exact hstay s h (.refl _ s) (.inl ⟨rfl, rfl⟩)
  | some elf =>
  have href : Ref.exec (some elf) (acc.map s.mem) =
      if elf.readi 0 64 ≠ 64 then none else if elf.word 0 4 ≠ ELF_MAGIC then none
      else Ref.buildImage elf (acc.map s.mem) := rfl
  rw [exec]
  by_cases hread : elf.readi 0 64 ≠ 64
  · rw [if_pos hread] at href ⊢
    rw [wp_pure]
    exact hstay s h (.refl _ s) (.inl ⟨rfl, href⟩)
  by_cases hmagic : elf.word 0 4 ≠ ELF_MAGIC
  · rw [if_neg hread, if_pos hmagic] at href ⊢
    rw [wp_pure]
    exact hstay s h (.refl _ s) (.inl ⟨rfl, href⟩)
  rw [if_neg hread, if_neg hmagic] at href ⊢
  have hacct := h.has.acct
  rw [← add_assoc] at hacct
  refine (procPagetable_spec hacct hlt).bind ?_
  rintro r t (⟨rfl, ht, hk, hoom⟩ | ⟨C, rfl, hC, ht, hk, hoom⟩)
  · rw [if_pos rfl, wp_pure]
    obtain ⟨h', hk'⟩ := Space.restore h ht hk
    exact hstay t h' hk' (.inr hoom)
  rw [if_neg (Nat.mul_ne_zero hC pgsize_pos.ne')]
  have hle : ∀ q, f q ≠ 0 → (T.pt + T.user + f) q ≠ 0 := fun q hq => by
    simp only [Pi.add_apply]
    omega
  have hpages : acc.map s.mem = acc.map t.mem :=
    List.map_congr_left fun b hb => (hk b (hle b (hacc b hb))).symm
  refine (buildImage_spec ht topOk_topEntries fun a ha => hle a (hacc a ha)).bind ?_
  rintro ⟨sz', o⟩ u ⟨C', hu, hl, hcase⟩
  simp only at hu hcase
  have hkeep := hk.trans hl.keeps
  match o with
  | none =>
    -- The new address space is freed.
    simp only
    rw [← hl.root]
    refine (procFreepagetable_spec hu).bind ?_
    rintro - w ⟨hw, hkw, hoomw⟩
    rw [wp_pure]
    obtain ⟨h', hk'⟩ := Space.restore h hw (hkeep.trans hkw)
    refine hstay w h' hk' ?_
    rcases hcase with ⟨hoomu, hnone⟩ | ⟨-, hoomu⟩
    · rw [← hpages] at hnone
      exact .inl ⟨hoomw.trans (hoomu.trans hoom), by rw [href, hnone]; rfl⟩
    · exact .inr (hoomw.trans hoomu)
  | some (sp, argc) =>
    -- Nobody but `exec` sees the new user pages, so the trapframe is not among them.
    have huser : ∀ q, (T.pt + T.user + f) q ≠ 0 → C'.user q = 0 := by
      intro q hq
      refine Nat.le_zero.mp ((hl.user q hq).trans_eq ?_)
      by_contra hne
      obtain ⟨v, hv, hvalid, -⟩ := Tree.user_ne_zero.mp hne
      rw [ht.unmapped v (Nat.zero_le _) hv] at hvalid
      simp at hvalid
    simp only [wp_bind, show tfA1 = 8 * 15 from rfl, show tfEpc = 8 * 3 from rfl,
      show tfSp = 8 * 6 from rfl, wp_store64 (show 15 < 512 by decide),
      wp_store64 (show 3 < 512 by decide), wp_store64 (show 6 < 512 by decide)]
    have hT := hle tf htf
    set u' := ((u.write tf _).write tf _).write tf _ with hu'
    have hspace : Space L u' C' (npages sz') (topEntries L tf) (T.pt + T.user + f) :=
      ((hu.writeHeld hT _).writeHeld hT _).writeHeld hT _
    have hmem : ∀ q, q ≠ tf → u'.mem q = u.mem q := fun q hq => by
      rw [hu', Phys.write_of_ne hq, Phys.write_of_ne hq, Phys.write_of_ne hq]
    have hold : Space L u' T (npages sz) (topEntries L tf) (C'.pt + C'.user + f) := by
      refine h.beside hspace (fun q hq => ?_) (fun q hq => ?_) fun v hv hw => ?_
      · rw [hmem q (by rintro rfl; exact hq (h.pt_eq_zero (.inr htf)))]
        exact hkeep q (by simp only [Pi.add_apply]; omega)
      · have hf : f q = 0 := by
          by_contra hne
          exact hq (h.pt_eq_zero (.inr hne))
        rw [hf, huser q (by simp only [Pi.add_apply]; omega)]
      · have := h.user_ne_zero hv
        rw [h.priv v hv hw, huser _ (by simp only [Pi.add_apply]; omega)]
    refine (procFreepagetable_spec hold).mono ?_
    rintro - w ⟨hw, hkw, hoomw⟩
    rw [wp_pure]
    obtain ⟨h', himg⟩ := Space.discard hspace hw hkw
    refine ⟨C', by rw [hl.root], h', ⟨fun q hq hqtf => ?_, fun q hq => ?_⟩, ?_⟩
    · rw [hkw q (by simp only [Pi.add_apply]; omega), hmem q hqtf, hkeep q (hle q hq)]
    · rw [huser q (hle q hq)]
      exact Nat.zero_le _
    · rcases hcase with ⟨hoomu, hsome⟩ | ⟨hnone, -⟩
      · rw [← hpages] at hsome
        have himg' : C'.image w.mem = C'.image u.mem := by
          rw [himg]
          refine Tree.image_congr rfl fun q hq => hmem q ?_
          rintro rfl
          exact hq (huser q hT)
        refine .inl ⟨?_, by rw [href, hsome, himg']; rfl⟩
        rw [hoomw, hu']
        simp only [Phys.write_oom]
        rw [hoomu, hoom]
      · simp at hnone

end Exec

/-! ## The arguments -/

/-- The owners that a list of pages makes. -/
def refs (l : List ℕ) : ℕ → ℕ := (l.map ref).sum

@[simp] theorem refs_nil : refs [] = 0 := rfl

@[simp] theorem refs_cons (p : ℕ) (l : List ℕ) : refs (p :: l) = ref p + refs l := List.sum_cons

theorem refs_append (l l' : List ℕ) : refs (l ++ l') = refs l + refs l' := by
  rw [refs, List.map_append, List.sum_append, refs, refs]

theorem refs_ne_zero {l : List ℕ} {p : ℕ} (h : p ∈ l) : refs l p ≠ 0 := by
  induction l with
  | nil => simp at h
  | cons q l ih =>
    rw [refs_cons, Pi.add_apply]
    rcases List.mem_cons.mp h with rfl | h
    · rw [ref_self]
      omega
    · have := ih h
      omega

section Args

variable {L : Layout} {s : Phys} {T : Tree} {n m sz tf uargv : ℕ} {top f : ℕ → ℕ}
  {file : Option File} {acc : List ℕ}

theorem wp_fetchaddr (h : Space L s T n top f) (htop : TopOk top) {addr : ℕ}
    {Q : Option ℕ → Phys → Prop} :
    wp (fetchaddr (T.root * PGSIZE) sz addr) s Q ↔ Q (Ref.fetchaddr (T.image s.mem) sz addr) s := by
  unfold fetchaddr Ref.fetchaddr
  by_cases hsz : addr ≥ sz ∨ (addr + 8) % 2 ^ 64 > sz
  · rw [if_pos hsz, if_pos hsz, wp_pure]
  · rw [if_neg hsz, if_neg hsz, wp_bind, copyin, wp_copyinLoop (h.reads htop)]
    simp only
    split_ifs <;> rw [wp_pure]

/-- The loop of `sys_exec` reads the arguments into pages of its own. -/
theorem fetchArgs_spec (h : Space L s T n top (refs acc + f)) (htop : TopOk top) :
    wp (fetchArgs (T.root * PGSIZE) sz m uargv (addrs acc)) s fun r s' => ∃ acc',
      r.2 = addrs acc' ∧ Space L s' T n top (refs acc' + f) ∧ Keeps (T.user + f) s s' ∧
        (s'.oom = s.oom ∧ Ref.fetchArgs (T.image s.mem) sz m uargv (acc.map s.mem) =
            (if r.1 then some (acc'.map s'.mem) else none) ∨
          r.1 = false ∧ s'.oom = true) := by
  induction m generalizing s uargv acc with
  | zero =>
    rw [fetchArgs, wp_pure]
    exact ⟨acc, rfl, h, .refl _ s, .inl ⟨rfl, rfl⟩⟩
  | succ m ih =>
    rw [fetchArgs, wp_bind, wp_fetchaddr h htop, Ref.fetchArgs]
    cases hu : Ref.fetchaddr (T.image s.mem) sz uargv with
    | none => exact (wp_pure _).mpr ⟨acc, rfl, h, .refl _ s, .inl ⟨rfl, rfl⟩⟩
    | some uarg =>
      simp only
      by_cases hz : uarg = 0
      · rw [if_pos hz, if_pos hz, wp_pure]
        exact ⟨acc, rfl, h, .refl _ s, .inl ⟨rfl, rfl⟩⟩
      rw [if_neg hz, if_neg hz]
      refine h.kalloc.bind ?_
      rintro pa t (⟨rfl, ht, hmem, hoom⟩ | ⟨p, rfl, hram, hfree, ht, hmem, hoom⟩)
      · rw [if_pos rfl, wp_pure]
        exact ⟨acc, rfl, ht, fun q _ => by rw [hmem], .inr ⟨rfl, hoom⟩⟩
      rw [if_neg (Nat.mul_ne_zero hram.pos pgsize_pos.ne'), wp_bind, copyinstr,
        wp_copyinstrLoop (ht.reads htop)]
      have hne : ∀ q, T.user q ≠ 0 ∨ (refs acc + f) q ≠ 0 → q ≠ p := by
        rintro q hq rfl
        omega
      have himg : T.image t.mem = T.image s.mem := Tree.image_congr rfl fun q hq => by
        rw [hmem, update_of_ne (hne q (.inl hq))]
      set str := (T.image s.mem).copyinstr PGSIZE uarg PGSIZE with hstr
      rw [himg, ← hstr, ← Nat.add_zero (p * PGSIZE), wp_bind, wp_writeBytes pgsize_pos,
        Nat.add_zero]
      -- The new page is the last of the arguments.
      set u := t.write p ((t.mem p).splice 0 str.2.length fun i => str.2.getD i 0) with hudef
      have hnew : Space L u T n top (refs (acc ++ [p]) + f) := by
        rw [refs_append, refs_cons, refs_nil, add_zero, add_comm (refs acc), add_assoc]
        exact ht.writeHeld (by rw [Pi.add_apply, ref_self]; omega) _
      have hold : ∀ q, q ≠ p → u.mem q = s.mem q := fun q hq => by
        rw [hudef, Phys.write_of_ne hq, hmem, update_of_ne hq]
      have hkeep : Keeps (T.user + f) s u := fun q hq => hold q (hne q (by
        simp only [Pi.add_apply] at hq ⊢
        omega))
      have haddrs : addrs acc ++ [p * PGSIZE] = addrs (acc ++ [p]) := by
        rw [addrs, addrs, List.map_append, List.map_singleton]
      have hpages : (acc ++ [p]).map u.mem = acc.map s.mem ++ [Ref.argPage str.2] := by
        rw [List.map_append, List.map_singleton]
        congr 1
        · refine List.map_congr_left fun q hq => hold q (hne q (.inr ?_))
          have := refs_ne_zero hq
          rw [Pi.add_apply]
          omega
        · rw [hudef, Phys.write_self, hmem, update_self]
          rfl
      rw [haddrs]
      by_cases hneg : str.1 < 0
      · rw [if_pos hneg, if_pos hneg, wp_pure]
        exact ⟨_, rfl, hnew, hkeep, .inl ⟨hoom, rfl⟩⟩
      rw [if_neg hneg, if_neg hneg]
      refine (ih hnew).mono ?_
      rintro r w ⟨acc', hr, hw, hkw, hcase⟩
      refine ⟨acc', hr, hw, hkeep.trans hkw, ?_⟩
      have himg' : T.image u.mem = T.image s.mem := Tree.image_congr rfl fun q hq => hkeep q (by
        rw [Pi.add_apply]
        omega)
      rw [hpages, himg'] at hcase
      rcases hcase with ⟨hoomw, heq⟩ | hfail
      · exact .inl ⟨hoomw.trans hoom, heq⟩
      · exact .inr hfail

/-- The pages of the arguments are given back. -/
theorem freeArgs_spec (h : Space L s T n top (refs acc + f)) :
    wp (freeArgs L (addrs acc)) s fun _ s' =>
      Space L s' T n top f ∧ Keeps (T.user + f) s s' ∧ s'.oom = s.oom := by
  induction acc generalizing s with
  | nil =>
    rw [refs_nil, zero_add] at h
    rw [addrs, List.map_nil, freeArgs, wp_pure]
    exact ⟨h, .refl _ s, rfl⟩
  | cons a acc ih =>
    rw [refs_cons, add_assoc] at h
    rw [addrs, List.map_cons, freeArgs]
    refine h.kfree.bind ?_
    rintro - t ⟨ht, hk, hoom⟩
    refine (ih ht).mono ?_
    rintro - u ⟨hu, hku, hoomu⟩
    refine ⟨hu, (hk.mono fun q hq => ?_).trans hku, hoomu.trans hoom⟩
    simp only [Pi.add_apply] at hq ⊢
    omega

/-- `sys_exec` replaces the image, or leaves the process as it was. -/
theorem sysExec_spec (h : Space L s T (npages sz) (topEntries L tf) f) (htf : f tf ≠ 0)
    (hlt : tf < 2 ^ 44) :
    wp (sysExec L (tf * PGSIZE) (T.root * PGSIZE) sz file uargv) s fun r s' => ∃ T',
      r.2.1 = T'.root * PGSIZE ∧ Space L s' T' (npages r.2.2) (topEntries L tf) f ∧
        Replaces tf f s T s' T' ∧
        (s'.oom = s.oom ∧ (r.2.2, T'.image s'.mem) =
            (Ref.sysExec (T.image s.mem) sz file uargv).getD (sz, T.image s.mem) ∨
          s'.oom = true) := by
  have h0 : Space L s T (npages sz) (topEntries L tf) (refs [] + f) := by
    rwa [refs_nil, zero_add]
  unfold sysExec Ref.sysExec
  refine (fetchArgs_spec h0 topOk_topEntries).bind ?_
  rintro ⟨ok, argv⟩ t ⟨acc, hargv, ht, hk, hcase⟩
  simp only at hargv hcase
  subst hargv
  have himg : T.image t.mem = T.image s.mem := Tree.image_congr rfl fun q hq => hk q (by
    rw [Pi.add_apply]
    omega)
  have hkf : ∀ q, f q ≠ 0 → t.mem q = s.mem q := fun q hq => hk q (by
    rw [Pi.add_apply]
    omega)
  cases ok with
  | false =>
    simp only
    refine (freeArgs_spec ht).bind ?_
    rintro - u ⟨hu, hku, hoomu⟩
    rw [wp_pure]
    have hkeep := hk.trans hku
    refine ⟨T, rfl, hu, ⟨fun q hq _ => hkeep q ?_, fun q _ => le_rfl⟩, ?_⟩
    · rw [Pi.add_apply]
      omega
    · rcases hcase with ⟨hoom, hnone⟩ | ⟨-, hoom⟩
      · refine .inl ⟨hoomu.trans hoom, ?_⟩
        rw [List.map_nil] at hnone
        rw [hnone, Tree.image_congr rfl fun q hq => hkeep q ?_]
        · rfl
        · rw [Pi.add_apply]
          omega
      · exact .inr (hoomu.trans hoom)
  | true =>
    simp only
    have hle : ∀ q, f q ≠ 0 → (refs acc + f) q ≠ 0 := fun q hq => by
      rw [Pi.add_apply]
      omega
    refine (exec_spec ht (hle tf htf) hlt fun a ha => ?_).bind ?_
    · have := refs_ne_zero ha
      rw [Pi.add_apply]
      omega
    rintro r u ⟨T', hr, hu, hrep, hcase'⟩
    refine (freeArgs_spec hu).bind ?_
    rintro - w ⟨hw, hkw, hoomw⟩
    rw [wp_pure]
    refine ⟨T', hr, hw, ⟨fun q hq hqtf => ?_, fun q hq => hrep.user q (hle q hq)⟩, ?_⟩
    · rw [hkw q (by rw [Pi.add_apply]; omega), hrep.keeps q (hle q hq) hqtf, hkf q hq]
    · rcases hcase with ⟨hoom, hsome⟩ | ⟨hfalse, -⟩
      · rcases hcase' with ⟨hoomu, heq⟩ | hoomu
        · refine .inl ⟨hoomw.trans (hoomu.trans hoom), ?_⟩
          rw [List.map_nil] at hsome
          rw [hsome, Tree.image_congr rfl fun q hq => hkw q ?_, heq, himg]
          · rfl
          · rw [Pi.add_apply]
            omega
        · exact .inr (hoomw.trans hoomu)
      · simp at hfalse

end Args

end Xv6.Process
