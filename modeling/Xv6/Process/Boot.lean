import Xv6.Process.Pages

/-!
# The boot

`kvminit` makes the kernel's page table with the stacks of the processes, `virtio_disk_init` takes
three pages, and `userinit` makes the first process. The first two panic if there is not enough memory.
-/

namespace Xv6.Process

open Function Lib
open Xv6.Vm

/-! ## The kernel's page table -/

section Kvm

variable {L : Layout} {s : Phys} {T : Tree} {f : ℕ → ℕ} {v n p perm : ℕ}

/-- `kvmmap` maps pages that were not mapped, or panics. -/
theorem kvmmap_spec (h : Has L s T f) (hn : n ≠ 0) (hfree : ∀ w, v ≤ w → w < v + n → T.leaf w = 0)
    (hva : (v + n) * PGSIZE ≤ MAXVA) (hperm : perm < 1024) (hp : p + n ≤ 2 ^ 44) :
    wpOr (· = .kvmmap) (kvmmap (T.root * PGSIZE) (v * PGSIZE) (p * PGSIZE) (n * PGSIZE) perm) s
      fun _ s' => ∃ T', Has L s' T' f ∧ Keeps f s s' ∧ T'.root = T.root ∧
        T'.leaf = mapped T.leaf v n p perm ∧ s'.oom = s.oom := by
  unfold kvmmap
  refine (mappages_spec h hn (fun j hj => hfree _ (by omega) (by omega)) hva hperm hp).bindOr ?_
  rintro r s' ⟨T', h', hk, hroot, ⟨rfl, hleaf, hoom⟩ | ⟨rfl, -, -⟩⟩
  · rw [if_neg (by decide)]
    exact wp.or ((wp_pure _).mpr ⟨T', h', hk, hroot, hleaf, hoom⟩)
  · rw [if_pos (by decide)]
    exact wpOr_throw.mpr rfl

theorem kvmmap_bind {E : Panic → Prop} {α : Type} {x : M α} {Q : α → Phys → Prop} {root va pa sz : ℕ}
    (h : Has L s T f) (hroot : T.root = root) (hva : va = v * PGSIZE) (hpa : pa = p * PGSIZE)
    (hsz : sz = n * PGSIZE) (hn : n ≠ 0) (hfree : ∀ w, v ≤ w → w < v + n → T.leaf w = 0)
    (hv : v + n ≤ 2 ^ 26) (hp : p + n ≤ 2 ^ 44) (hperm : perm < 1024) (hE : E .kvmmap)
    (hx : ∀ T' s', Has L s' T' f → Keeps f s s' → T'.root = root →
      T'.leaf = mapped T.leaf v n p perm → s'.oom = s.oom → wpOr E x s' Q) :
    wpOr E (do
      kvmmap (root * PGSIZE) va pa sz perm
      x) s Q := by
  subst hroot hva hpa hsz
  have hva' : (v + n) * PGSIZE ≤ MAXVA := by
    unfold PGSIZE MAXVA
    omega
  refine ((kvmmap_spec h hn hfree hva' hperm hp).weaken fun e he => he ▸ hE).bind ?_
  rintro - s' ⟨T', h', hk, hr, hleaf, hoom⟩
  exact hx T' s' h' hk hr hleaf hoom

theorem mapped_of_not {leaf : ℕ → ℕ} {w : ℕ} (h : ¬ (v ≤ w ∧ w < v + n)) :
    mapped leaf v n p perm w = leaf w := if_neg h

theorem kstack_page {i : ℕ} (hi : i < NPROC) : kstack i / PGSIZE = 2 ^ 26 - 1 - (i + 1) * 2 ∧
    kstack i = kstack i / PGSIZE * PGSIZE := by
  unfold NPROC at hi
  unfold kstack TRAMPOLINE MAXVA PGSIZE
  omega

/-- The loop of `proc_mapstacks`: the stacks of the last `n` processes. -/
theorem procMapstacks_spec (hn : n ≤ NPROC)
    (h : Has L s T (∑ i ∈ Finset.range (NPROC - n), own (T.leaf (kstack i / PGSIZE)) + f))
    (hfree : ∀ i, NPROC - n ≤ i → i < NPROC → T.leaf (kstack i / PGSIZE) = 0)
    (hfresh : ∀ q, f q ≠ 0 →
      (∑ i ∈ Finset.range (NPROC - n), own (T.leaf (kstack i / PGSIZE))) q = 0) :
    wpOr (fun e => e = .kvmmap ∨ e = .mapstacks) (procMapstacks (T.root * PGSIZE) n) s
      fun _ s' => ∃ T', Has L s' T' (stackRefs T' + f) ∧ Keeps f s s' ∧ T'.root = T.root ∧
        (∀ q, f q ≠ 0 → stackRefs T' q = 0) ∧ s'.oom = s.oom := by
  induction n generalizing s T with
  | zero =>
    rw [procMapstacks]
    exact wp.or ((wp_pure _).mpr ⟨T, h, .refl f s, rfl, hfresh, rfl⟩)
  | succ n ih =>
    set i := NPROC - (n + 1) with hi
    have hiN : i < NPROC := by omega
    have hnext : NPROC - n = i + 1 := by omega
    obtain ⟨hpage, hmul⟩ := kstack_page hiN
    rw [procMapstacks, ← hi]
    refine h.kalloc.bindOr ?_
    rintro pa t (⟨rfl, -, -, -⟩ | ⟨p, rfl, hram, hp, ht, hmem, hoom⟩)
    · rw [if_pos rfl]
      exact wpOr_throw.mpr (.inr rfl)
    rw [if_neg (Nat.mul_ne_zero hram.pos pgsize_pos.ne')]
    have hlt := hram.lt
    have hmap := kvmmap_spec (v := kstack i / PGSIZE) (p := p) (n := 1) ht one_ne_zero
      (fun w h1 h2 => by
        obtain rfl : w = kstack i / PGSIZE := by omega
        exact hfree i le_rfl hiN)
      (by rw [hpage]; unfold MAXVA PGSIZE; omega) (show PTE_R ||| PTE_W < 1024 by decide) (by omega)
    rw [one_mul, ← hmul] at hmap
    refine (hmap.weaken fun e he => .inl he).bind ?_
    rintro - u ⟨T1, h₁, hk1, hroot1, hleaf1, hoom1⟩
    have hself : T1.leaf (kstack i / PGSIZE) = mkPte p ((PTE_R ||| PTE_W) ||| PTE_V) := by
      rw [hleaf1, mapped, if_pos (by omega), Nat.sub_self, add_zero]
    have hother : ∀ j, j < NPROC → j ≠ i →
        T1.leaf (kstack j / PGSIZE) = T.leaf (kstack j / PGSIZE) := by
      intro j hj hji
      rw [hleaf1, mapped_of_not]
      rw [hpage, (kstack_page hj).1]
      unfold NPROC at hj hiN
      omega
    have hown : own (T1.leaf (kstack i / PGSIZE)) = ref p := by
      have hvalid : (mkPte p ((PTE_R ||| PTE_W) ||| PTE_V)).testBit 0 = true := by
        rw [testBit_mkPte_lt (by decide) (by decide)]
        rfl
      rw [hself, own, if_pos hvalid, ppn_mkPte (by decide)]
    have hsum : ∑ j ∈ Finset.range (NPROC - n), own (T1.leaf (kstack j / PGSIZE)) =
        ∑ j ∈ Finset.range i, own (T.leaf (kstack j / PGSIZE)) + ref p := by
      rw [hnext, Finset.sum_range_succ, hown]
      congr 1
      refine Finset.sum_congr rfl fun j hj => ?_
      have := Finset.mem_range.mp hj
      rw [hother j (by omega) (by omega)]
    rw [Pi.add_apply] at hp
    have hne : ∀ q, f q ≠ 0 → q ≠ p := by
      rintro q hq rfl
      omega
    rw [← hroot1]
    refine (ih (by omega) ?_ (fun j h1 h2 => ?_) fun q hq => ?_).mono ?_
    · rw [hsum]
      convert h₁ using 1
      abel
    · rw [hother j h2 (by omega)]
      exact hfree j (by omega) h2
    · rw [hsum, Pi.add_apply, hfresh q hq, ref_of_ne (hne q hq)]
    · rintro - w ⟨T2, h₂, hk2, hroot2, hfresh2, hoom2⟩
      refine ⟨T2, h₂, fun q hq => ?_, hroot2, hfresh2, hoom2.trans (hoom1.trans hoom)⟩
      rw [hk2 q hq, hk1 q (by simp only [Pi.add_apply]; omega), hmem,
        update_of_ne (hne q hq)]

/-- What `kvmmake` maps after the registers of the devices: the kernel, the memory, the trampoline and
the stacks. -/
theorem kvmmake_kernel {root : ℕ} (h : Has L s T f) (hroot : T.root = root)
    (hz : ∀ w, 0x80000 ≤ w → T.leaf w = 0) :
    wpOr (fun e => e = .null ∨ e = .kvmmap ∨ e = .mapstacks) (do
      kvmmap (root * PGSIZE) KERNBASE KERNBASE (L.etext - KERNBASE) (PTE_R ||| PTE_X)
      kvmmap (root * PGSIZE) L.etext L.etext (PHYSTOP - L.etext) (PTE_R ||| PTE_W)
      kvmmap (root * PGSIZE) TRAMPOLINE L.trampoline PGSIZE (PTE_R ||| PTE_X)
      procMapstacks (root * PGSIZE) NPROC
      return (root * PGSIZE)) s fun r s' => ∃ T, r = T.root * PGSIZE ∧ Has L s' T (stackRefs T + f) ∧
        Keeps f s s' ∧ (∀ q, f q ≠ 0 → stackRefs T q = 0) ∧ s'.oom = s.oom := by
  have hE : Panic.kvmmap = .null ∨ Panic.kvmmap = .kvmmap ∨ Panic.kvmmap = .mapstacks :=
    .inr (.inl rfl)
  -- The kernel's addresses, in pages.
  obtain ⟨e, het⟩ : ∃ e, L.etext = e * PGSIZE :=
    ⟨_, (Nat.div_mul_cancel (Nat.dvd_of_mod_eq_zero L.etext_aligned)).symm⟩
  have hbase := L.base_lt
  have hlt := L.etext_lt
  have hend := L.kend_le
  have he1 : 0x80000 < e ∧ e < 0x88000 := by
    unfold KERNBASE at hbase
    unfold PHYSTOP KERNBASE at hend
    unfold PGSIZE at het
    omega
  have htext : L.etext - KERNBASE = (e - 0x80000) * PGSIZE := by
    unfold KERNBASE PGSIZE at *
    omega
  have hdata : PHYSTOP - L.etext = (0x88000 - e) * PGSIZE := by
    unfold PHYSTOP KERNBASE PGSIZE at *
    omega
  have hkern : KERNBASE = 0x80000 * PGSIZE := by decide
  refine kvmmap_bind h hroot hkern hkern htext (by omega) (fun w hw _ => hz w hw) (by omega)
    (by omega) (by decide) hE ?_
  intro T4 u4 h4 hk4 hr4 hl4 ho4
  have z4 : ∀ w, e ≤ w → T4.leaf w = 0 := fun w hw => by
    rw [hl4, mapped_of_not (by omega), hz w (by omega)]
  refine kvmmap_bind h4 hr4 het het hdata (by omega) (fun w hw _ => z4 w hw) (by omega) (by omega)
    (by decide) hE ?_
  intro T5 u5 h5 hk5 hr5 hl5 ho5
  have z5 : ∀ w, 0x88000 ≤ w → T5.leaf w = 0 := fun w hw => by
    rw [hl5, mapped_of_not (by omega), z4 w (by omega)]
  refine kvmmap_bind (n := 1) h5 hr5 trampoline_eq (trampoline_page_mul L) (one_mul _).symm
    one_ne_zero (fun w hw _ => z5 w (by rw [userPages_eq] at hw; omega)) (by rw [userPages_eq]; omega)
    (by have := trampoline_page_lt L; omega) (by decide) hE ?_
  intro T6 u6 h6 hk6 hr6 hl6 ho6
  have hstack : ∀ i, i < NPROC → T6.leaf (kstack i / PGSIZE) = 0 := fun i hi => by
    have hpage := (kstack_page hi).1
    unfold NPROC at hi
    rw [hl6, mapped_of_not (by rw [hpage, userPages_eq]; omega), z5 _ (by rw [hpage]; omega)]
  have m7 := procMapstacks_spec (f := f) le_rfl (by simpa using h6) (fun i _ hi => hstack i hi)
    (fun q _ => by simp)
  rw [hr6] at m7
  refine (m7.weaken fun e he => .inr he).bind ?_
  rintro - u7 ⟨T7, h7, hk7, hr7, hfresh, ho7⟩
  refine wp.or ((wp_pure _).mpr ⟨T7, by rw [hr7], h7, ?_, hfresh, ?_⟩)
  · exact ((hk4.trans hk5).trans hk6).trans hk7
  · rw [ho7, ho6, ho5, ho4]

/-- `kvmmake` builds the page table of the kernel, with its stacks, or panics. -/
theorem kvmmake_spec (h : Acct L s f) :
    wpOr (fun e => e = .null ∨ e = .kvmmap ∨ e = .mapstacks) (kvmmake L) s fun r s' => ∃ T,
      r = T.root * PGSIZE ∧ Has L s' T (stackRefs T + f) ∧ Keeps f s s' ∧
        (∀ q, f q ≠ 0 → stackRefs T q = 0) ∧ s'.oom = s.oom := by
  have hE : Panic.kvmmap = .null ∨ Panic.kvmmap = .kvmmap ∨ Panic.kvmmap = .mapstacks :=
    .inr (.inl rfl)
  unfold kvmmake
  refine (kalloc_spec h).bindOr ?_
  rintro pa t (⟨rfl, -, -, -⟩ | ⟨r, rfl, hram, hfree, ht, hmem, hoom⟩)
  · rw [if_pos rfl]
    exact wpOr_throw.mpr (.inl rfl)
  rw [if_neg (Nat.mul_ne_zero hram.pos pgsize_pos.ne')]
  refine ((wp_memset (Q := fun _ u => u = t.write r (Bytes.fill PGSIZE 0))).mpr rfl).bindOr ?_
  rintro - u rfl
  have h0 : Has L (t.write r (Bytes.fill PGSIZE 0)) (Tree.empty r) f :=
    .empty (ht.write (by simp)) hfree (by simp)
  have hk0 : Keeps f s (t.write r (Bytes.fill PGSIZE 0)) := fun q hq => by
    have hqr : q ≠ r := by
      rintro rfl
      exact hq hfree
    rw [Phys.write_of_ne hqr, hmem, update_of_ne hqr]
  have huart : UART0 = 0x10000 * PGSIZE := by decide
  refine kvmmap_bind h0 rfl huart huart (one_mul _).symm one_ne_zero (fun _ _ _ => rfl) (by omega)
    (by omega) (by decide) hE ?_
  intro T1 u1 h1 hk1 hr1 hl1 ho1
  have z1 : ∀ w, w ≠ 0x10000 → T1.leaf w = 0 := fun w hw => by
    rw [hl1, mapped_of_not (by omega)]
    rfl
  have hvirtio : VIRTIO0 = 0x10001 * PGSIZE := by decide
  refine kvmmap_bind h1 hr1 hvirtio hvirtio (one_mul _).symm one_ne_zero
    (fun w _ _ => z1 w (by omega)) (by omega) (by omega) (by decide) hE ?_
  intro T2 u2 h2 hk2 hr2 hl2 ho2
  have z2 : ∀ w, w ≠ 0x10000 → w ≠ 0x10001 → T2.leaf w = 0 := fun w hw hw' => by
    rw [hl2, mapped_of_not (by omega), z1 w hw]
  have hplic : PLIC = 0xc000 * PGSIZE := by decide
  have hsize : 0x400000 = 0x400 * PGSIZE := by decide
  refine kvmmap_bind h2 hr2 hplic hplic hsize (by omega) (fun w _ _ => z2 w (by omega) (by omega))
    (by omega) (by omega) (by decide) hE ?_
  intro T3 u3 h3 hk3 hr3 hl3 ho3
  have z3 : ∀ w, 0x80000 ≤ w → T3.leaf w = 0 := fun w hw => by
    rw [hl3, mapped_of_not (by omega), z2 w (by omega) (by omega)]
  refine (kvmmake_kernel h3 hr3 z3).mono ?_
  rintro a s' ⟨T7, ha, h7, hk7, hfresh, ho7⟩
  refine ⟨T7, ha, h7, (((hk0.trans hk1).trans hk2).trans hk3).trans hk7, hfresh, ?_⟩
  rw [ho7, ho3, ho2, ho1]
  exact hoom

end Kvm

/-! ## The first process -/

section Uvmfirst

variable {L : Layout} {s : Phys} {T : Tree} {sz : ℕ} {top f : ℕ → ℕ} {src : ℕ → UInt8}

/-- `uvmfirst`: a page with `src`, unless memory runs out. -/
theorem uvmfirst_spec (h : Space L s T 0 top f) (hsz : sz < PGSIZE) :
    wpOr (· = .null) (uvmfirst (T.root * PGSIZE) src sz) s fun _ s' => s'.oom = true ∨ ∃ T',
      Space L s' T' 1 top f ∧ Local f s T s' T' ∧ s'.oom = s.oom ∧
        T'.image s'.mem = (Image.empty.grow 0 1 (PTE_W ||| PTE_X)).setBytes 0 0 sz src := by
  unfold uvmfirst
  rw [if_neg (by omega)]
  refine h.has.kalloc.bindOr ?_
  rintro pa t (⟨rfl, -, -, -⟩ | ⟨p, rfl, hram, hfree, hhas, hmem, hoom⟩)
  · rw [if_pos rfl]
    exact wpOr_throw.mpr rfl
  rw [if_neg (Nat.mul_ne_zero hram.pos pgsize_pos.ne')]
  refine wp.or ?_
  rw [wp_bind, wp_memset, ← zero_mul PGSIZE,
    show PTE_W ||| PTE_R ||| PTE_X ||| PTE_U = PTE_R ||| PTE_U ||| (PTE_W ||| PTE_X) from rfl]
  have hpos : 0 < userPages := by decide
  refine wp.bind (mappages_one (hhas.write (p := p) (by simp) (Bytes.fill PGSIZE 0))
    (v := 0) (p := p) (h.unmapped 0 le_rfl hpos) (by decide) (by decide) (by have := hram.lt; omega)) ?_
  rintro r u ⟨T1, h1, hk1, hroot1, ⟨rfl, hleaf1, hoom1⟩ | ⟨rfl, hoom1, hleaf1⟩⟩
  swap
  · rw [← Nat.add_zero (p * PGSIZE), wp_writeBytes pgsize_pos]
    exact .inl hoom1
  rw [Pi.add_apply] at hfree
  have hx : PTE_W ||| PTE_X < 256 := by decide
  have hppn : ppn (mkPte p ((PTE_R ||| PTE_U ||| (PTE_W ||| PTE_X)) ||| PTE_V)) = p :=
    ppn_mkPte (by decide)
  have hpush : Space L u T1 (0 + 1) top f := h.push hleaf1 (userLeaf_alloc hx)
    (by rw [hppn]; omega) (fun _ => by rw [hppn]; omega) (by rwa [hppn])
  have hne : ∀ q, T.user q ≠ 0 ∨ f q ≠ 0 → u.mem q = s.mem q ∧ q ≠ p := by
    intro q hq
    have hqp : q ≠ p := by
      rintro rfl
      omega
    refine ⟨?_, hqp⟩
    rw [hk1 q (by simp only [Pi.add_apply]; omega), Phys.write_of_ne hqp, hmem,
      update_of_ne hqp]
  have huser : T1.user = T.user + ref p := by
    have := Tree.user_update _ _ hleaf1 hpos
    rwa [h.unmapped 0 le_rfl hpos, own_zero, add_zero, own, if_pos (userLeaf_alloc hx).valid,
      hppn] at this
  have himg := h.image_push hx hleaf1 (fun q hq => (hne q (.inl hq)).1)
    (by rw [hk1 p (by simp), Phys.write_self])
  have hempty : T.image s.mem = Image.empty := funext fun v => h.image_of_le (Nat.zero_le _) _
  have hleaf0 : ppn (T1.leaf 0) = p := by rw [hleaf1, update_self, hppn]
  have hf : f p = 0 := by omega
  rw [← Nat.add_zero (p * PGSIZE), wp_writeBytes pgsize_pos]
  obtain ⟨hs, hl⟩ := hpush.write (v := 0) Nat.one_pos (by rw [hleaf0, hf])
    ((u.mem p).splice 0 sz src)
  have himg' := hpush.image_write (v := 0) Nat.one_pos 0 sz src
  rw [hleaf0] at hs hl himg'
  refine .inr ⟨T1, hs, Local.trans ⟨hroot1, fun q hq => (hne q (.inr hq)).1, fun q hq => ?_⟩ hl,
    hoom1.trans hoom, ?_⟩
  · rw [huser, Pi.add_apply, ref_of_ne (hne q (.inr hq)).2, add_zero]
  · rw [himg', himg, hempty, zero_mul]

end Uvmfirst

section Boot

variable {L : Layout} {k : Kernel} {T : Fin NPROC → Tree} {Kt : Tree}

/-- `kvminit` keeps the invariant, and no process sees it. -/
theorem kvminit_spec (h : Inv L k T Kt) (h0 : k.kernelPagetable = 0) :
    wpOr (fun e => e = .null ∨ e = .kvmmap ∨ e = .mapstacks) (kvminit L) k fun _ k' => ∃ Kt',
      Inv L k' T Kt' ∧ Refines k T id k' T := by
  have hbase : k.base Kt = k.misc := by rw [Kernel.base, Kernel.table, if_pos h0, zero_add]
  have hrest : k.rest T Kt ∅ = k.owns T Finset.univ + k.misc := by
    rw [Kernel.rest, Finset.compl_empty, hbase]
  unfold kvminit
  refine wpOr.bind (wpOr_vm (kvmmake_spec h.acct)) ?_
  rintro r _ ⟨s, rfl, Kt', rfl, hhas, hk, hfresh, hoom⟩
  refine wp.or ((wp_modify _).mpr ?_)
  rw [hrest] at hhas hk hfresh
  set k' : Kernel := { k with phys := s, kernelPagetable := Kt'.root * PGSIZE } with hk'
  have hkern : KernOk L k'.phys k'.kernelPagetable Kt' (k.owns T Finset.univ + k'.misc) := ⟨rfl, hhas⟩
  have hbase' : k'.base Kt' = Kt'.pt + stackRefs Kt' + k.misc := by
    rw [Kernel.base, Kernel.table, if_neg hkern.pagetable_ne]
    rfl
  obtain ⟨hinv, himg⟩ := h.changeBase k' rfl (by
      have := hhas.acct
      rw [hbase']
      convert this using 1
      abel) (hk.mono fun q hq => by rw [Pi.add_apply]; omega) (fun q hq hzero => by
      have hq' : (k.owns T Finset.univ + k.misc) q ≠ 0 := by
        rw [Pi.add_apply]
        omega
      have hpt := hhas.pt_eq_zero (p := q) (by rw [Pi.add_apply]; omega)
      rw [hbase] at hzero
      rw [hbase']
      simp only [Pi.add_apply]
      rw [hpt, hfresh q hq', hzero]) (.inr hkern) h.aligned
  exact ⟨Kt', hinv, .inl ⟨hoom, Kernel.abs_eq (fun j => Kernel.view_eq rfl (himg j)) rfl rfl⟩⟩

theorem kalloc_total (s : Phys) : wp kalloc s fun _ _ => True := by
  unfold kalloc
  simp only [wp_bind, wp_get, wp_ite, wp_set, wp_pure, ite_self]

/-- `virtio_disk_init` takes three pages, and no process sees it. -/
theorem virtioDiskInit_spec (h : Inv L k T Kt) (h0 : k.disk = []) :
    wpOr (· = .virtio) virtioDiskInit k fun _ k' => Inv L k' T Kt ∧ Refines k T id k' T := by
  have hthrow : ∀ (k1 : Kernel) (desc avail used : ℕ) (x : K Unit) (Q : Unit → Kernel → Prop),
      desc = 0 ∨ avail = 0 ∨ used = 0 →
      wpOr (· = .virtio) (if desc = 0 ∨ avail = 0 ∨ used = 0 then throw .virtio else x) k1 Q :=
    fun k1 desc avail used x Q hz => by
      rw [if_pos hz]
      exact wpOr_throw.mpr rfl
  unfold virtioDiskInit
  refine wp.bindOr (wp_vm (kalloc_spec h.acct)) ?_
  rintro desc _ ⟨s1, rfl, ⟨rfl, -, -, -⟩ | ⟨a, rfl, hra, hfa, h₁, hm1, ho1⟩⟩
  · refine wp.bindOr (wp_vm (kalloc_total _)) fun avail _ _ => ?_
    refine wp.bindOr (wp_vm (kalloc_total _)) fun used _ _ => ?_
    exact hthrow _ _ _ _ _ _ (.inl rfl)
  refine wp.bindOr (wp_vm (kalloc_spec h₁)) ?_
  rintro avail _ ⟨s2, rfl, ⟨rfl, -, -, -⟩ | ⟨b, rfl, hrb, hfb, h₂, hm2, ho2⟩⟩
  · refine wp.bindOr (wp_vm (kalloc_total _)) fun used _ _ => ?_
    exact hthrow _ _ _ _ _ _ (.inr (.inl rfl))
  refine wp.bindOr (wp_vm (kalloc_spec h₂)) ?_
  rintro used _ ⟨s3, rfl, ⟨rfl, -, -, -⟩ | ⟨c, rfl, hrc, hfc, h₃, hm3, ho3⟩⟩
  · exact hthrow _ _ _ _ _ _ (.inr (.inr rfl))
  have hpos : ∀ p, InRam L p → p * PGSIZE ≠ 0 := fun p hp => Nat.mul_ne_zero hp.pos pgsize_pos.ne'
  rw [if_neg (by simp only [hpos a hra, hpos b hrb, hpos c hrc, or_self, not_false_eq_true])]
  simp only [Pi.add_apply] at hfb hfc
  refine wp.or ?_
  refine wp.bind (wp_vm (P := fun _ t => t = s3.write a (Bytes.fill PGSIZE 0))
    (wp_memset.mpr rfl)) ?_
  rintro - _ ⟨_, rfl, rfl⟩
  refine wp.bind (wp_vm (P := fun _ t => t = (s3.write a (Bytes.fill PGSIZE 0)).write b
    (Bytes.fill PGSIZE 0)) (wp_memset.mpr rfl)) ?_
  rintro - _ ⟨_, rfl, rfl⟩
  refine wp.bind (wp_vm (P := fun _ t => t = ((s3.write a (Bytes.fill PGSIZE 0)).write b
    (Bytes.fill PGSIZE 0)).write c (Bytes.fill PGSIZE 0)) (wp_memset.mpr rfl)) ?_
  rintro - _ ⟨_, rfl, rfl⟩
  rw [wp_modify]
  simp only
  set s4 := ((s3.write a (Bytes.fill PGSIZE 0)).write b (Bytes.fill PGSIZE 0)).write c
    (Bytes.fill PGSIZE 0) with hs4
  set k' : Kernel := { k with phys := s4, disk := [a * PGSIZE, b * PGSIZE, c * PGSIZE] } with hk'
  have hpages : k'.pages = a * PGSIZE :: b * PGSIZE :: c * PGSIZE :: k.pages := by
    simp only [hk', Kernel.pages, h0, List.cons_append, List.nil_append]
  have hmisc : k'.misc = k.misc + ref a + ref b + ref c := by
    rw [Kernel.misc, hpages]
    simp only [List.map_cons, mul_div_pgsize, refs_cons]
    rw [← Kernel.misc]
    abel
  have hacct : Acct L s4 (k.rest T Kt ∅ + ref a + ref b + ref c) :=
    ((h₃.write (by simp)).write (by simp)).write (by simp)
  rw [k.rest_univ] at hacct hfa hfb hfc
  simp only [Pi.add_apply] at hfa hfb hfc
  have hne : ∀ q, (k.owns T Finset.univ + k.table Kt) q ≠ 0 → q ≠ a ∧ q ≠ b ∧ q ≠ c := by
    intro q hq
    rw [Pi.add_apply] at hq
    refine ⟨?_, ?_, ?_⟩ <;> rintro rfl <;> omega
  have halign : ∀ x ∈ k'.pages, x = x / PGSIZE * PGSIZE := by
    intro x hx
    rw [hpages] at hx
    simp only [List.mem_cons] at hx
    rcases hx with rfl | rfl | rfl | hx
    · rw [mul_div_pgsize]
    · rw [mul_div_pgsize]
    · rw [mul_div_pgsize]
    · exact h.aligned x hx
  have hacct' : Acct L k'.phys (k.owns T Finset.univ + (k.table Kt + k'.misc)) := by
    rw [hmisc]
    convert hacct using 1
    abel
  have hkeep : Keeps (k.owns T Finset.univ + k.table Kt) k.phys k'.phys := fun q hq => by
    obtain ⟨h1, h2, h3⟩ := hne q hq
    rw [hk', hs4, Phys.write_of_ne h3, Phys.write_of_ne h2, Phys.write_of_ne h1, hm3,
      update_of_ne h3, hm2, update_of_ne h2, hm1, update_of_ne h1]
  obtain ⟨hinv, himg⟩ := h.changeMisc k' rfl rfl halign hacct' hkeep fun q hq hzero => by
    obtain ⟨h1, h2, h3⟩ := hne q hq
    rw [hmisc]
    simp only [Pi.add_apply, hzero, ref_of_ne h1, ref_of_ne h2, ref_of_ne h3]
  exact ⟨hinv, .inl ⟨ho3.trans (ho2.trans ho1),
    Kernel.abs_eq (fun j => Kernel.view_eq rfl (himg j)) rfl rfl⟩⟩

/-- `userinit`: the first process, unless memory ran out. -/
theorem userinit_spec (h : Inv L k T Kt) :
    wpOr (· = .null) (userinit L) k fun _ k' => k'.phys.oom = true ∨ ∃ T', Inv L k' T' Kt ∧
      k'.phys.oom = k.phys.oom ∧ k'.abs T' = (k.abs T).userinit := by
  unfold userinit
  refine (allocproc_spec h.acct fun j hj => h.empty_of_unused hj).bindOr ?_
  rintro r k1 (⟨rfl, -, -⟩ | ⟨rfl, -⟩ | ⟨i, C, tf, s, rfl, hfind, hk1, hok, hspace, hk, hoom⟩)
  · exact wpOr_throw.mpr rfl
  · exact wpOr_throw.mpr rfl
  have hunused : (k.proc i).state = .unused := by simpa using List.find?_some hfind
  have hproc1 : ∀ j, j ≠ i → k1.proc j = k.proc j := fun j hj => by
    rw [hk1]
    exact update_of_ne hj _ _
  have hi1 : k1.proc i = newProc k.nextpid tf C := by
    rw [hk1]
    exact update_self ..
  have hphys1 : k1.phys = s := by rw [hk1]
  have hb1 : SameBase k k1 := by
    rw [hk1]
    exact ⟨rfl, rfl, rfl, rfl⟩
  have hpid1 : k1.nextpid = k.nextpid + 1 := by rw [hk1]
  rw [← hphys1] at hok hspace hk hoom
  obtain ⟨h1, himg1⟩ := h.add k1 (h.empty_of_unused hunused) hb1 (by rw [hk1]) hok hspace hk
  set k2 : Kernel := { k1 with initproc := some i } with hk2
  obtain ⟨h2, himg2⟩ := h1.relabel k2 ⟨rfl, rfl, rfl, rfl⟩ rfl fun j => .inl rfl
  set T1 := update T i C with hT1
  have hstate : (k2.proc i).state ≠ .unused := by
    rw [show k2.proc i = newProc k.nextpid tf C from hi1]
    simp [newProc]
  have hok2 := h2.ok hstate
  have hsp := hok2.space
  have hsz : (k2.proc i).sz = 0 := by rw [show k2.proc i = newProc k.nextpid tf C from hi1]; rfl
  rw [hsz, npages_zero] at hsp
  have hC : T1 i = C := update_self ..
  refine wp.bindOr ((wp_modify (Q := fun _ k' => k' = k2) _).mpr rfl) ?_
  rintro - _ rfl
  refine wp.bindOr ((wp_get (Q := fun a k' => a = k2 ∧ k' = k2)).mpr ⟨rfl, rfl⟩) ?_
  rintro _ _ ⟨rfl, rfl⟩
  simp only
  rw [hok2.root, hok2.trapframe]
  refine wpOr.bind (wpOr_vm (uvmfirst_spec hsp (by decide))) ?_
  rintro - _ ⟨s3, rfl, hcase⟩
  refine wp.or ?_
  set tc := (k2.proc i).tf with htc
  refine wp.bind (wp_vm (P := fun _ t => ∃ b, t = s3.write tc b)
    ((wp_store64 (show 3 < 512 by decide)).mpr ⟨_, rfl⟩)) ?_
  rintro - _ ⟨_, rfl, b, rfl⟩
  refine wp.bind (wp_vm (P := fun _ t => ∃ b', t = (s3.write tc b).write tc b')
    ((wp_store64 (show 6 < 512 by decide)).mpr ⟨_, rfl⟩)) ?_
  rintro - _ ⟨_, rfl, b', rfl⟩
  rw [wp_setProc]
  rcases hcase with hoom3 | ⟨C', hs3, hl, hoom3, himg3⟩
  · exact .inl hoom3
  right
  set s4 := (s3.write tc b).write tc b' with hs4
  have hheld : (k2.around T1 Kt i) tc ≠ 0 := by
    rw [Kernel.around, Pi.add_apply, ← htc, ref_self]
    omega
  have hs' : Space L s4 C' (npages PGSIZE) (topEntries L tc) (k2.around T1 Kt i) :=
    (hs3.writeHeld hheld b).writeHeld hheld b'
  have hrep : Replaces tc (k2.around T1 Kt i) k2.phys (T1 i) s4 C' :=
    ⟨fun q hq hqt => by rw [hs4, Phys.write_of_ne hqt, Phys.write_of_ne hqt, hl.keeps q hq], hl.user⟩
  obtain ⟨h3, himg4, -⟩ := h2.setSpace hstate hs' hrep
  set k3 := k2.setSpace i s4 C' PGSIZE with hk3
  set k5 : Kernel := { k2 with
    phys := s4
    proc := update k2.proc i { k2.proc i with sz := PGSIZE, state := .runnable } } with hk5
  have hself3 : k3.proc i = { k2.proc i with pagetable := C'.root * PGSIZE, sz := PGSIZE } :=
    update_self ..
  have hself5 : k5.proc i = { k2.proc i with sz := PGSIZE, state := .runnable } :=
    update_self ..
  have hother3 : ∀ j, j ≠ i → k3.proc j = k2.proc j := fun j hj => update_of_ne hj _ _
  have hother5 : ∀ j, j ≠ i → k5.proc j = k2.proc j := fun j hj => update_of_ne hj _ _
  obtain ⟨h5, himg5⟩ := h3.relabel k5 ⟨rfl, rfl, rfl, rfl⟩ rfl fun j => by
    by_cases hj : j = i
    · subst hj
      rw [hself3, hself5]
      exact .inr ⟨hstate, by simp, by rw [hok2.root, hl.root], rfl, rfl⟩
    · exact .inl ((hother5 j hj).trans (hother3 j hj).symm)
  refine ⟨_, h5, hoom3.trans hoom, ?_⟩
  have hfind' : (k.abs T).find (fun p => p.state = .unused) = some i := hfind
  simp only [Ref.System.userinit, hfind']
  refine Kernel.abs_eq (fun j => ?_) rfl (show k5.nextpid = _ from hpid1)
  by_cases hj : j = i
  · subst hj
    have himg : k5.image (update T1 j C') j = Ref.System.initImage := by
      rw [h5.image_of_ok (by rw [hself5]; simp), update_self]
      have hsee : C'.image s4.mem = C'.image s3.mem := Tree.image_congr rfl fun q hq => by
        have hqt : q ≠ tc := by
          rintro rfl
          have := hl.user tc hheld
          rw [Space.user_eq_zero hsp tc] at this
          omega
        rw [hs4, Phys.write_of_ne hqt, Phys.write_of_ne hqt]
      rw [show k5.phys.mem = s4.mem from rfl, hsee, himg3]
      funext v
      by_cases hv : v = 0
      · subst hv
        simp [Image.setBytes, Image.grow, Ref.System.initImage, PTE_W, PTE_X]
        decide
      · simp only [Image.setBytes, Ref.System.initImage, update_of_ne hv, Image.grow]
        exact if_neg (by omega)
    rw [Kernel.view, himg, hself5, show k2.proc j = newProc k.nextpid tf C from hi1]
    simp only [Ref.System.setProc, update_self]
    rfl
  · simp only [Ref.System.setProc, update_of_ne hj]
    refine Kernel.view_eq ((hother5 j hj).trans (hproc1 j hj)) ?_
    rw [himg5 j, himg4 j hj, himg2 j, himg1 j hj]

end Boot

end Xv6.Process
