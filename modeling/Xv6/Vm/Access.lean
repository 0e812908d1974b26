import Xv6.Vm.Cow

/-!
# Reading and writing user memory

The ways to access an address space: loads and stores of the process, with the store faults that
`usertrap` handles, and `copyin`, `copyinstr` and `copyout`. Each does to the image what the operation
of the same name in `Xv6.Vm.Image` does; where memory runs out, `copyout` fails, and the fault handler
goes on with a null pointer.
-/

namespace Xv6.Vm

open Function Lib

/-- The pages at the top are not the user's, and not copy-on-write. -/
def TopOk (top : ℕ → ℕ) : Prop := ∀ v, (top v).testBit 4 = false ∧ (top v).testBit 8 = false

section Lookup

variable {L : Layout} {s : Phys} {T : Tree} {f : ℕ → ℕ} {p q j va : ℕ}

theorem Has.dirEntry_eq {x y : Slot} (h : Has L s T f) (hx : x.parent = some (y, j))
    (hlt : j < 512) (hy : T.page y = some q) : (s.mem q).le (8 * j) 8 = dirEntry (T.page x) := by
  rw [h.rep.entry y q hy j hlt, T.entry_parent hx]

theorem Has.pteAt_eq (h : Has L s T f) (hva : va < MAXVA) :
    pteAt s.mem T.root va = T.leaf (va / PGSIZE) := by
  have hlt : va / PGSIZE / 512 / 512 < 512 := by
    unfold MAXVA at hva
    unfold PGSIZE
    omega
  have h2 := h.dirEntry_eq (x := .mid (va / PGSIZE / 512 / 512)) (y := .root) rfl hlt rfl
  simp only [pteAt, if_neg (show ¬ va ≥ MAXVA by omega), px_two hva, h2, has_V]
  cases hm : T.mid (va / PGSIZE / 512 / 512) with
  | none =>
    simp only [Tree.page, hm, dirEntry, Nat.zero_testBit, Bool.not_false, if_true]
    exact (h.rep.leaf_eq_zero _ (h.rep.low_eq_none _ hm)).symm
  | some m =>
    have hppn : ppn (dirEntry (some m)) = m := ppn_mkPte (by decide)
    have h1 := h.dirEntry_eq (x := .low (va / PGSIZE / 512)) rfl (Nat.mod_lt _ (by decide)) hm
    simp only [Tree.page, hm, dirEntry_valid, Bool.not_true, Bool.false_eq_true, if_false, hppn,
      px_one, h1]
    cases hl : T.low (va / PGSIZE / 512) with
    | none =>
      simp only [dirEntry, Nat.zero_testBit, Bool.not_false, if_true]
      exact (h.rep.leaf_eq_zero _ hl).symm
    | some l =>
      have hppn' : ppn (dirEntry (some l)) = l := ppn_mkPte (by decide)
      simp only [dirEntry_valid, Bool.not_true, Bool.false_eq_true, if_false, hppn', px_zero]
      exact h.leaf_eq hl

end Lookup

section Pages

variable {L : Layout} {s s' : Phys} {T T' : Tree} {n v p va : ℕ} {top f : ℕ → ℕ}

theorem Space.leaf_of_le (h : Space L s T n top f) (htop : TopOk top) (hv : n ≤ v) :
    (T.leaf v).testBit 4 = false ∧ (T.leaf v).testBit 8 = false := by
  by_cases hlt : v < userPages
  · rw [h.unmapped v hv hlt]
    simp
  · rw [h.top v (by omega)]
    exact htop v

theorem Space.lt_maxva (h : Space L s T n top f) (hv : va / PGSIZE < n) : va < MAXVA := by
  have hle := hv.trans_le h.le
  rw [userPages_eq] at hle
  unfold MAXVA
  unfold PGSIZE at hle
  omega

theorem Space.userPage_of_lt (h : Space L s T n top f) (hv : va / PGSIZE < n) :
    (T.image s.mem).userPage va = if (T.leaf (va / PGSIZE)).testBit 4 then
      some ⟨s.mem (ppn (T.leaf (va / PGSIZE))),
        (T.leaf (va / PGSIZE)).testBit 2 || (T.leaf (va / PGSIZE)).testBit 8,
        (T.leaf (va / PGSIZE)).testBit 3, (T.leaf (va / PGSIZE)).testBit 4⟩ else none := by
  rw [Image.userPage, h.image_of_lt hv, Option.filter_some]

theorem Space.userPage_of_le (h : Space L s T n top f) (hv : n ≤ va / PGSIZE) :
    (T.image s.mem).userPage va = none := by
  rw [Image.userPage, h.image_of_le hv, Option.filter_none]

/-- What the hardware lets the process read is what the image shows. -/
theorem Space.userByte_eq (h : Space L s T n top f) (htop : TopOk top) :
    userByte s.mem T.root va = (T.image s.mem).byte va := by
  unfold userByte Image.byte
  by_cases hva : va < MAXVA
  · simp only [h.has.pteAt_eq hva, has_V, has_U, has_R]
    by_cases hv : va / PGSIZE < n
    · have hleaf := h.mapped _ hv
      rw [h.userPage_of_lt hv, hleaf.valid, hleaf.read]
      cases (T.leaf (va / PGSIZE)).testBit 4 <;> rfl
    · rw [h.userPage_of_le (by omega), (h.leaf_of_le htop (not_lt.mp hv)).1]
      simp
  · have hle : n ≤ va / PGSIZE := by
      have := h.lt_ram
      unfold MAXVA at hva
      unfold PGSIZE
      omega
    have hpte : pteAt s.mem T.root va = 0 := if_pos (by omega)
    rw [h.userPage_of_le hle]
    simp [hpte]

theorem Space.write (h : Space L s T n top f) (hv : v < n) (hf : f (ppn (T.leaf v)) = 0) (b : Page) :
    Space L (s.write (ppn (T.leaf v)) b) T n top f ∧
      Local f s T (s.write (ppn (T.leaf v)) b) T := by
  have huser := h.user_ne_zero hv
  refine ⟨h.of_leaf rfl (h.has.write (by rw [Pi.add_apply]; omega) b), rfl, fun q hq => ?_,
    fun _ _ => le_rfl⟩
  refine Phys.write_of_ne ?_
  rintro rfl
  exact hq hf

theorem Space.image_write (h : Space L s T n top f) (hv : v < n) (off k : ℕ) (src : ℕ → UInt8) :
    T.image (s.write (ppn (T.leaf v)) ((s.mem (ppn (T.leaf v))).splice off k src)).mem =
      (T.image s.mem).setBytes v off k src := by
  funext w
  unfold Image.setBytes
  by_cases hwv : w = v
  · rw [hwv, update_self, h.image_of_lt hv, h.image_of_lt hv, Phys.write_self]
    rfl
  · rw [update_of_ne hwv]
    by_cases hw : w < n
    · rw [h.image_of_lt hw, h.image_of_lt hw,
        Phys.write_of_ne fun heq => hwv (h.inj w v hw hv heq)]
    · rw [h.image_of_le (not_lt.mp hw), h.image_of_le (not_lt.mp hw)]

theorem wp_writeBytes (hoff : off < PGSIZE) {Q : Unit → Phys → Prop} :
    wp (writeBytes (p * PGSIZE + off) k src) s Q ↔
      Q ⟨⟩ (s.write p ((s.mem p).splice off k src)) := by
  have hdiv : (p * PGSIZE + off) / PGSIZE = p := by
    rw [add_comm, Nat.add_mul_div_right _ _ pgsize_pos, Nat.div_eq_of_lt hoff, zero_add]
  have hmod : (p * PGSIZE + off) % PGSIZE = off := by
    rw [add_comm, Nat.add_mul_mod_self_right, Nat.mod_eq_of_lt hoff]
  rw [writeBytes, hdiv, hmod]
  exact wp_modify _

end Pages

/-! ## Store faults -/

section Fault

variable {L : Layout} {s s' t : Phys} {T T' : Tree} {n v p va : ℕ} {top f : ℕ → ℕ} {b : UInt8}

/-- Replacing a shared page by a copy that had no owner does not show, and makes the page writable. -/
theorem remapCopy_spec (h : Space L s T n top f) (hv : v < n) (hcow : (T.leaf v).testBit 8 = true)
    (hram : InRam L p) (hfree : T.user p + f p = 0) (ht : Has L t T (T.user + f + ref p))
    (hmem : ∀ q, q ≠ p → t.mem q = s.mem q) :
    wp (remapCopy L (T.root * PGSIZE) (v * PGSIZE) (T.leaf v) (p * PGSIZE)) t fun r s' =>
      r = 0 ∧ s'.oom = t.oom ∧ ∃ T', Space L s' T' n top f ∧ Local f s T s' T' ∧
        T'.image s'.mem = T.image s.mem ∧ T'.low = T.low ∧
          T'.leaf = update T.leaf v
            (mkPte p (ownedFlags (pteFlags (T.leaf v)) ||| PTE_V)) := by
  have hx := h.mapped v hv
  have hvU := hv.trans_le h.le
  have hva := h.va_lt hv.le
  obtain ⟨q, hq⟩ := h.has.rep.low_of_leaf (v := v) (by
    intro h0
    rw [h0] at hcow
    simp at hcow)
  have hold : ∀ w, w < n → ppn (T.leaf w) ≠ p := by
    intro w hw heq
    have := h.user_ne_zero hw
    rw [heq] at this
    omega
  -- The copy is made, then the shared page is dropped.
  have huser := T.user_clear v 1 (by omega)
  have hcopy := ht.write (p := p) (by simp) (t.mem (ppn (T.leaf v)))
  rw [huser, add_assoc, add_assoc] at hcopy
  unfold remapCopy
  rw [pte2pa_eq, wp_bind, wp_copyPage]
  refine wp.bind (uvmunmap_spec true hcopy (fun k hk => ?_) ?_) ?_
  · obtain rfl : k = 0 := by omega
    exact ⟨hx.valid, hx.flags_ne⟩
  · unfold PGSIZE MAXVA at *
    omega
  rintro - u ⟨hu, hku, hoomu⟩
  -- The page for the entry is there, so the new mapping cannot fail.
  have hcleared : (T.clear v 1).leaf v = 0 := if_pos (by omega)
  have hmap := mappages_present hu hcleared hva
    (ownedFlags_lt (T.leaf v)) (show p < 2 ^ 44 by have := hram.lt; omega) hq
  refine wp.mono hmap ?_
  rintro r s' ⟨rfl, hs', hks', hooms'⟩
  set e := mkPte p (ownedFlags (pteFlags (T.leaf v)) ||| PTE_V) with he
  have hppn : ppn e = p := ppn_ownedPte _
  have hleaf : ((T.clear v 1).setLeaf v e).leaf = update T.leaf v e := by
    funext w
    simp only [Tree.setLeaf, Tree.clear, update_apply]
    split_ifs with h1 h2
    · rfl
    · omega
    · rfl
  have hown : own e = ref p := by rw [own, if_pos (hx.ownedPte).valid, hppn]
  have huser' : ((T.clear v 1).setLeaf v e).user = (T.clear v 1).user + ref p := by
    have := (T.clear v 1).user_update ((T.clear v 1).setLeaf v e) rfl hvU
    rwa [hcleared, own_zero, add_zero, hown] at this
  have hspace : Space L s' ((T.clear v 1).setLeaf v e) n top f := by
    refine h.replace hv hleaf hx.ownedPte (fun w hw _ => ?_) (fun _ => ?_) ?_
    · rw [hppn]
      exact hold w hw
    · rw [hppn]
      omega
    · rw [huser', add_assoc, add_comm (ref p)]
      exact hs'
  have hkeep : ∀ r, (T.clear v 1).user r ≠ 0 ∨ f r ≠ 0 → r ≠ p ∧ s'.mem r = s.mem r := by
    intro r hr
    have hrp : r ≠ p := by
      rintro rfl
      rw [huser, Pi.add_apply] at hfree
      omega
    refine ⟨hrp, ?_⟩
    rw [hks' r (by simp only [Pi.add_apply]; omega), hku r (by simp only [Pi.add_apply]; omega),
      Phys.write_of_ne hrp, hmem r hrp]
  refine ⟨rfl, hooms'.trans hoomu, _, hspace, ⟨rfl, fun r hr => (hkeep r (.inr hr)).2, fun r hr => ?_⟩,
    ?_, rfl, hleaf⟩
  · rw [huser', Pi.add_apply, ref_of_ne (hkeep r (.inr hr)).1, huser, Pi.add_apply]
    omega
  · funext w
    by_cases hwv : w = v
    · subst hwv
      have hnew : s'.mem p = s.mem (ppn (T.leaf w)) := by
        rw [hks' p (by simp), hku p (by simp), Phys.write_self, hmem _ (hold w hv)]
      rw [hspace.image_of_lt hv, h.image_of_lt hv, hleaf, update_self, hppn, hnew, he,
        testBit_ownedPte _ (by decide) hx.valid, testBit_ownedPte _ (by decide) hx.valid,
        testBit_ownedPte _ (by decide) hx.valid, testBit_ownedPte _ (by decide) hx.valid, hcow]
      simp
    · by_cases hw : w < n
      · have hw' : ((T.clear v 1).setLeaf v e).leaf w = T.leaf w := by
          rw [hleaf, update_of_ne hwv]
        have hcl : (T.clear v 1).leaf w = T.leaf w := if_neg (by omega)
        have hne : (T.clear v 1).user (ppn (T.leaf w)) ≠ 0 :=
          Tree.user_ne_zero.mpr ⟨w, hw.trans_le h.le, by rw [hcl]; exact (h.mapped w hw).valid,
            by rw [hcl]⟩
        rw [hspace.image_of_lt hw, h.image_of_lt hw, hw', (hkeep _ (.inl hne)).2]
      · rw [hspace.image_of_le (not_lt.mp hw), h.image_of_le (not_lt.mp hw)]

/-- A store fault finds the entry for the address, unless the table that would hold it is missing. -/
theorem storeFault_entry (h : Space L s T n top f) (hva : va < MAXVA) {q : ℕ}
    (hq : T.low (va / PGSIZE / 512) = some q) {E : Panic → Prop} {Q : Bool → Phys → Prop}
    (hplain : (T.leaf (va / PGSIZE)).testBit 8 = false → Q false s)
    (hcow : (T.leaf (va / PGSIZE)).testBit 8 = true → wpOr E (do
      let mem ← kalloc
      if mem = 0 then throw .null
      else if (← remapCopy L (T.root * PGSIZE) (pgRoundDown va) (T.leaf (va / PGSIZE)) mem) ≠ 0 then
        throw .null
      else return true) s Q) :
    wpOr E (storeFault L (T.root * PGSIZE) va) s Q := by
  have hmod : va / PGSIZE % 512 < 512 := Nat.mod_lt _ (by decide)
  unfold storeFault
  rw [if_neg (by omega)]
  refine ((wp_walk_some (Q := fun a t => a = q * PGSIZE + 8 * (va / PGSIZE % 512) ∧ t = s)
    h.has hva hq).mpr ⟨rfl, rfl⟩).bindOr ?_
  rintro a t ⟨rfl, rfl⟩
  rw [if_neg (h.has.slot_ne_zero hq)]
  refine ((wp_load64 (Q := fun x t' => x = T.leaf (va / PGSIZE) ∧ t' = t) hmod).mpr
    ⟨h.has.leaf_eq hq, rfl⟩).bindOr ?_
  rintro x t' ⟨rfl, rfl⟩
  rw [has_COW]
  by_cases h8 : (T.leaf (va / PGSIZE)).testBit 8 = true
  · rw [if_neg (by simp [h8])]
    exact hcow h8
  · rw [if_pos (by simpa using h8)]
    exact wp.or ((wp_pure _).mpr (hplain (by simpa using h8)))

theorem Space.lt_of_cow (h : Space L s T n top f) (htop : TopOk top)
    (hcow : (T.leaf v).testBit 8 = true) : v < n := by
  by_contra hge
  rw [(h.leaf_of_le htop (not_lt.mp hge)).2] at hcow
  exact absurd hcow (by decide)

/-- A store fault on a copy-on-write page: the process gets a copy that it can write, and the entry for
the copy takes the place of the old one. -/
theorem storeFault_cow (h : Space L s T n top f) (htop : TopOk top) (hva : va < MAXVA)
    (hcow : (T.leaf (va / PGSIZE)).testBit 8 = true) :
    wpOr (fun e => e = .null ∧ s.freelist = 0) (storeFault L (T.root * PGSIZE) va) s fun r s' =>
      r = true ∧ s'.oom = s.oom ∧ ∃ T' p, Space L s' T' n top f ∧ Local f s T s' T' ∧
        T'.image s'.mem = T.image s.mem ∧ T'.leaf = update T.leaf (va / PGSIZE)
          (mkPte p (ownedFlags (pteFlags (T.leaf (va / PGSIZE))) ||| PTE_V)) := by
  obtain ⟨q, hq⟩ := h.has.rep.low_of_leaf (v := va / PGSIZE) (by
    intro h0
    rw [h0] at hcow
    simp at hcow)
  refine storeFault_entry h hva hq (fun h8 => by rw [hcow] at h8; cases h8) fun _ => ?_
  have hv := h.lt_of_cow htop hcow
  refine (h.has.kalloc.with_run fun _ _ => kalloc_eq_zero).bindOr ?_
  rintro pa u ⟨⟨hpa, -, -, -⟩ | ⟨p, rfl, hram, hfree, hhas, hupd, hoom⟩, hempty⟩
  · rw [if_pos hpa]
    exact wpOr_throw.mpr ⟨rfl, hempty hpa⟩
  · rw [if_neg (Nat.mul_ne_zero hram.pos pgsize_pos.ne'), pgRoundDown]
    rw [Pi.add_apply] at hfree
    refine (remapCopy_spec h hv hcow hram (by omega) hhas fun q hq => by
      rw [hupd, update_of_ne hq]).bindOr ?_
    rintro r w ⟨rfl, hoomw, T1, h1, hl1, himg1, -, hleaf1⟩
    rw [if_neg (by simp)]
    exact wp.or ((wp_pure _).mpr ⟨rfl, hoomw.trans hoom, T1, p, h1, hl1, himg1, hleaf1⟩)

/-- A store fault on a copy-on-write page while no page is free: the branch that sets `p->killed` does
not leave the handler, and the copy goes to address 0. -/
theorem storeFault_cow_empty (h : Space L s T n top f) (hva : va < MAXVA)
    (hcow : (T.leaf (va / PGSIZE)).testBit 8 = true) (hempty : s.freelist = 0) :
    wpOr (fun e => e = .null) (storeFault L (T.root * PGSIZE) va) s fun _ _ => False := by
  obtain ⟨q, hq⟩ := h.has.rep.low_of_leaf (v := va / PGSIZE) (by
    intro h0
    rw [h0] at hcow
    simp at hcow)
  refine storeFault_entry h hva hq (fun h8 => by rw [hcow] at h8; cases h8) fun _ => ?_
  refine kalloc_result.bindOr ?_
  intro pa u hpa
  rw [if_pos (hpa.trans hempty)]
  exact wpOr_throw.mpr rfl

/-- A store fault anywhere else changes nothing, if there is an entry for the address. -/
theorem storeFault_plain (h : Space L s T n top f)
    (hlow : va < MAXVA → T.low (va / PGSIZE / 512) ≠ none)
    (hcow : (T.leaf (va / PGSIZE)).testBit 8 = false) {E : Panic → Prop} :
    wpOr E (storeFault L (T.root * PGSIZE) va) s fun r s' => r = false ∧ s' = s := by
  by_cases hva : va < MAXVA
  · obtain ⟨q, hq⟩ := Option.ne_none_iff_exists'.mp (hlow hva)
    exact storeFault_entry h hva hq (fun _ => ⟨rfl, rfl⟩) fun h8 => by rw [hcow] at h8; cases h8
  · unfold storeFault
    rw [if_pos (by omega)]
    exact wpOr_pure false |>.mpr ⟨rfl, rfl⟩

/-- A store fault at an address without a table for its entry: the kernel reads through a null
pointer. -/
theorem storeFault_missing (h : Space L s T n top f) (hva : va < MAXVA)
    (hlow : T.low (va / PGSIZE / 512) = none) {E : Panic → Prop} (hE : E .null)
    {Q : Bool → Phys → Prop} : wpOr E (storeFault L (T.root * PGSIZE) va) s Q := by
  unfold storeFault
  rw [if_neg (by omega)]
  refine ((wp_walk_none (Q := fun a _ => a = 0) h.has hva hlow).mpr rfl).bindOr ?_
  rintro a t rfl
  rw [if_pos rfl]
  exact wpOr_throw.mpr hE

/-- A store fault: on a copy-on-write page the process gets a copy that it can write; otherwise it is
to be killed. What it sees does not change. The kernel crashes if there is no memory, or no page table
for the address. -/
theorem storeFault_spec (h : Space L s T n top f) (htop : TopOk top) :
    wpOr (fun e => e = .null ∧ (s.freelist = 0 ∨ n ≤ va / PGSIZE)) (storeFault L (T.root * PGSIZE) va) s
      fun r s' => s'.oom = s.oom ∧ ∃ T',
        Space L s' T' n top f ∧ Local f s T s' T' ∧ T'.image s'.mem = T.image s.mem ∧
          (T'.leaf (va / PGSIZE)).testBit 8 = false ∧
          (r = true → va / PGSIZE < n ∧ (T'.leaf (va / PGSIZE)).testBit 2 = true) ∧
          (r = false → T' = T ∧ s' = s) := by
  by_cases hcow : (T.leaf (va / PGSIZE)).testBit 8 = true
  · have hv := h.lt_of_cow htop hcow
    have hvalid := (h.mapped _ hv).valid
    have hva : va < MAXVA := by
      have hle := hv.trans_le h.le
      rw [userPages_eq] at hle
      unfold MAXVA
      unfold PGSIZE at hle
      omega
    refine ((storeFault_cow h htop hva hcow).weaken fun e he => ⟨he.1, .inl he.2⟩).mono ?_
    rintro r s' ⟨rfl, hoom, T', p, h', hl, himg, hleaf⟩
    refine ⟨hoom, T', h', hl, himg, ?_, fun _ => ⟨hv, ?_⟩, by simp⟩
    · rw [hleaf, update_self, testBit_ownedPte _ (by decide) hvalid]
      rfl
    · rw [hleaf, update_self, testBit_ownedPte _ (by decide) hvalid]
      rfl
  rw [Bool.not_eq_true] at hcow
  by_cases hlow : va < MAXVA → T.low (va / PGSIZE / 512) ≠ none
  · refine (storeFault_plain h hlow hcow).mono ?_
    rintro r s' ⟨rfl, rfl⟩
    exact ⟨rfl, T, h, .refl f s' T, rfl, hcow, by simp, fun _ => ⟨rfl, rfl⟩⟩
  · simp only [Classical.not_imp, not_not] at hlow
    refine storeFault_missing h hlow.1 hlow.2 ⟨rfl, .inr ?_⟩
    by_contra hlt
    have hvalid := (h.mapped _ (not_le.mp hlt)).valid
    rw [h.has.rep.leaf_eq_zero _ hlow.2, Nat.zero_testBit] at hvalid
    exact absurd hvalid (by decide)

/-- A store to a page with `PTE_W` changes one byte of the image. -/
theorem storeByte_spec (h : Space L s T n top f) (hv : va / PGSIZE < n)
    (hw : (T.leaf (va / PGSIZE)).testBit 2 = true) :
    wp (do
      writeBytes (pte2pa (T.leaf (va / PGSIZE)) + va % PGSIZE) 1 fun _ => b
      return true) s fun r s' => r = true ∧ s'.oom = s.oom ∧ Space L s' T n top f ∧
        Local f s T s' T ∧ T.image s'.mem =
          (T.image s.mem).setBytes (va / PGSIZE) (va % PGSIZE) 1 fun _ => b := by
  rw [wp_bind, pte2pa_eq, wp_writeBytes (Nat.mod_lt _ pgsize_pos), wp_pure]
  obtain ⟨hs, hl⟩ := h.write hv (h.priv _ hv hw)
    ((s.mem (ppn (T.leaf (va / PGSIZE)))).splice (va % PGSIZE) 1 fun _ => b)
  exact ⟨rfl, rfl, hs, hl, h.image_write hv _ _ _⟩

theorem storable_iff (h : Space L s T n top f) (htop : TopOk top) :
    (has (pteAt s.mem T.root va) PTE_V && has (pteAt s.mem T.root va) PTE_U &&
        has (pteAt s.mem T.root va) PTE_W) = true ↔
      va / PGSIZE < n ∧ (T.leaf (va / PGSIZE)).testBit 4 = true ∧
        (T.leaf (va / PGSIZE)).testBit 2 = true := by
  by_cases hva : va < MAXVA
  · rw [h.has.pteAt_eq hva, has_V, has_U, has_W]
    simp only [Bool.and_eq_true]
    constructor
    · rintro ⟨⟨-, hu⟩, hw⟩
      refine ⟨?_, hu, hw⟩
      by_contra hge
      rw [(h.leaf_of_le htop (not_lt.mp hge)).1] at hu
      exact absurd hu (by decide)
    · rintro ⟨hv, hu, hw⟩
      exact ⟨⟨(h.mapped _ hv).valid, hu⟩, hw⟩
  · have hpte : pteAt s.mem T.root va = 0 := if_pos (by omega)
    have hge : n ≤ va / PGSIZE := by
      have := h.lt_ram
      unfold MAXVA at hva
      unfold PGSIZE
      omega
    simp only [hpte, has_V, has_U, has_W, Nat.zero_testBit, Bool.false_and, Bool.false_eq_true,
      false_iff]
    omega

theorem Space.store_eq (h : Space L s T n top f) :
    (T.image s.mem).store va b =
      if va / PGSIZE < n ∧ (T.leaf (va / PGSIZE)).testBit 4 = true ∧
        ((T.leaf (va / PGSIZE)).testBit 2 || (T.leaf (va / PGSIZE)).testBit 8) = true then
        some ((T.image s.mem).setBytes (va / PGSIZE) (va % PGSIZE) 1 fun _ => b) else none := by
  unfold Image.store
  by_cases hv : va / PGSIZE < n
  · rw [h.userPage_of_lt hv]
    cases (T.leaf (va / PGSIZE)).testBit 4 <;> cases (T.leaf (va / PGSIZE)).testBit 2 <;>
      cases (T.leaf (va / PGSIZE)).testBit 8 <;> simp [hv]
  · rw [h.userPage_of_le (not_lt.mp hv), if_neg (fun hc => hv hc.1)]
    rfl

/-- A store, with the fault that it may cause: if the image permits it, the byte is stored, otherwise
the process is to be killed. -/
theorem userStore_spec (h : Space L s T n top f) (htop : TopOk top) :
    wpOr (fun e => e = .null ∧ (s.freelist = 0 ∨ (T.image s.mem).store va b = none))
      (userStore L (T.root * PGSIZE) va b 2) s fun r s' => s'.oom = s.oom ∧ ∃ T',
      Space L s' T' n top f ∧ Local f s T s' T' ∧
        r = ((T.image s.mem).store va b).isSome ∧
        T'.image s'.mem = ((T.image s.mem).store va b).getD (T.image s.mem) := by
  rw [userStore]
  refine wp.bindOr ((wp_get (Q := fun a t => a = s ∧ t = s)).mpr ⟨rfl, rfl⟩) ?_
  rintro _ _ ⟨rfl, rfl⟩
  rename_i s
  rw [mul_div_pgsize]
  refine .ite (fun hok => ?_) fun hno => ?_
  · -- The first attempt succeeds.
    obtain ⟨hv, hu, hw⟩ := (storable_iff h htop).mp hok
    have hva : va < MAXVA := by
      have := h.lt_ram
      unfold MAXVA
      unfold PGSIZE at hv
      omega
    rw [h.has.pteAt_eq hva]
    refine wp.or ((storeByte_spec h hv hw).mono ?_)
    rintro r s' ⟨hr, hoom, hs', hl, himg⟩
    rw [h.store_eq, if_pos ⟨hv, hu, by rw [hw]; rfl⟩]
    exact ⟨hoom, T, hs', hl, hr, himg⟩
  · -- The fault is handled, and the store is tried again.
    have hcrash : ∀ e : Panic, e = .null ∧ (s.freelist = 0 ∨ n ≤ va / PGSIZE) →
        e = .null ∧ (s.freelist = 0 ∨ (T.image s.mem).store va b = none) := fun e he =>
      ⟨he.1, he.2.imp_right fun hn => by
        rw [h.store_eq, if_neg fun hc => absurd hc.1 (not_lt.mpr hn)]⟩
    refine ((storeFault_spec h htop).weaken hcrash).bind ?_
    rintro r t ⟨hoom, T1, h1, hl1, himg1, hcow1, htrue, hfalse⟩
    cases r with
    | false =>
      obtain ⟨rfl, rfl⟩ := hfalse rfl
      rw [if_neg (by simp)]
      refine wp.or ((wp_pure _).mpr ⟨rfl, T1, h, .refl f t T1, ?_⟩)
      rw [h.store_eq, if_neg]
      · exact ⟨rfl, rfl⟩
      · rintro ⟨hv, hu, hw⟩
        rw [hcow1, Bool.or_false] at hw
        exact hno ((storable_iff h htop).mpr ⟨hv, hu, hw⟩)
    | true =>
      obtain ⟨hv, hw⟩ := htrue rfl
      rw [if_pos rfl, userStore, ← hl1.root]
      refine wp.bindOr ((wp_get (Q := fun a u => a = t ∧ u = t)).mpr ⟨rfl, rfl⟩) ?_
      rintro _ _ ⟨rfl, rfl⟩
      rename_i t
      rw [mul_div_pgsize, ← himg1]
      refine .ite (fun hok => ?_) fun hno' => ?_
      · obtain ⟨-, hu, -⟩ := (storable_iff h1 htop).mp hok
        have hva : va < MAXVA := by
          have := h1.lt_ram
          unfold MAXVA
          unfold PGSIZE at hv
          omega
        rw [h1.has.pteAt_eq hva]
        refine wp.or ((storeByte_spec h1 hv hw).mono ?_)
        rintro r s' ⟨hr, hoom', hs', hl, himg⟩
        rw [h1.store_eq, if_pos ⟨hv, hu, by rw [hw]; rfl⟩]
        exact ⟨hoom'.trans hoom, T1, hs', hl1.trans hl, hr, himg⟩
      · -- The page is not the user's: the second fault is fatal.
        have hu : (T1.leaf (va / PGSIZE)).testBit 4 ≠ true := fun hu =>
          hno' ((storable_iff h1 htop).mpr ⟨hv, hu, hw⟩)
        rw [h1.store_eq, if_neg fun hc => hu hc.2.1]
        refine ((storeFault_spec h1 htop).weaken fun e he => ⟨he.1, .inr rfl⟩).bind ?_
        rintro r u ⟨hoom2, T2, h2, hl2, himg2, -, -, -⟩
        cases r with
        | false =>
          rw [if_neg (by simp)]
          exact wp.or ((wp_pure _).mpr
            ⟨hoom2.trans hoom, T2, h2, hl1.trans hl2, rfl, himg2⟩)
        | true =>
          rw [if_pos rfl, userStore]
          exact wp.or ((wp_pure _).mpr
            ⟨hoom2.trans hoom, T2, h2, hl1.trans hl2, rfl, himg2⟩)

end Fault

/-! ## `copyin` and `copyinstr` -/

section Copyin

variable {L : Layout} {s : Phys} {T : Tree} {n va fuel srcva len max : ℕ} {top f : ℕ → ℕ}

theorem wp_walkaddr (h : Space L s T n top f) (htop : TopOk top) {Q : ℕ → Phys → Prop} :
    wp (walkaddr (T.root * PGSIZE) (pgRoundDown va)) s Q ↔
      Q (if va / PGSIZE < n ∧ (T.leaf (va / PGSIZE)).testBit 4 = true then
        ppn (T.leaf (va / PGSIZE)) * PGSIZE else 0) s := by
  have hdiv : pgRoundDown va / PGSIZE = va / PGSIZE := mul_div_pgsize _
  unfold walkaddr
  split_ifs with hge hcond hcond
  · exfalso
    have := h.lt_ram
    unfold MAXVA pgRoundDown at hge
    have := hcond.1
    unfold PGSIZE at *
    omega
  · rw [wp_pure]
  · -- A user page: the entry is there.
    obtain ⟨hv, hu⟩ := hcond
    have hleaf := h.mapped _ hv
    obtain ⟨q, hq⟩ := h.has.rep.low_of_leaf (v := va / PGSIZE) (by
      intro h0
      rw [h0] at hu
      simp at hu)
    have hmod : va / PGSIZE % 512 < 512 := Nat.mod_lt _ (by decide)
    rw [wp_bind, wp_walk_some h.has (by omega) (by rw [hdiv]; exact hq), hdiv,
      if_neg (h.has.slot_ne_zero hq)]
    simp only [wp_bind, wp_load64 hmod, h.has.leaf_eq hq, has_V, hleaf.valid, has_U, hu,
      Bool.not_true, Bool.false_eq_true, if_false, wp_pure, pte2pa_eq]
  · -- Not a user page.
    have hu : (T.leaf (va / PGSIZE)).testBit 4 = false := by
      by_cases hv : va / PGSIZE < n
      · simpa [hv] using hcond
      · exact (h.leaf_of_le htop (not_lt.mp hv)).1
    cases hq : T.low (va / PGSIZE / 512) with
    | none =>
      rw [wp_bind, wp_walk_none h.has (by omega) (by rw [hdiv]; exact hq), if_pos rfl, wp_pure]
    | some q =>
      have hmod : va / PGSIZE % 512 < 512 := Nat.mod_lt _ (by decide)
      rw [wp_bind, wp_walk_some h.has (by omega) (by rw [hdiv]; exact hq), hdiv,
        if_neg (h.has.slot_ne_zero hq)]
      simp only [wp_bind, wp_load64 hmod, h.has.leaf_eq hq, has_U, hu, Bool.not_false, if_true]
      split_ifs <;> rw [wp_pure]

theorem sub_pgRoundDown (va : ℕ) : va - pgRoundDown va = va % PGSIZE := by
  rw [pgRoundDown, Nat.mod_eq_sub_div_mul]

/-- What `walkaddr` finds with a page table is what the image shows. -/
def Reads (pagetable : ℕ) (s : Phys) (img : Image) : Prop :=
  ∀ va, ∃ pa, (∀ Q : ℕ → Phys → Prop, wp (walkaddr pagetable (pgRoundDown va)) s Q ↔ Q pa s) ∧
    (pa = 0 ∧ img.userPage va = none ∨
      pa ≠ 0 ∧ ∃ pg, img.userPage va = some pg ∧ s.mem (pa / PGSIZE) = pg.bytes)

theorem Space.reads (h : Space L s T n top f) (htop : TopOk top) :
    Reads (T.root * PGSIZE) s (T.image s.mem) := by
  refine fun va => ⟨_, fun Q => wp_walkaddr h htop, ?_⟩
  split_ifs with hcond
  · have hpos := (h.inRam hcond.1).pos
    exact .inr ⟨Nat.mul_ne_zero hpos pgsize_pos.ne', _, (h.userPage_of_lt hcond.1).trans (if_pos hcond.2),
      congrArg s.mem (mul_div_pgsize _)⟩
  · refine .inl ⟨rfl, ?_⟩
    by_cases hv : va / PGSIZE < n
    · rw [h.userPage_of_lt hv, if_neg fun hu => hcond ⟨hv, hu⟩]
    · exact h.userPage_of_le (not_lt.mp hv)

theorem wp_copyinLoop {pagetable : ℕ} {img : Image} (h : Reads pagetable s img)
    {Q : ℤ × List UInt8 → Phys → Prop} :
    wp (copyinLoop pagetable fuel srcva len) s Q ↔ Q (img.copyin fuel srcva len) s := by
  induction fuel generalizing srcva len Q with
  | zero => rw [copyinLoop, wp_pure, Image.copyin]
  | succ fuel ih =>
    rw [copyinLoop, Image.copyin]
    split_ifs with hlen
    · rw [wp_pure]
    · obtain ⟨pa, hwalk, ⟨rfl, hnone⟩ | ⟨hpa, pg, hsome, hmem⟩⟩ := h srcva
      · rw [wp_bind, hwalk, if_pos rfl, wp_pure, hnone]
      · rw [wp_bind, hwalk, if_neg hpa, hsome]
        simp only [wp_bind, wp_get, ih, wp_pure, hmem, sub_pgRoundDown]
        rfl

theorem wp_copyinstrLoop {pagetable : ℕ} {img : Image} (h : Reads pagetable s img)
    {Q : ℤ × List UInt8 → Phys → Prop} :
    wp (copyinstrLoop pagetable fuel srcva max) s Q ↔ Q (img.copyinstr fuel srcva max) s := by
  induction fuel generalizing srcva max Q with
  | zero => rw [copyinstrLoop, wp_pure, Image.copyinstr]
  | succ fuel ih =>
    rw [copyinstrLoop, Image.copyinstr]
    split_ifs with hmax
    · rw [wp_pure]
    · obtain ⟨pa, hwalk, ⟨rfl, hnone⟩ | ⟨hpa, pg, hsome, hmem⟩⟩ := h srcva
      · rw [wp_bind, hwalk, if_pos rfl, wp_pure, hnone]
      · rw [wp_bind, hwalk, if_neg hpa, hsome]
        simp only [wp_bind, wp_get, hmem, sub_pgRoundDown]
        split_ifs
        · rw [wp_pure]
        · simp only [wp_bind, ih, wp_pure]
          rfl

end Copyin

/-! ## `copyout` -/

section Copyout

variable {L : Layout} {s s' : Phys} {T : Tree} {n v fuel dstva len : ℕ} {top f : ℕ → ℕ}
  {src : ℕ → UInt8}

/-- The copy-on-write part of `copyout`: the page is writable afterwards, or memory ran out. -/
theorem copyoutCow_spec (h : Space L s T n top f) (hv : v < n)
    (hw : ((T.leaf v).testBit 2 || (T.leaf v).testBit 8) = true) :
    wp (copyoutCow L (T.root * PGSIZE) (v * PGSIZE) (T.leaf v)) s fun r s' => ∃ T',
      Space L s' T' n top f ∧ Local f s T s' T' ∧ T'.image s'.mem = T.image s.mem ∧
        (∀ w, w ≠ v → T'.leaf w = T.leaf w) ∧
        (r = true ∧ s'.oom = s.oom ∧ T'.low = T.low ∧ (T'.leaf v).testBit 2 = true ∨
          r = false ∧ s'.oom = true ∧ T'.leaf v = T.leaf v ∧ (T.leaf v).testBit 2 = false) := by
  unfold copyoutCow
  rw [has_W, has_COW]
  by_cases hcow : (!(T.leaf v).testBit 2 && (T.leaf v).testBit 8) = true
  swap
  · rw [if_neg hcow, wp_pure]
    refine ⟨T, h, .refl f s T, rfl, fun _ _ => rfl, .inl ⟨rfl, rfl, rfl, ?_⟩⟩
    cases h2 : (T.leaf v).testBit 2 with
    | true => rfl
    | false =>
      rw [h2] at hw hcow
      exact absurd hw hcow
  rw [if_pos hcow]
  obtain ⟨h2, h8⟩ := Bool.and_eq_true_iff.mp hcow
  refine h.has.kalloc.bind ?_
  rintro pa t (⟨rfl, hhas, hmem, hoom⟩ | ⟨p, rfl, hram, hfree, hhas, hupd, hoom⟩)
  · rw [if_pos rfl, wp_pure]
    have hkeep : ∀ q, t.mem q = s.mem q := fun q => by rw [hmem]
    exact ⟨T, h.of_leaf rfl hhas, ⟨rfl, fun q _ => hkeep q, fun _ _ => le_rfl⟩,
      T.image_congr rfl fun q _ => hkeep q, fun _ _ => rfl, .inr ⟨rfl, hoom, rfl, by simpa using h2⟩⟩
  · rw [Pi.add_apply] at hfree
    rw [if_neg (Nat.mul_ne_zero hram.pos pgsize_pos.ne')]
    refine (remapCopy_spec h hv h8 hram (by omega) hhas fun q hq => by
      rw [hupd, update_of_ne hq]).bind ?_
    rintro r u ⟨rfl, hoomu, T1, h1, hl1, himg1, hlow1, hleaf1⟩
    rw [if_neg (by simp), wp_pure]
    refine ⟨T1, h1, hl1, himg1, fun w hw => by rw [hleaf1, update_of_ne hw],
      .inl ⟨rfl, hoomu.trans hoom, hlow1, ?_⟩⟩
    rw [hleaf1, update_self, testBit_ownedPte _ (by decide) (h.mapped v hv).valid]
    rfl

/-- The user may store at `va`, after the fault if the page is shared. -/
def Tree.Accepts (T : Tree) (va : ℕ) : Prop :=
  va < MAXVA ∧ has (T.leaf (va / PGSIZE)) PTE_V ∧ has (T.leaf (va / PGSIZE)) PTE_U ∧
    (has (T.leaf (va / PGSIZE)) PTE_W ∨ has (T.leaf (va / PGSIZE)) PTE_COW)

theorem Space.accepts_iff (h : Space L s T n top f) (htop : TopOk top) (dstva : ℕ) : T.Accepts dstva ↔
    dstva / PGSIZE < n ∧ (T.leaf (dstva / PGSIZE)).testBit 4 = true ∧
      ((T.leaf (dstva / PGSIZE)).testBit 2 || (T.leaf (dstva / PGSIZE)).testBit 8) = true := by
  simp only [Tree.Accepts, has_V, has_U, has_W, has_COW, Bool.or_eq_true]
  constructor
  · rintro ⟨-, -, hu, hw⟩
    refine ⟨?_, hu, hw⟩
    by_contra hv
    rw [(h.leaf_of_le htop (not_lt.mp hv)).1] at hu
    cases hu
  · rintro ⟨hv, hu, hw⟩
    exact ⟨h.lt_maxva hv, (h.mapped _ hv).valid, hu, hw⟩

theorem Space.storePage (h : Space L s T n top f) (htop : TopOk top) (dstva : ℕ) :
    (T.Accepts dstva ∧ ((T.image s.mem).userPage dstva).filter (·.writable) =
      some ⟨s.mem (ppn (T.leaf (dstva / PGSIZE))), true, (T.leaf (dstva / PGSIZE)).testBit 3, true⟩) ∨
    ¬T.Accepts dstva ∧ ((T.image s.mem).userPage dstva).filter (·.writable) = none := by
  have hcond := h.accepts_iff htop dstva
  by_cases hacc : T.Accepts dstva
  · obtain ⟨hv, hu, hw⟩ := hcond.mp hacc
    refine .inl ⟨hacc, ?_⟩
    rw [h.userPage_of_lt hv, if_pos hu, Option.filter_some, if_pos hw, hw, hu]
  · refine .inr ⟨hacc, ?_⟩
    by_cases hv : dstva / PGSIZE < n
    · rw [h.userPage_of_lt hv]
      split_ifs with hu
      · rw [Option.filter_some, if_neg fun hw => hacc (hcond.mpr ⟨hv, hu, hw⟩)]
      · rfl
    · rw [h.userPage_of_le (not_lt.mp hv)]
      rfl

/-- Where and why `copyout` stops: the page after the `k` bytes that were stored is not to be written, or
it is copy-on-write and there is no memory. Its entry has not changed. -/
structure Stops (s s' : Phys) (T T' : Tree) (dstva k : ℕ) : Prop where
  page : k = 0 ∨ (dstva + k) % PGSIZE = 0
  leaf : T'.leaf ((dstva + k) / PGSIZE) = T.leaf ((dstva + k) / PGSIZE)
  why : s'.oom = s.oom ∧ ¬T.Accepts (dstva + k) ∨
    s'.oom = true ∧ T.Accepts (dstva + k) ∧ (T.leaf ((dstva + k) / PGSIZE)).testBit 2 = false

/-- `copyout` stores the first `k` bytes, which are all if it returns 0. -/
theorem copyoutLoop_stops (h : Space L s T n top f) (htop : TopOk top) (hfuel : len ≤ fuel) :
    wp (copyoutLoop L (T.root * PGSIZE) fuel dstva src len) s fun r s' => ∃ T' k,
      Space L s' T' n top f ∧ Local f s T s' T' ∧
      (T.image s.mem).copyout fuel dstva src k = (0, T'.image s'.mem) ∧
        (r = 0 ∧ k = len ∧ s'.oom = s.oom ∨ r = -1 ∧ k < len ∧ Stops s s' T T' dstva k ∧
          (T.Accepts (dstva + k) ∨
            (T.image s.mem).copyout fuel dstva src len = (-1, T'.image s'.mem))) := by
  induction fuel generalizing s T dstva src len with
  | zero =>
    rw [copyoutLoop, wp_pure]
    exact ⟨T, 0, h, .refl f s T, rfl, .inl ⟨rfl, by omega, rfl⟩⟩
  | succ fuel ih =>
    have himg : ∀ img : Image, img.copyout (fuel + 1) dstva src 0 = (0, img) := fun img => if_pos rfl
    rw [copyoutLoop]
    by_cases hlen : len = 0
    · subst hlen
      rw [if_pos rfl, wp_pure]
      exact ⟨T, 0, h, .refl f s T, himg _, .inl ⟨rfl, rfl, rfl⟩⟩
    rw [if_neg hlen]
    have hdiv : pgRoundDown dstva / PGSIZE = dstva / PGSIZE := mul_div_pgsize _
    obtain ⟨hacc, hsome⟩ | ⟨hacc, hnone⟩ := h.storePage htop dstva
    swap
    · have hdeny : ∃ T' k, Space L s T' n top f ∧ Local f s T s T' ∧
          (T.image s.mem).copyout (fuel + 1) dstva src k = (0, T'.image s.mem) ∧
          ((-1 : ℤ) = 0 ∧ k = len ∧ s.oom = s.oom ∨
            (-1 : ℤ) = -1 ∧ k < len ∧ Stops s s T T' dstva k ∧ (T.Accepts (dstva + k) ∨
              (T.image s.mem).copyout (fuel + 1) dstva src len = (-1, T'.image s.mem))) := by
        refine ⟨T, 0, h, .refl f s T, himg _,
          .inr ⟨rfl, Nat.pos_of_ne_zero hlen, ⟨.inl rfl, rfl, .inl ⟨rfl, hacc⟩⟩, .inr ?_⟩⟩
        rw [Image.copyout, if_neg hlen, hnone]
      refine .ite (fun _ => (wp_pure _).mpr hdeny) fun hlt => ?_
      cases hq : T.low (dstva / PGSIZE / 512) with
      | none =>
        rw [wp_bind, wp_walk_none h.has (by omega) (by rw [hdiv]; exact hq), if_pos rfl]
        exact (wp_pure _).mpr hdeny
      | some q =>
        have hmod : dstva / PGSIZE % 512 < 512 := Nat.mod_lt _ (by decide)
        rw [wp_bind, wp_walk_some h.has (by omega) (by rw [hdiv]; exact hq), hdiv,
          if_neg (h.has.slot_ne_zero hq),
          wp_bind, wp_load64 hmod, h.has.leaf_eq hq, if_pos]
        · exact (wp_pure _).mpr hdeny
        · -- The address is below `MAXVA`, so it is the entry that does not accept it.
          have hva : dstva < MAXVA := by
            unfold pgRoundDown MAXVA PGSIZE at *
            omega
          by_contra hnot
          refine hacc ⟨hva, ?_⟩
          simpa [-has_V, -has_U, -has_W, -has_COW, and_assoc, or_iff_not_imp_left] using hnot
    obtain ⟨hv, hu, hw⟩ := (h.accepts_iff htop _).mp hacc
    have hleaf := h.mapped _ hv
    obtain ⟨q, hq⟩ := h.has.rep.low_of_leaf (v := dstva / PGSIZE) (by
      intro h0
      rw [h0] at hu
      simp at hu)
    have hmod : dstva / PGSIZE % 512 < 512 := Nat.mod_lt _ (by decide)
    have hlt : ¬ pgRoundDown dstva ≥ MAXVA := by
      have := h.va_lt hv.le
      rw [pgRoundDown]
      omega
    rw [if_neg hlt, wp_bind, wp_walk_some h.has (by omega) (by rw [hdiv]; exact hq), hdiv,
      if_neg (h.has.slot_ne_zero hq),
      wp_bind, wp_load64 hmod, h.has.leaf_eq hq, has_V, has_U, has_W, has_COW, if_neg]
    swap
    · rw [hleaf.valid, hu]
      revert hw
      cases (T.leaf (dstva / PGSIZE)).testBit 2 <;> cases (T.leaf (dstva / PGSIZE)).testBit 8 <;> simp
    refine (copyoutCow_spec h hv hw).bind ?_
    rintro r t ⟨T1, h₁, hl1, himg1, hleaf1, ⟨rfl, hoom1, hlow1, hw1⟩ | ⟨rfl, hoom1, hsame, h2⟩⟩
    · -- The page can be written in place.
      have hq1 : T1.low (dstva / PGSIZE / 512) = some q := by rw [hlow1, hq]
      rw [if_neg (by simp), wp_bind, wp_load64 hmod, h₁.has.leaf_eq hq1, pte2pa_eq, sub_pgRoundDown]
      simp only
      rw [wp_bind, wp_writeBytes (Nat.mod_lt _ pgsize_pos), ← hl1.root]
      have hoff : dstva % PGSIZE < PGSIZE := Nat.mod_lt _ pgsize_pos
      have hsplit := Nat.div_add_mod dstva PGSIZE
      generalize hm : min (PGSIZE - dstva % PGSIZE) len = m
      obtain ⟨h₂, hl2⟩ := h₁.write hv (h₁.priv _ hv hw1)
        ((t.mem (ppn (T1.leaf (dstva / PGSIZE)))).splice (dstva % PGSIZE) m src)
      refine wp.mono (ih h₂ (show len - m ≤ fuel by omega)) ?_
      rintro r' u ⟨T3, k, h3, hl3, hcopy, hcase⟩
      rw [h₁.image_write hv, himg1] at hcopy hcase
      -- The rest starts at the next page.
      have hnext : 0 < len - m → pgRoundDown dstva + PGSIZE = dstva + m := fun hpos => by
        rw [pgRoundDown, Nat.mul_comm]
        omega
      have hstep : ∀ j, m + j ≤ len → (T.image s.mem).copyout (fuel + 1) dstva src (m + j) =
          ((T.image s.mem).setBytes (dstva / PGSIZE) (dstva % PGSIZE) m src).copyout fuel
            (pgRoundDown dstva + PGSIZE) (fun i => src (m + i)) j := by
        intro j hj
        rw [Image.copyout, if_neg (by omega), hsome]
        simp only [show min (PGSIZE - dstva % PGSIZE) (m + j) = m by omega, Nat.add_sub_cancel_left]
        rfl
      refine ⟨T3, m + k, h3, (hl1.trans hl2).trans hl3, ?_, ?_⟩
      · rw [hstep k (by omega), hcopy]
      obtain ⟨rfl, rfl, hoom3⟩ | ⟨rfl, hk, ⟨hpage, hkeep, hwhy⟩, hdenied⟩ := hcase
      · exact .inl ⟨rfl, by omega, hoom3.trans hoom1⟩
      have hva : pgRoundDown dstva + PGSIZE + k = dstva + (m + k) := by
        have := hnext (by omega)
        omega
      rw [hva] at hpage hkeep hwhy hdenied
      have hpage' : (dstva + (m + k)) % PGSIZE = 0 := by
        obtain rfl | hpage := hpage
        · rw [← hva, Nat.add_zero, pgRoundDown, ← Nat.succ_mul, Nat.mul_mod_left]
        · exact hpage
      have hne : (dstva + (m + k)) / PGSIZE ≠ dstva / PGSIZE := by
        intro heq
        have h1 := Nat.div_add_mod (dstva + (m + k)) PGSIZE
        rw [heq] at h1
        omega
      have hsame := hleaf1 _ hne
      have hacc1 : T1.Accepts (dstva + (m + k)) ↔ T.Accepts (dstva + (m + k)) := by
        rw [Tree.Accepts, Tree.Accepts, hsame]
      rw [hacc1, hsame] at hwhy
      refine .inr ⟨rfl, by omega, ⟨.inr hpage', hkeep.trans hsame, ?_⟩, ?_⟩
      · exact hwhy.imp_left fun hplain => ⟨hplain.1.trans hoom1, hplain.2⟩
      · refine hdenied.imp hacc1.mp fun hdenied => ?_
        rw [← hdenied, ← hstep _ (by omega), Nat.add_sub_cancel' (by omega)]
    · rw [if_pos (by rfl), wp_pure]
      exact ⟨T1, 0, h₁, hl1, (himg _).trans (by rw [himg1]), .inr ⟨rfl, Nat.pos_of_ne_zero hlen,
        ⟨.inl rfl, hsame, .inr ⟨hoom1, hacc, h2⟩⟩, .inl hacc⟩⟩

/-- `copyout` does to the image what it should, unless memory ran out. -/
theorem copyoutLoop_spec (h : Space L s T n top f) (htop : TopOk top) (hfuel : len ≤ fuel) :
    wp (copyoutLoop L (T.root * PGSIZE) fuel dstva src len) s fun r s' => ∃ T',
      Space L s' T' n top f ∧ Local f s T s' T' ∧
        (s'.oom = s.oom ∧ (r, T'.image s'.mem) = (T.image s.mem).copyout fuel dstva src len ∨
          r = -1 ∧ s'.oom = true) := by
  refine (copyoutLoop_stops h htop hfuel).mono ?_
  rintro r s' ⟨T', k, h', hl, hcopy, ⟨rfl, rfl, hoom⟩ | ⟨rfl, -, ⟨-, -, hwhy⟩, hdenied⟩⟩
  · exact ⟨T', h', hl, .inl ⟨hoom, hcopy.symm⟩⟩
  · obtain ⟨hoom, hnot⟩ | ⟨hoom, -⟩ := hwhy
    · exact ⟨T', h', hl, .inl ⟨hoom, (hdenied.resolve_left hnot).symm⟩⟩
    · exact ⟨T', h', hl, .inr ⟨rfl, hoom⟩⟩

end Copyout

/-! ## `uvmclear` -/

section Clear

variable {L : Layout} {s : Phys} {T : Tree} {n v x : ℕ} {top f : ℕ → ℕ}

theorem testBit_clearU (hx : x < 2 ^ 64) (k : ℕ) :
    (x &&& (2 ^ 64 - 1 - PTE_U)).testBit k = if k = 4 then false else x.testBit k := by
  rw [Nat.testBit_and]
  by_cases hk : k < 64
  · have hmask : (2 ^ 64 - 1 - PTE_U).testBit k = !decide (k = 4) := by
      rw [show 2 ^ 64 - 1 - PTE_U = 2 ^ 64 - (PTE_U + 1) from rfl,
        Nat.testBit_two_pow_sub_succ (by decide), show PTE_U = 2 ^ 4 from rfl, Nat.testBit_two_pow]
      simp [hk, eq_comm]
    rw [hmask]
    by_cases h4 : k = 4 <;> simp [h4]
  · have hzero : x.testBit k = false := Nat.testBit_lt_two_pow (hx.trans_le
      (Nat.pow_le_pow_right (by decide) (by omega)))
    rw [hzero, Bool.false_and, if_neg (by omega)]

/-- `uvmclear` of a page below the size withdraws it from the user. -/
theorem uvmclear_spec (h : Space L s T n top f) (hv : v < n) :
    wp (uvmclear (T.root * PGSIZE) (v * PGSIZE)) s fun _ s' => ∃ T', Space L s' T' n top f ∧
      Local f s T s' T' ∧ T'.image s'.mem = (T.image s.mem).clearUser v ∧ s'.oom = s.oom := by
  have hx := h.mapped v hv
  have hvU := hv.trans_le h.le
  obtain ⟨q, hq⟩ := h.has.rep.low_of_leaf (v := v) (by
    intro h0
    have := hx.valid
    simp [h0] at this)
  have hmod : v % 512 < 512 := Nat.mod_lt _ (by decide)
  have hlt : T.leaf v < 2 ^ 64 := by
    rw [← h.has.leaf_eq hq]
    exact Bytes.le_lt _ _ _
  have hbit := testBit_clearU hlt
  set e := T.leaf v &&& (2 ^ 64 - 1 - PTE_U) with he
  have hppn : ppn e = ppn (T.leaf v) := ppn_eq_of_testBit fun k hk => by
    rw [hbit, if_neg (by omega)]
  have hleaf : UserLeaf e := ⟨by rw [hbit]; exact hx.valid, by rw [hbit]; exact hx.read, by
    rw [hbit, hbit]
    exact hx.cow⟩
  have huser : (T.setLeaf v e).user = T.user :=
    T.user_setLeaf hvU hppn (by rw [hbit]; rfl)
  unfold uvmclear
  rw [wp_bind, wp_walk_some h.has (h.va_lt hv.le) (by rw [va_page]; exact hq), va_page,
    if_neg (h.has.slot_ne_zero hq), wp_bind,
    wp_load64 hmod, h.has.leaf_eq hq, wp_store64 hmod, ← he]
  have hset := h.has.setLeaf hq (e := e) (lt_of_le_of_lt Nat.and_le_left hlt)
  have hspace : Space L (s.write q ((s.mem q).setLe (8 * (v % 512)) 8 e)) (T.setLeaf v e) n top f := by
    refine h.replace hv rfl hleaf (fun w hw hne heq => ?_) (fun hw => ?_) (by rw [huser]; exact hset)
    · rw [hppn] at heq
      exact hne (h.inj w v hw hv heq)
    · rw [hppn]
      refine h.priv v hv ?_
      rwa [hbit] at hw
  have hkeep := low_keeps h.has hq ((s.mem q).setLe (8 * (v % 512)) 8 e)
  refine ⟨_, hspace, ⟨rfl, hkeep.mono fun r hr => by rw [Pi.add_apply]; omega, fun r _ => by
    rw [huser]⟩, ?_, rfl⟩
  funext w
  unfold Image.clearUser
  by_cases hw : w < n
  · have hmem : (s.write q ((s.mem q).setLe (8 * (v % 512)) 8 e)).mem (ppn (T.leaf w)) =
        s.mem (ppn (T.leaf w)) := hkeep _ (by
      have := h.user_ne_zero hw
      rw [Pi.add_apply]
      omega)
    by_cases hwv : w = v
    · rw [hwv] at hmem ⊢
      rw [update_self, hspace.image_of_lt hv, h.image_of_lt hv, T.setLeaf_self, hppn, hmem,
        hbit, hbit, hbit, hbit]
      rfl
    · rw [update_of_ne hwv, hspace.image_of_lt hw, h.image_of_lt hw, T.setLeaf_of_ne hwv,
        hmem]
  · rw [update_of_ne (by omega), hspace.image_of_le (not_lt.mp hw),
      h.image_of_le (not_lt.mp hw)]

end Clear

/-! ## Pages held by the kernel -/

section Held

variable {L : Layout} {s : Phys} {T : Tree} {n p : ℕ} {top f : ℕ → ℕ}

theorem Space.kalloc (h : Space L s T n top f) : wp kalloc s fun pa s' =>
    (pa = 0 ∧ Space L s' T n top f ∧ s'.mem = s.mem ∧ s'.oom = true) ∨
      ∃ p, pa = p * PGSIZE ∧ InRam L p ∧ T.pt p + T.user p + f p = 0 ∧
        Space L s' T n top (ref p + f) ∧
        s'.mem = update s.mem p (Bytes.fill PGSIZE 5) ∧ s'.oom = s.oom := by
  refine h.has.kalloc.mono ?_
  rintro pa s' (⟨hpa, hhas, hmem, hoom⟩ | ⟨p, hpa, hram, hfree, hhas, hmem, hoom⟩)
  · exact .inl ⟨hpa, h.of_leaf rfl hhas, hmem, hoom⟩
  · rw [Pi.add_apply] at hfree
    have hne : ∀ q, T.pt q ≠ 0 ∨ T.user q ≠ 0 → q ≠ p := by
      rintro q hq rfl
      omega
    have hacct := hhas.acct
    rw [show T.pt + (T.user + f + ref p) = T.pt + (T.user + (ref p + f)) by abel] at hacct
    refine .inr ⟨p, hpa, hram, by omega, h.frame hacct (fun q hq => ?_) (fun q hq => ?_)
      fun v hv hw => ?_, hmem, hoom⟩
    · rw [hmem, update_of_ne (hne q (.inl hq))]
    · have := h.has.excl q hq
      rw [Pi.add_apply] at this ⊢
      rw [ref_of_ne (hne q (.inl hq))]
      omega
    · rw [Pi.add_apply, ref_of_ne (hne _ (.inr (h.user_ne_zero hv))), h.priv v hv hw]

theorem Space.kfree (h : Space L s T n top (ref p + f)) : wp (kfree L (p * PGSIZE)) s fun _ s' =>
    Space L s' T n top f ∧ Keeps (T.user + f) s s' ∧ s'.oom = s.oom := by
  have hhas := h.has
  rw [show T.user + (ref p + f) = ref p + (T.user + f) by abel] at hhas
  refine hhas.kfree.mono ?_
  rintro - s' ⟨h', hmem, hoom⟩
  have hle : ∀ q, (ref p + f) q = 0 → f q = 0 := fun q hq => by
    rw [Pi.add_apply] at hq
    omega
  refine ⟨h.frame h'.acct (fun q hq => hmem q (by omega)) (fun q hq => ?_)
    fun v hv hw => hle _ (h.priv v hv hw), fun q hq => hmem q (by omega), hoom⟩
  have := h.has.excl q hq
  rw [Pi.add_apply] at this
  exact hle q (by omega)

theorem Space.writeHeld (h : Space L s T n top f) (hp : f p ≠ 0) (b : Page) :
    Space L (s.write p b) T n top f :=
  h.of_leaf rfl (h.has.write (by rw [Pi.add_apply]; omega) b)

end Held

end Xv6.Vm
