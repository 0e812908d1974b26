import Xv6.Mkfs.Image
import Xv6.Fs.Directory

/-!
# The kernel reads what `mkfs` has written

`mkfs` and the kernel have their own code for block addresses, inodes and directory entries. On an image
that `mkfs` has written, `dirlookup` in the root directory finds every file, and `readi` returns its bytes
(`mkfs_kernel_agree`). The root directory can end in a hole, so that the image is not a consistent file
system; the entries of the files come before it.
-/

namespace Xv6.Mkfs

open Lib
open Fs

/-! ## The bitmap -/

section Bitmap

variable {used b : ℕ}

theorem bit_bitmap (hb : b < BPB) (hused : used ≤ BPB) : bit (bitmap used) b = decide (b < used) := by
  have hbyte : b / 8 < BSIZE := by
    unfold BPB at hb
    omega
  have hmod : b % BPB = b := Nat.mod_eq_of_lt hb
  unfold bit
  rw [hmod]
  -- Induction on the number of blocks: each turn sets one bit.
  induction used with
  | zero =>
    unfold bitmap
    rw [Nat.fold_zero, Bytes.get_fill hbyte]
    simp
  | succ n ih =>
    have ih := ih (by omega)
    unfold bitmap at ih ⊢
    rw [Nat.fold_succ, Bytes.get_splice _ _ _ _ hbyte]
    generalize Nat.fold n (fun i _ (buf : Block) => buf.splice (i / 8) 1 fun _ =>
      UInt8.ofNat ((buf.get (i / 8)).toNat ||| 2 ^ (i % 8))) (Bytes.fill BSIZE 0) = buf at ih ⊢
    by_cases hsame : n / 8 ≤ b / 8 ∧ b / 8 < n / 8 + 1
    · have hdiv : b / 8 = n / 8 := by omega
      have hsmall : (buf.get (n / 8)).toNat ||| 2 ^ (n % 8) < 2 ^ 8 :=
        Nat.or_lt_two_pow (UInt8.toNat_lt _) (Nat.pow_lt_pow_right (by decide) (Nat.mod_lt _ (by decide)))
      rw [hdiv] at ih
      rw [if_pos hsame, UInt8.toNat_ofNat_of_lt' hsmall, Nat.testBit_or, ih, Nat.testBit_two_pow,
        ← Bool.decide_or]
      refine decide_eq_decide.mpr ?_
      omega
    · rw [if_neg hsame, ih]
      refine decide_eq_decide.mpr ?_
      omega

end Bitmap

/-! ## The image in the kernel -/

/-- The magic number that `fsinit` looks for. -/
def FSMAGIC : ℕ := 0x10203040

/-- `readsb`: the fields of the superblock that the file-system code uses. -/
def readsb (b : Block) : Superblock where
  size := b.le 4 4
  ninodes := b.le 12 4
  inodestart := b.le 24 4
  bmapstart := b.le 28 4

/-- A state of the kernel on the image, with the superblock that `fsinit` has read from it. -/
structure On (img : Img) (s : State) : Prop where
  sb : s.sb = sb
  disk : s.disk = img.disk

section Kernel

variable {files : List File} {c : ℕ → ℕ → UInt8} {t img : Img} {s : State} {ip dp : Ino} {i k : ℕ}

theorem geometry : Geometry sb nmeta where
  inodes i hi := (iblock_lt_bmapstart (lt_trans hi (by decide))).2
  bitmap b hb := by
    have hlt : b < BPB := lt_trans (show b < FSSIZE from hb) (by decide)
    unfold Superblock.bblock
    rw [Nat.div_eq_of_lt hlt, Nat.zero_add]
    exact bmapstart_lt
  lo_le := by decide
  size_lt := by decide

/-- `fsinit` finds the magic number, and reads the superblock that `mkfs` works with. -/
theorem Made.superblock (h : Made files c t img) :
    (img.disk 1).le 0 4 = FSMAGIC ∧ readsb (img.disk 1) = sb := by
  obtain ⟨din, -, -, -, hdisk⟩ := h.disk
  have hone : img.disk 1 = sbBlock := by
    rw [hdisk, Function.update_of_ne (by decide), setDinode_super, h.good.super]
  rw [hone]
  exact ⟨by decide, by rw [readsb, sb, Superblock.mk.injEq]; decide⟩

theorem Made.marked_eq (h : Made files c t img) {b : ℕ} (hb : b < FSSIZE) :
    marked sb img.disk b = decide (b < img.freeblock) := by
  have hlt : b < BPB := hb.trans (by decide)
  obtain ⟨din, -, -, -, hdisk⟩ := h.disk
  have hblock : sb.bblock b = sb.bmapstart := by
    unfold Superblock.bblock
    rw [Nat.div_eq_of_lt hlt, Nat.zero_add]
  unfold marked
  rw [hblock, hdisk, Function.update_self, h.freeblock]
  exact bit_bitmap hlt (h.good.files.hi.trans (by decide))

theorem On.lt (hs : On img s) (hl : Live s i) : i < NINODES := by
  have := hl.1
  rw [hs.sb] at this
  exact this

theorem Made.diskAddrs_ptr (h : Made files c t img) (hs : On img s) (i k : ℕ) :
    ptr s.diskAddrs s.disk i k = if Live s i then ptr t.addrs t.disk i k else 0 := by
  by_cases hl : Live s i
  · have hroom : i < NROOM := (hs.lt hl).trans (by decide)
    rw [if_pos hl, ← h.ptr_eq hroom, hs.disk]
    refine ptr_congr (fun k _ => ?_) (fun _ => rfl) k
    unfold State.diskAddrs
    rw [if_pos hl, hs.sb, hs.disk]
  · have hnull : s.diskAddrs i = fun _ => 0 := if_neg hl
    unfold ptr
    rw [if_neg hl, hnull, if_pos rfl, ite_self]

theorem Made.volume (h : Made files c t img) (hs : On img s) (hl : Loaded s ip) : Volume s ip nmeta := by
  have hfiles := h.good.files
  have hptr : ∀ i k, ptr (s.addrs ip) s.disk i k = if Live s i then ptr t.addrs t.disk i k else 0 :=
    fun i k => (hl.ptr_eq i k).trans (h.diskAddrs_ptr hs i k)
  have hlive : ∀ {i k : ℕ}, ptr (s.addrs ip) s.disk i k ≠ 0 → Live s i := by
    intro i k hne
    by_contra hno
    rw [hptr, if_neg hno] at hne
    exact hne rfl
  have hrange : ∀ i k, k < NSLOT → ptr (s.addrs ip) s.disk i k ≠ 0 →
      nmeta ≤ ptr (s.addrs ip) s.disk i k ∧ ptr (s.addrs ip) s.disk i k < t.freeblock := by
    intro i k hk hne
    have hl' := hlive hne
    rw [hptr, if_pos hl'] at hne ⊢
    exact hfiles.owns.range i k hk hne
  constructor
  · rw [hs.sb]
    exact geometry
  · decide
  · rw [hs.sb]
    constructor
    · intro i k hk hne
      exact ⟨(hrange i k hk hne).1, (hrange i k hk hne).2.trans_le hfiles.hi⟩
    · intro i k i' k' hk hk' hne heq
      have hl1 := hlive hne
      have hl2 := hlive (heq ▸ hne)
      rw [hptr, if_pos hl1] at hne heq
      rw [hptr, if_pos hl2] at heq
      exact hfiles.owns.inj i k i' k' hk hk' hne heq
  · intro b hb
    have hlo := hfiles.lo
    rw [hs.sb, hs.disk, h.marked_eq (hb.trans_le (by decide)), h.freeblock]
    exact decide_eq_true (by omega)
  · intro i k hk hne
    have := hrange i k hk hne
    generalize ptr (s.addrs ip) s.disk i k = b at this ⊢
    rw [hs.sb, hs.disk, h.marked_eq (this.2.trans_le hfiles.hi), h.freeblock]
    exact decide_eq_true this.2

theorem Made.byteAt_eq (h : Made files c t img) (hs : On img s) (hl : Loaded s ip) {p : ℕ}
    (hp : p < t.size (s.inode ip).inum) :
    byteAt (s.addrs ip) s.disk (s.inode ip).inum p = c (s.inode ip).inum p := by
  have hfiles := h.good.files
  have hmax : p < MAXFILE * BSIZE := hp.trans_le (hfiles.fits _)
  have hbytes := hfiles.bytes (s.inode ip).inum p hmax
  rw [if_pos hp] at hbytes
  rw [← hbytes]
  unfold byteAt blockData
  have hptr : ptr (s.addrs ip) s.disk (s.inode ip).inum (slotOf (p / BSIZE)) =
      ptr t.addrs t.disk (s.inode ip).inum (slotOf (p / BSIZE)) := by
    rw [hl.ptr_eq, h.diskAddrs_ptr hs, if_pos hl.live]
  rw [hptr]
  refine congrArg (fun b : Block => b.get _) (if_ctx_congr Iff.rfl (fun _ => rfl) fun hne => ?_)
  have hbn : p / BSIZE < MAXFILE := Nat.div_lt_of_lt_mul (by rwa [Nat.mul_comm])
  rw [hs.disk, h.disk_eq (hfiles.owns.range _ _ (slotOf_lt hbn) hne).1]

theorem Made.blocks (h : Made files c t img) (hs : On img s) (hl : Loaded s ip) {bn : ℕ}
    (hbn : bn * BSIZE < t.size (s.inode ip).inum) :
    ptr (s.addrs ip) s.disk (s.inode ip).inum (slotOf bn) ≠ 0 := by
  have hfiles := h.good.files
  have hlt : bn < MAXFILE := by
    have := hbn.trans_le (hfiles.fits (s.inode ip).inum)
    exact Nat.lt_of_mul_lt_mul_right this
  rw [hl.ptr_eq, h.diskAddrs_ptr hs, if_pos hl.live]
  exact (hfiles.blocks _ bn hlt).mpr hbn

theorem Made.size_eq (h : Made files c t img) (hs : On img s) (hl : Loaded s ip) :
    (s.inode ip).size = if (s.inode ip).inum = ROOTINO then (t.size ROOTINO / BSIZE + 1) * BSIZE
      else t.size (s.inode ip).inum := by
  have hroom : (s.inode ip).inum < NROOM := (hs.lt hl.live).trans (by decide)
  rw [hl.size, State.fsize, hs.sb, hs.disk]
  exact (h.field hroom).2.1

/-! ## Names -/

/-- `dirlookup` stops at the first entry with the name, if it can read the entries up to it. -/
theorem lookupLoop_finds {E : ℕ → List UInt8} {name : Name} {m j fuel : ℕ}
    (hread : ∀ j, j ≤ m → wp (readi dp (DIRENT * j) DIRENT) s fun r s' =>
      s' = s ∧ r = E j ∧ r.length = DIRENT)
    (hsize : DIRENT * m < (s.inode dp).size)
    (hno : ∀ j, j < m → key name ≠ key ((E j).drop 2))
    (hyes : direntInum (E m) ≠ 0 ∧ key name = key ((E m).drop 2)) (hj : j ≤ m) (hfuel : m - j < fuel) :
    wp (lookupLoop dp name fuel (DIRENT * j)) s fun r s' =>
      s' = s ∧ r = some (direntInum (E m), DIRENT * m) := by
  induction fuel generalizing j with
  | zero => omega
  | succ fuel ih =>
    have hmul := Nat.mul_le_mul_left DIRENT hj
    rw [lookupLoop, wp_bind, wp_get, if_neg (by omega)]
    refine (hread j hj).bind ?_
    rintro de s ⟨rfl, rfl, hlen⟩
    rw [if_neg (not_not.mpr hlen)]
    by_cases hend : j = m
    · subst hend
      rw [if_pos ⟨hyes.1, (nameEq_iff _ _).mpr hyes.2⟩, wp_pure]
      exact ⟨rfl, rfl⟩
    · have hlt : j < m := by omega
      rw [if_neg fun hc => hno j hlt ((nameEq_iff _ _).mp hc.2)]
      exact ih hlt (by omega)

/-- The names of the files are C strings, different in their first `DIRSIZ` bytes, and not `"."` or
`".."`. -/
structure Names (files : List File) : Prop where
  nul : ∀ f ∈ files, 0 ∉ f.argv
  distinct : (files.map fun f => f.shortname.take DIRSIZ).Nodup
  dot : ∀ f ∈ files, f.shortname ≠ Fs.dot ∧ f.shortname ≠ Fs.dotdot

theorem File.nul_shortname {f : File} (h : 0 ∉ f.argv) : 0 ∉ f.shortname := by
  have huser : 0 ∉ stripUser f.argv := by
    unfold stripUser
    split_ifs
    · exact fun hmem => h (List.mem_of_mem_drop hmem)
    · exact h
  unfold File.shortname stripUnderscore
  split_ifs
  · exact fun hmem => huser (List.mem_of_mem_tail hmem)
  · exact huser

theorem key_of_nul {name : Name} (h : 0 ∉ name) : key name = name.take DIRSIZ := by
  have : name.takeWhile (· ≠ 0) = name := by
    rw [List.takeWhile_eq_self_iff]
    intro b hb
    simpa using fun h0 : b = 0 => h (h0 ▸ hb)
  rw [key, this]

theorem eq_of_take_eq {name short : Name} (hlen : short.length < DIRSIZ) (h : name.take DIRSIZ = short) :
    name = short := by
  have hl := congrArg List.length h
  rw [List.length_take] at hl
  rw [← h, List.take_of_length_le (by omega)]

/-- The entries of the root directory. -/
def Img.entry (c : ℕ → ℕ → UInt8) (j : ℕ) : List UInt8 :=
  (List.range DIRENT).map fun q => c ROOTINO (DIRENT * j + q)

theorem Made.entry_file (h : Made files c t img) {j : ℕ} {f : File} (hf : files[j]? = some f) :
    Img.entry c (j + 2) = (List.range DIRENT).map (dirent (j + 2) f.shortname) := by
  refine List.map_congr_left fun q hq => ?_
  rw [← Nat.add_comm 2 j, ← h.listed.entry j f hf q (List.mem_range.mp hq), Nat.mul_add, Nat.mul_comm DIRENT 2]

theorem Made.entry_ne (h : Made files c t img) (hn : Names files) {j : ℕ} {f : File}
    (hf : files[j]? = some f) {i : ℕ} (hi : i < j + 2) :
    key f.shortname ≠ key ((Img.entry c i).drop 2) := by
  have hmem := List.mem_of_getElem? hf
  have hnul := File.nul_shortname (hn.nul f hmem)
  obtain ⟨hdot, hdotdot⟩ := hn.dot f hmem
  obtain rfl | rfl | ⟨k, rfl⟩ : i = 0 ∨ i = 1 ∨ ∃ k, i = k + 2 := by
    by_cases h2 : 2 ≤ i
    · exact .inr (.inr ⟨i - 2, by omega⟩)
    · omega
  · have hentry : Img.entry c 0 = (List.range DIRENT).map (dirent ROOTINO Fs.dot) := by
      refine List.map_congr_left fun q hq => ?_
      rw [← h.dot q (List.mem_range.mp hq), Nat.mul_zero, Nat.zero_add]
    rw [hentry, key_dirent, key_of_nul hnul]
    exact fun heq => hdot (eq_of_take_eq (by decide) heq)
  · have hentry : Img.entry c 1 = (List.range DIRENT).map (dirent ROOTINO Fs.dotdot) := by
      refine List.map_congr_left fun q hq => ?_
      rw [← h.dotdot q (List.mem_range.mp hq), Nat.mul_one]
    rw [hentry, key_dirent, key_of_nul hnul]
    exact fun heq => hdotdot (eq_of_take_eq (by decide) heq)
  · have hlen := (List.getElem?_eq_some_iff.mp hf).1
    have hg : files[k]? = some (files.get ⟨k, by omega⟩) := List.getElem?_eq_getElem _
    generalize files.get ⟨k, by omega⟩ = g at hg
    rw [h.entry_file hg, key_dirent, key_of_nul hnul,
      key_of_nul (File.nul_shortname (hn.nul g (List.mem_of_getElem? hg)))]
    intro heq
    have hkj : k = j := by
      refine (List.getElem?_inj (by rw [List.length_map]; omega) hn.distinct).mp ?_
      rw [List.getElem?_map, List.getElem?_map, hf, hg]
      exact congrArg some heq.symm
    omega

theorem Made.dirlookup_run (h : Made files c t img) (hs : On img s) (hl : Loaded s dp)
    (hroot : (s.inode dp).inum = ROOTINO) (hlen : files.length ≤ 198) (hn : Names files) {j : ℕ} {f : File}
    (hf : files[j]? = some f) :
    (dirlookup dp f.shortname).run s = (found (s.inode dp).dev (some (j + 2, DIRENT * (j + 2)))).run s := by
  have hj := (List.getElem?_eq_some_iff.mp hf).1
  have hsize := h.size_eq hs hl
  rw [if_pos hroot] at hsize
  have hroots := h.root
  have hlast : t.size ROOTINO < (s.inode dp).size := by
    have := Nat.div_add_mod (t.size ROOTINO) BSIZE
    have := Nat.mod_lt (t.size ROOTINO) (show 0 < BSIZE by decide)
    rw [hsize, Nat.add_mul, Nat.one_mul, Nat.mul_comm]
    omega
  have hmax : (s.inode dp).size ≤ MAXFILE * BSIZE := by
    have hb : (t.size ROOTINO / BSIZE + 1) ≤ MAXFILE := by
      rw [hroots]
      have : DIRENT * (files.length + 2) / BSIZE ≤ DIRENT * 200 / BSIZE :=
        Nat.div_le_div_right (Nat.mul_le_mul_left _ (by omega))
      have : DIRENT * 200 / BSIZE = 3 := by decide
      have : 4 ≤ MAXFILE := by decide
      omega
    rw [hsize]
    exact Nat.mul_le_mul_right _ hb
  -- The entries up to that of the file are in blocks that are there.
  have hread : ∀ i, i ≤ j + 2 → wp (readi dp (DIRENT * i) DIRENT) s fun r s' =>
      s' = s ∧ r = Img.entry c i ∧ r.length = DIRENT := by
    intro i hi
    have hle : DIRENT * i + DIRENT ≤ t.size ROOTINO := by
      have := Nat.mul_le_mul_left DIRENT (show i + 1 ≤ files.length + 2 by omega)
      rw [hroots]
      rwa [Nat.mul_add, Nat.mul_one] at this
    have h32 := maxfile_lt
    refine ((h.volume hs hl).readi_spec hmax (fun bn hbn => h.blocks hs hl ?_) (by omega) (by decide)).mono ?_
    · rw [hroot]
      omega
    · rintro r u ⟨rfl, rfl⟩
      rw [if_neg (by omega), Nat.min_eq_left (by omega)]
      refine ⟨rfl, List.map_congr_left fun q hq => ?_, by simp⟩
      have := List.mem_range.mp hq
      rw [h.byteAt_eq hs hl (by rw [hroot]; omega), hroot]
  have hfound : direntInum (Img.entry c (j + 2)) = j + 2 := by
    rw [h.entry_file hf, direntInum_dirent (by omega)]
  have hle : DIRENT * (j + 2) < (s.inode dp).size := by
    have := Nat.mul_le_mul_left DIRENT (show j + 2 ≤ files.length + 2 by omega)
    omega
  obtain ⟨r, u, hrun, rfl, rfl⟩ := lookupLoop_finds (j := 0) hread hle (fun i hi => h.entry_ne hn hf hi)
    ⟨by rw [hfound]; omega, by rw [h.entry_file hf, key_dirent]⟩ (Nat.zero_le _)
    (show j + 2 - 0 < (s.inode dp).size + 1 by
      have : j + 2 ≤ DIRENT * (j + 2) := Nat.le_mul_of_pos_left _ (by decide)
      omega)
  have htype : (u.inode dp).type = T_DIR := by
    rw [hl.type, hs.sb, hs.disk, hroot, (h.field (show ROOTINO < NROOM by decide)).1, h.rootType]
  rw [Nat.mul_zero] at hrun
  unfold dirlookup
  rw [run_bind_of_ok (show (get : F State).run u = .ok (u, u) from rfl), if_neg (not_not.mpr htype),
    run_bind_of_ok hrun, hfound]
  rfl

/-! ## Bytes -/

theorem range_map_getD (l : List UInt8) (off n : ℕ) :
    ((List.range (min n (l.length - off))).map fun k => l.getD (off + k) 0) = (l.drop off).take n := by
  apply List.ext_getElem
  · simp
  · intro k hk _
    have hk' : k < min n (l.length - off) := by simpa using hk
    rw [List.getElem_map, List.getElem_range, List.getElem_take, List.getElem_drop,
      List.getD_eq_getElem _ _ (by omega)]

/-- `readi` returns the bytes of the file. -/
theorem Made.readi_spec (h : Made files c t img) (hs : On img s) (hl : Loaded s ip) {j : ℕ} {f : File}
    (hf : files[j]? = some f) (hinum : (s.inode ip).inum = j + 2) {off n : ℕ} (hoff : off < 2 ^ 32)
    (hn : n < 2 ^ 32) :
    wp (readi ip off n) s fun r s' => s' = s ∧
      r = if 2 ^ 32 ≤ off + n then [] else (f.contents.drop off).take n := by
  have hlen : t.size (j + 2) = f.contents.length := by
    rw [← h.listed.size j f hf, Nat.add_comm]
  have hsize := h.size_eq hs hl
  rw [hinum, if_neg (by unfold ROOTINO; omega)] at hsize
  have hmax : (s.inode ip).size ≤ MAXFILE * BSIZE := by
    rw [hsize]
    exact h.good.files.fits _
  refine ((h.volume hs hl).readi_spec hmax (fun bn hbn => h.blocks hs hl ?_) hoff hn).mono ?_
  · rw [hinum]
    omega
  · rintro r u ⟨rfl, rfl⟩
    refine ⟨rfl, ?_⟩
    by_cases hwrap : 2 ^ 32 ≤ off + n
    · rw [if_pos (.inr hwrap), if_pos hwrap]
    rw [if_neg hwrap]
    by_cases hbeyond : (u.inode ip).size < off
    · rw [if_pos (.inl hbeyond), List.drop_of_length_le (by omega), List.take_nil]
    · rw [if_neg (by omega), ← range_map_getD, hsize, hlen]
      refine List.map_congr_left fun k hk => ?_
      have := List.mem_range.mp hk
      rw [h.byteAt_eq hs hl (by rw [hinum]; omega), hinum, Nat.add_comm j 2]
      exact h.listed.bytes j f hf _ (by omega)

/-- **`mkfs` and the kernel agree.** Files that fit are written. The kernel reads the superblock that
`mkfs` works with. On the image, `dirlookup` in the root
directory finds each file by its name; the inode found has the length of the file, and `readi` returns
its bytes for every offset and length whose sum is a 32-bit number, and nothing otherwise. The bitmap
marks exactly the blocks below `freeblock`; all metadata blocks and all blocks of inodes are below it. -/
theorem mkfs_kernel_agree (hlen : files.length ≤ 198) (hfit : Fit files) (hn : Names files) :
    ∃ img, mkfs files = .ok img ∧ ((img.disk 1).le 0 4 = FSMAGIC ∧ readsb (img.disk 1) = sb) ∧
      (∀ s dp, On img s → Loaded s dp → (s.inode dp).inum = ROOTINO → ∀ j f, files[j]? = some f →
        (dirlookup dp f.shortname).run s =
          (found (s.inode dp).dev (some (j + 2, DIRENT * (j + 2)))).run s) ∧
      (∀ s ip, On img s → Loaded s ip → ∀ j f, files[j]? = some f → (s.inode ip).inum = j + 2 →
        s.fsize (j + 2) = f.contents.length ∧
        ∀ off n, off < 2 ^ 32 → n < 2 ^ 32 → wp (readi ip off n) s fun r s' => s' = s ∧
          r = if 2 ^ 32 ≤ off + n then [] else (f.contents.drop off).take n) ∧
      (∀ b, b < FSSIZE → (marked sb img.disk b = true ↔ b < img.freeblock)) ∧
      nmeta ≤ img.freeblock ∧
      ∀ i, i < NINODES → ∀ k, k < NSLOT → ptr (dinodeAddrs sb img.disk) img.disk i k ≠ 0 →
        ptr (dinodeAddrs sb img.disk) img.disk i k < img.freeblock := by
  have hroom : files.length + 2 ≤ NSTORE := by
    rw [nstore_eq]
    omega
  obtain ⟨img, hrun⟩ := mkfs_succeeds hfit hroom
  obtain ⟨c, t, h⟩ := mkfs_made hrun hroom
  refine ⟨img, hrun, h.superblock, ?_, ?_, ?_, ?_, ?_⟩
  · intro s dp hs hl hroot j f hf
    exact h.dirlookup_run hs hl hroot hlen hn hf
  · intro s ip hs hl j f hf hinum
    refine ⟨?_, fun off n hoff hn' => h.readi_spec hs hl hf hinum hoff hn'⟩
    have hsize := h.size_eq hs hl
    rw [hinum, if_neg (by unfold ROOTINO; omega)] at hsize
    rw [← hinum, ← hl.size, hsize, ← h.listed.size j f hf, Nat.add_comm]
  · intro b hb
    rw [h.marked_eq hb, decide_eq_true_iff]
  · rw [h.freeblock]
    exact h.good.files.lo
  · intro i hi k hk hne
    have hroom' : i < NROOM := hi.trans (by decide)
    rw [h.ptr_eq hroom'] at hne ⊢
    rw [h.freeblock]
    exact (h.good.files.owns.range i k hk hne).2

/-! ## One file -/

/-- A file of two bytes. -/
def twoBytes : List File := [⟨[97], some [[1, 2]]⟩]

theorem fit_twoBytes : Fit twoBytes where
  ok f hf := by
    obtain rfl := List.mem_singleton.mp hf
    exact ⟨by decide, rfl, by decide⟩
  blocks := by decide

theorem names_twoBytes : Names twoBytes where
  nul f hf := by
    obtain rfl := List.mem_singleton.mp hf
    decide
  distinct := by decide
  dot f hf := by
    obtain rfl := List.mem_singleton.mp hf
    decide

/-- The entries of the inode table that hold the root directory and a file. -/
def rootEntry : Ino := ⟨0, zero_lt_ninode⟩

def fileEntry : Ino := ⟨1, by decide⟩

/-- The inode on the image, as `iget` and `ilock` bring it into memory. -/
def held (img : Img) (inum : ℕ) : Inode :=
  getDinode (img.disk (sb.iblock inum)) inum ⟨ROOTDEV, inum, 1, true, true, 0, 0, 0, 0, 0, fun _ => 0⟩

/-- A kernel state on the image that holds the root directory and inode `inum`. -/
def holding (img : Img) (inum : ℕ) : State where
  sb := sb
  disk := img.disk
  inode ip := if ip = rootEntry then held img ROOTINO else if ip = fileEntry then held img inum
    else ⟨0, 0, 0, false, false, 0, 0, 0, 0, 0, fun _ => 0⟩

theorem holding_root (img : Img) (inum : ℕ) : (holding img inum).inode rootEntry = held img ROOTINO := by
  simp [holding]

theorem holding_file (img : Img) (inum : ℕ) : (holding img inum).inode fileEntry = held img inum := by
  simp [holding, fileEntry, rootEntry]

theorem on_holding (img : Img) (inum : ℕ) : On img (holding img inum) := ⟨rfl, rfl⟩

theorem loaded_holding {inum : ℕ} (hip : (holding img inum).inode ip = held img i)
    (hlive : Live (holding img inum) i) : Loaded (holding img inum) ip := by
  have hinum : (held img i).inum = i := rfl
  constructor
  · rwa [hip, hinum]
  · rw [hip]
    rfl
  · rw [hip]
    rfl
  · rw [hip]
    rfl
  · intro k _
    rw [hip]
    change _ = dinodeAddrs sb img.disk i k
    unfold dinodeAddrs dinodeField
    rw [← Nat.add_assoc]
    rfl

theorem Made.loaded_file (h : Made files c t img) (hlen : files.length ≤ 198) {j : ℕ} {f : File}
    (hf : files[j]? = some f) : Loaded (holding img (j + 2)) fileEntry := by
  have hj := (List.getElem?_eq_some_iff.mp hf).1
  refine loaded_holding (holding_file img (j + 2)) ⟨?_, ?_⟩
  · change j + 2 < 200
    omega
  · change dinodeType sb img.disk (j + 2) ≠ 0
    rw [(h.field (by rw [nroom_eq]; omega)).1, Nat.add_comm, h.listed.type j f hf]
    decide

theorem Made.loaded_root (h : Made files c t img) (inum : ℕ) : Loaded (holding img inum) rootEntry := by
  refine loaded_holding (holding_root img inum) ⟨show 1 < 200 by decide, ?_⟩
  change dinodeType sb img.disk ROOTINO ≠ 0
  rw [(h.field (by decide)).1, h.rootType]
  decide

/-- The file `a` is found in the root directory, as inode 2 by its third entry, and read. -/
theorem mkfs_kernel_agree_twoBytes : ∃ img, mkfs twoBytes = .ok img ∧
    (dirlookup rootEntry [97]).run (holding img 2) =
      (found ROOTDEV (some (2, DIRENT * 2))).run (holding img 2) ∧
    wp (readi fileEntry 1 5) (holding img 2) fun r _ => r = [2] := by
  obtain ⟨img, hrun, -, hlook, hread, -⟩ := mkfs_kernel_agree (show twoBytes.length ≤ 198 by decide)
    fit_twoBytes names_twoBytes
  obtain ⟨c, t, h⟩ := mkfs_made hrun (by decide)
  have hl : Loaded (holding img 2) fileEntry := h.loaded_file (by decide) (j := 0) rfl
  have hinum : ((holding img 2).inode fileEntry).inum = 0 + 2 := by rw [holding_file]; rfl
  refine ⟨img, hrun, ?_, ?_⟩
  · have := hlook _ rootEntry (on_holding img 2) (h.loaded_root 2) (by rw [holding_root]; rfl) 0 _ rfl
    rwa [holding_root] at this
  refine ((hread _ fileEntry (on_holding img 2) hl 0 _ rfl hinum).2 1 5 (by decide) (by decide)).mono ?_
  rintro r u ⟨-, rfl⟩
  rfl

/-- Where offset and length sum up to `2 ^ 32`, `readi` returns nothing. -/
theorem mkfs_readi_wraps : ¬ ∀ files : List File, files.length ≤ 198 → Fit files → Names files →
    ∀ img, mkfs files = .ok img → ∀ s ip, On img s → Loaded s ip → ∀ j f, files[j]? = some f →
      (s.inode ip).inum = j + 2 → ∀ off n, off < 2 ^ 32 → n < 2 ^ 32 →
        wp (readi ip off n) s fun r _ => r = (f.contents.drop off).take n := by
  intro hall
  obtain ⟨img, hrun⟩ := mkfs_succeeds fit_twoBytes (by decide)
  obtain ⟨c, t, h⟩ := mkfs_made hrun (by decide)
  have hl : Loaded (holding img 2) fileEntry := h.loaded_file (by decide) (j := 0) rfl
  have hon := on_holding img 2
  have hinum : ((holding img 2).inode fileEntry).inum = 0 + 2 := by rw [holding_file]; rfl
  obtain ⟨r, u, hread, hr⟩ := hall twoBytes (by decide) fit_twoBytes names_twoBytes img hrun _ _ hon hl 0 _
    rfl hinum 1 (2 ^ 32 - 1) (by decide) (by decide)
  obtain ⟨-, hr'⟩ := (h.readi_spec hon hl (j := 0) rfl hinum (by decide) (by decide)).of_run hread
  rw [if_pos (by decide)] at hr'
  have hlen := congrArg List.length (hr.symm.trans hr')
  simp [File.contents] at hlen

end Kernel

end Xv6.Mkfs
