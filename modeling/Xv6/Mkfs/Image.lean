import Xv6.Mkfs.Inv

/-!
# The images that `mkfs` writes

`Good` is the invariant of the calls that `main` makes: the inode table in the image describes files as
`Files` says. As long as no inode is stored in a data block, every call keeps it. So an image of at most 222
files has holes only if the entries of the root directory fill its last block exactly
(`mkfs_holes_iff`). `mkfs` does not compare inode numbers with `NINODES`: the image fits if and only if
there are at most 198 files (`mkfs_fits_iff`).
-/

namespace Xv6.Mkfs

open Function Lib
open Fs

/-- The number of inodes that the inode blocks have room for. -/
def NROOM : ℕ := ninodeblocks * IPB

/-- The number of inodes that can be stored before the data blocks. Those from `NROOM` on are in the
bitmap, which `balloc` writes last. -/
def NSTORE : ℕ := (ninodeblocks + nbitmap) * IPB

/-- The addresses in the inode table. -/
def Img.addrs (s : Img) : Addrs := fun i => if i < NSTORE then dinodeAddrs sb s.disk i else fun _ => 0

/-- The sizes in the inode table. -/
def Img.size (s : Img) (i : ℕ) : ℕ := if i < NSTORE then dinodeSize sb s.disk i else 0

/-- The types in the inode table. -/
def Img.type (s : Img) (i : ℕ) : ℕ := if i < NSTORE then dinodeType sb s.disk i else 0

/-- The invariant of the calls in `main`. -/
structure Good (c : ℕ → ℕ → UInt8) (s : Img) : Prop where
  files : Files s.addrs s.size c s
  pos : 1 ≤ s.freeinode
  room : s.freeinode ≤ NSTORE
  free : ∀ i, s.freeinode ≤ i → s.size i = 0 ∧ ∀ k, k ≤ NDIRECT → s.addrs i k = 0
  type : ∀ i, s.type i ≠ 0 ↔ 1 ≤ i ∧ i < s.freeinode
  inodes : ∀ i ∈ s.inodes, i < s.freeinode
  written : ∀ b ∈ s.written, nmeta ≤ b ∧ b < FSSIZE
  super : s.disk 1 = sbBlock

section Table

variable {s s' : Img} {A A' : Addrs} {sz sz' : ℕ → ℕ} {c : ℕ → ℕ → UInt8} {i inum : ℕ} {ip : Inode}
  {E : Prop}

theorem nroom_eq : NROOM = 208 := by decide

theorem nstore_eq : NSTORE = 224 := by decide

theorem iblock_lt (h : i < NSTORE) : sb.inodestart ≤ sb.iblock i ∧ sb.iblock i < nmeta := by
  have hdiv : i / IPB < ninodeblocks + nbitmap := Nat.div_lt_of_lt_mul (by rwa [Nat.mul_comm])
  unfold Superblock.iblock sb nmeta
  generalize i / IPB = q at hdiv ⊢
  simp only
  omega

theorem iblock_lt_bmapstart (h : i < NROOM) :
    sb.inodestart ≤ sb.iblock i ∧ sb.iblock i < sb.bmapstart := by
  have hdiv : i / IPB < ninodeblocks := Nat.div_lt_of_lt_mul (by rwa [Nat.mul_comm])
  unfold Superblock.iblock sb
  generalize i / IPB = q at hdiv ⊢
  simp only
  omega

theorem bmapstart_lt : sb.bmapstart < nmeta := by decide

theorem field_congr {o w : ℕ} (h : ∀ b, b < nmeta → s'.disk b = s.disk b) (hi : i < NSTORE) :
    dinodeField sb s'.disk i o w = dinodeField sb s.disk i o w :=
  dinodeField_congr (h _ (iblock_lt hi).2)

theorem addrs_congr (h : ∀ b, b < nmeta → s'.disk b = s.disk b) : s'.addrs = s.addrs :=
  funext fun _ => if_ctx_congr Iff.rfl (fun hi => funext fun _ => field_congr h hi) fun _ => rfl

theorem size_congr (h : ∀ b, b < nmeta → s'.disk b = s.disk b) : s'.size = s.size :=
  funext fun _ => if_ctx_congr Iff.rfl (field_congr h) fun _ => rfl

theorem type_congr (h : ∀ b, b < nmeta → s'.disk b = s.disk b) : s'.type = s.type :=
  funext fun _ => if_ctx_congr Iff.rfl (field_congr h) fun _ => rfl

theorem Files.addr_lt (h : Files A sz c s) (i : ℕ) {k : ℕ} (hk : k ≤ NDIRECT) : A i k < 2 ^ 32 := by
  have hlt : FSSIZE < 2 ^ 32 := by decide
  by_cases h0 : A i k = 0
  · omega
  · have hrange := h.owns.range i k (hk.trans_lt ndirect_lt) (by rwa [ptr_of_le hk])
    rw [ptr_of_le hk] at hrange
    exact (hrange.2.trans_le h.hi).trans hlt

theorem Files.congr (h : Files A sz c s) (hA : ∀ i k, k ≤ NDIRECT → A' i k = A i k)
    (hsz : ∀ i, sz' i = sz i) (hd : ∀ b, nmeta ≤ b → s'.disk b = s.disk b)
    (hfb : s'.freeblock = s.freeblock) (hn : s'.nsect = s.nsect) : Files A' sz' c s' := by
  have hptr : ∀ i k, ptr A' s'.disk i k = ptr A s.disk i k := by
    intro i k
    refine ptr_congr (hA i) (fun hne => hd _ ?_) k
    rw [← ptr_of_le (A := A) (d := s.disk) (i := i) le_rfl] at hne ⊢
    exact (h.owns.range i NDIRECT ndirect_lt hne).1
  have hdata : ∀ i bn, bn < MAXFILE → blockData A' s'.disk i bn = blockData A s.disk i bn :=
    (extends_of_ptr_eq (fun i k _ => hptr i k) fun i k hk _ hne => hd _ (h.owns.range i k hk hne).1).data
  constructor
  · rw [hn, h.nsect]
  · rw [hfb]
    exact h.lo
  · rw [hfb]
    exact h.hi
  · rw [hfb]
    exact h.owns.of_ptr_eq fun i k _ => hptr i k
  · intro b hb
    have := h.lo
    rw [hd b (by omega), h.zero b (by omega)]
  · intro i
    rw [hsz]
    exact h.fits i
  · intro i bn hbn
    rw [hptr, hsz]
    exact h.blocks i bn hbn
  · intro i
    rw [hA i NDIRECT le_rfl, hsz]
    exact h.indirect i
  · intro i q hq
    have hbn : q / BSIZE < MAXFILE := Nat.div_lt_of_lt_mul (by rwa [Nat.mul_comm])
    unfold byteAt
    rw [hdata i _ hbn, hsz]
    exact h.bytes i q hq

/-- `winode` stores the inode in its block. -/
theorem winode_spec (hi : inum < NSTORE) (hn : s.nsect = FSSIZE) : after E (winode inum ip) s fun _ s' =>
    s' = { s with disk := setDinode sb s.disk inum ip, inodes := inum :: s.inodes } := by
  have hlt := (iblock_lt hi).2
  have hsize : nmeta < FSSIZE := by decide
  unfold winode
  refine (rsect_spec fun hlarge => absurd hlarge (by omega)).bind ?_
  rintro buf t ⟨rfl, rfl, hsec⟩
  refine (wpOr_modify_bind _).mpr ((wpOr_modify _).mpr ?_)
  have hmax : max t.nsect (sb.iblock inum + 1) = t.nsect := max_eq_left hsec
  simp only [hmax]
  rfl

theorem setDinode_low (hi : inum < NSTORE) {d : Disk} {b : ℕ} (hb : nmeta ≤ b) :
    setDinode sb d inum ip b = d b := by
  have := (iblock_lt hi).2
  exact update_of_ne (by omega) _ _

theorem setDinode_super (d : Disk) : setDinode sb d inum ip 1 = d 1 := by
  have hlt : 1 < sb.inodestart := by decide
  have hne : 1 ≠ sb.iblock inum := (hlt.trans_le (Nat.le_add_left _ _)).ne
  exact update_of_ne hne _ _

theorem addrs_setDinode (hi : inum < NSTORE) (hs : s'.disk = setDinode sb s.disk inum ip) {k : ℕ}
    (hk : k ≤ NDIRECT) :
    s'.addrs i k = if i = inum then ip.addrs k % 2 ^ 32 else s.addrs i k := by
  unfold Img.addrs
  by_cases hroom : i < NSTORE
  · rw [if_pos hroom, if_pos hroom, hs, dinodeAddrs_setDinode hk]
  · rw [if_neg hroom, if_neg hroom, if_neg (by omega)]

theorem size_setDinode (hi : inum < NSTORE) (hs : s'.disk = setDinode sb s.disk inum ip) :
    s'.size i = if i = inum then ip.size % 2 ^ 32 else s.size i := by
  unfold Img.size
  by_cases hroom : i < NSTORE
  · rw [if_pos hroom, if_pos hroom, hs, dinodeSize_setDinode]
  · rw [if_neg hroom, if_neg hroom, if_neg (by omega)]

theorem type_setDinode (hi : inum < NSTORE) (hs : s'.disk = setDinode sb s.disk inum ip) :
    s'.type i = if i = inum then ip.type % 2 ^ 16 else s.type i := by
  unfold Img.type
  by_cases hroom : i < NSTORE
  · rw [if_pos hroom, if_pos hroom, hs, dinodeType_setDinode]
  · rw [if_neg hroom, if_neg hroom, if_neg (by omega)]

end Table

/-! ## The calls in `main` -/

section Calls

variable {s s' : Img} {c : ℕ → ℕ → UInt8} {i inum n : ℕ} {p : ℕ → UInt8} {E : Prop}

theorem rsect_iblock (hi : i < NSTORE) (hn : s.nsect = FSSIZE) :
    after E (rsect (sb.iblock i)) s fun b s' => b = s.disk (sb.iblock i) ∧ s' = s := by
  have hlt := (iblock_lt hi).2
  have hsize : nmeta < FSSIZE := by decide
  refine (rsect_spec fun hlarge => absurd hlarge (by omega)).mono ?_
  exact fun b t ht => ⟨ht.1, ht.2.1⟩

/-- `iappend` adds the bytes at the end of the file, and fails only if it gets too large. -/
theorem iappend_spec (h : Good c s) (hi : i < s.freeinode)
    (hE : FSSIZE < s.freeblock + (need (s.size i + n) - need (s.size i)) ∨
      MAXFILE * BSIZE < s.size i + n → E) :
    after E (iappend i p n) s fun _ s' =>
      Good (update c i (overlay (c i) (s.size i) n p)) s' ∧ s'.freeinode = s.freeinode ∧
        s'.size = update s.size i (s.size i + n) ∧ s'.type = s.type ∧
        s'.freeblock = s.freeblock + (need (s.size i + n) - need (s.size i)) := by
  have hroom : i < NSTORE := hi.trans_le h.room
  unfold iappend rinode
  rw [bind_assoc]
  refine (rsect_iblock hroom h.files.nsect).bind ?_
  rintro buf t ⟨rfl, rfl⟩
  rw [pure_bind]
  -- The inode that is read is the one in the table.
  generalize hdin : getDinode (t.disk (sb.iblock i)) i zeroInode = din
  have hA : t.addrs i = din.addrs := by
    rw [Img.addrs, if_pos hroom, ← hdin]
    funext k
    exact congrArg (fun o => (t.disk (sb.iblock i)).le o 4) (Nat.add_assoc _ _ _).symm
  have hsize : t.size i = din.size := by
    rw [Img.size, if_pos hroom, ← hdin]
    rfl
  have htype : t.type i = din.type := by
    rw [Img.type, if_pos hroom, ← hdin]
    rfl
  rw [hsize] at hE
  refine (iappendLoop_spec n le_rfl h.files hA hsize hE).bind ?_
  rintro ⟨off, din'⟩ u ⟨hoff, hdin', hquiet, hfb, hfiles⟩
  simp only at hoff hdin'
  subst hoff
  refine (winode_spec hroom (hquiet.nsect.trans h.files.nsect)).mono ?_
  rintro - v hv
  have hdisk : v.disk = setDinode sb u.disk i { din' with size := din.size + n } := by rw [hv]
  have hfits := hfiles.fits i
  rw [update_self] at hfits
  have hmax : MAXFILE * BSIZE < 2 ^ 32 := by decide
  -- The table after `winode` is what the loop has left in `din`.
  have hsize' : ∀ j, v.size j = update t.size i (din.size + n) j := by
    intro j
    rw [size_setDinode hroom hdisk, update_apply, size_congr hquiet.low]
    refine if_congr Iff.rfl ?_ rfl
    exact Nat.mod_eq_of_lt (show din.size + n < 2 ^ 32 by omega)
  have haddrs' : ∀ j k, k ≤ NDIRECT → v.addrs j k = update t.addrs i din'.addrs j k := by
    intro j k hk
    rw [addrs_setDinode hroom hdisk hk, addrs_congr hquiet.low, update_apply]
    split_ifs with hj
    · apply Nat.mod_eq_of_lt
      have := hfiles.addr_lt i hk
      rwa [update_self] at this
    · rfl
  have htype' : ∀ j, v.type j = t.type j := by
    intro j
    rw [type_setDinode hroom hdisk, type_congr hquiet.low]
    split_ifs with hj
    · rw [hj, htype, hdin']
      apply Nat.mod_eq_of_lt
      rw [← htype, Img.type, if_pos hroom]
      exact Bytes.le_lt _ _ _
    · rfl
  have hfree : u.freeinode = t.freeinode := hquiet.freeinode
  subst hv
  rw [hsize]
  refine ⟨?_, hfree, funext hsize', funext htype', hfb⟩
  constructor
  · exact hfiles.congr haddrs' hsize' (fun b hb => setDinode_low hroom hb) rfl rfl
  · exact hfree ▸ h.pos
  · exact hfree ▸ h.room
  · intro j hj
    have hj' : t.freeinode ≤ j := hfree ▸ hj
    have hne : j ≠ i := by omega
    refine ⟨?_, fun k hk => ?_⟩
    · rw [hsize', update_of_ne hne]
      exact (h.free j hj').1
    · rw [haddrs' j k hk, update_of_ne hne]
      exact (h.free j hj').2 k hk
  · intro j
    rw [htype']
    change _ ↔ 1 ≤ j ∧ j < u.freeinode
    rw [hfree]
    exact h.type j
  · intro j hj
    change j < u.freeinode
    rw [hfree]
    rcases List.mem_cons.mp hj with rfl | hj
    · exact hi
    · exact h.inodes j (hquiet.inodes ▸ hj)
  · intro b hb
    rcases hquiet.written b hb with hb | hb
    · exact h.written b hb
    · exact hb
  · rw [hdisk, setDinode_super, hquiet.low 1 (by decide), h.super]

/-- `ialloc` takes the next inode, which becomes an empty file. -/
theorem ialloc_spec {type : ℕ} (h : Good c s) (hroom : s.freeinode < NSTORE) (ht : type ≠ 0)
    (ht16 : type < 2 ^ 16) : after E (ialloc type) s fun inum s' => inum = s.freeinode ∧
      s'.freeinode = s.freeinode + 1 ∧ Good c s' ∧ s'.size = s.size ∧
        s'.type = update s.type inum type ∧ s'.freeblock = s.freeblock := by
  unfold ialloc
  refine wpOr_get_bind.mpr ((wpOr_modify_bind _).mpr ?_)
  refine (winode_spec (s := { s with freeinode := s.freeinode + 1 }) hroom h.files.nsect).bind ?_
  rintro - v rfl
  generalize hv : ({ s with
    disk := setDinode sb s.disk s.freeinode { zeroInode with type := type, nlink := 1 }
    freeinode := s.freeinode + 1, inodes := s.freeinode :: s.inodes } : Img) = v
  have hdisk : v.disk = setDinode sb s.disk s.freeinode { zeroInode with type := type, nlink := 1 } := by
    rw [← hv]
  have hsize : ∀ j, v.size j = s.size j := by
    intro j
    rw [size_setDinode hroom hdisk]
    split_ifs with hj
    · rw [hj, (h.free _ le_rfl).1]
      rfl
    · rfl
  have htype : ∀ j, v.type j = update s.type s.freeinode type j := by
    intro j
    rw [type_setDinode hroom hdisk, update_apply]
    exact if_congr Iff.rfl (Nat.mod_eq_of_lt ht16) rfl
  have haddrs : ∀ j k, k ≤ NDIRECT → v.addrs j k = s.addrs j k := by
    intro j k hk
    rw [addrs_setDinode hroom hdisk hk]
    split_ifs with hj
    · rw [hj, (h.free _ le_rfl).2 k hk]
      rfl
    · rfl
  subst hv
  refine (wpOr_pure _).mpr ⟨rfl, rfl, ?_, funext hsize, funext htype, rfl⟩
  constructor
  · exact h.files.congr haddrs hsize (fun b hb => setDinode_low hroom hb) rfl rfl
  · exact Nat.le_add_left 1 _
  · exact hroom
  · intro j hj
    refine ⟨?_, fun k hk => ?_⟩
    · rw [hsize]
      exact (h.free j (Nat.le_of_succ_le hj)).1
    · rw [haddrs j k hk]
      exact (h.free j (Nat.le_of_succ_le hj)).2 k hk
  · intro j
    rw [htype]
    change _ ↔ 1 ≤ j ∧ j < s.freeinode + 1
    have hpos := h.pos
    by_cases hj : j = s.freeinode
    · rw [hj, update_self]
      exact iff_of_true ht ⟨hpos, Nat.lt_succ_self _⟩
    · rw [update_of_ne hj, h.type]
      omega
  · intro j hj
    rcases List.mem_cons.mp hj with rfl | hj
    · exact Nat.lt_succ_self _
    · exact (h.inodes j hj).trans (Nat.lt_succ_self _)
  · exact h.written
  · rw [hdisk, setDinode_super, h.super]

/-- The reads of a file are appended one after the other. -/
theorem appendReads_spec (reads : List (List UInt8)) (h : Good c s) (hi : i < s.freeinode)
    (hE : FSSIZE < s.freeblock + (need (s.size i + reads.flatten.length) - need (s.size i)) ∨
      MAXFILE * BSIZE < s.size i + reads.flatten.length → E) :
    after E (appendReads i reads) s fun _ s' =>
      Good (update c i (overlay (c i) (s.size i) reads.flatten.length
        fun k => reads.flatten.getD k 0)) s' ∧ s'.freeinode = s.freeinode ∧
        s'.size = update s.size i (s.size i + reads.flatten.length) ∧ s'.type = s.type ∧
        s'.freeblock = s.freeblock + (need (s.size i + reads.flatten.length) - need (s.size i)) := by
  induction reads generalizing c s with
  | nil =>
    refine (wpOr_pure _).mpr ?_
    rw [List.flatten_nil, List.length_nil, overlay_zero, update_eq_self, Nat.add_zero,
      update_eq_self]
    exact ⟨h, rfl, rfl, rfl, by simp⟩
  | cons buf reads ih =>
    have hlen : (buf :: reads).flatten.length = buf.length + reads.flatten.length := by simp
    rw [hlen, ← Nat.add_assoc] at hE
    have hmono1 := need_mono (Nat.le_add_right (s.size i) buf.length)
    have hmono2 := need_mono (Nat.le_add_right (s.size i + buf.length) reads.flatten.length)
    rw [appendReads]
    refine (iappend_spec h hi fun hfail => hE ?_).bind ?_
    · rcases hfail with hfull | hlarge
      · exact .inl (by omega)
      · exact .inr (by omega)
    rintro - t ⟨hgood, hfree, hsize, htype, hfb⟩
    have htsize : t.size i = s.size i + buf.length := by rw [hsize, update_self]
    refine (ih hgood (by omega) ?_).mono ?_
    · rw [htsize]
      rintro (hfull | hlarge)
      · exact hE (.inl (by omega))
      · exact hE (.inr hlarge)
    rintro - u ⟨hgood', hfree', hsize', htype', hfb'⟩
    have hover : overlay (overlay (c i) (s.size i) buf.length fun k => buf.getD k 0)
        (s.size i + buf.length) reads.flatten.length (fun k => reads.flatten.getD k 0) =
        overlay (c i) (s.size i) (buf :: reads).flatten.length
          fun k => (buf :: reads).flatten.getD k 0 := by
      rw [hlen, ← overlay_append]
      unfold overlay
      funext q
      split_ifs with h1 h2
      · simp [List.getD_eq_getElem?_getD, List.getElem?_append_right]
      · have hk : q - s.size i < buf.length := by omega
        simp [List.getD_eq_getElem?_getD, List.getElem?_append_left hk]
      · rfl
    rw [update_self, hsize, update_self, update_idem, hover] at hgood'
    refine ⟨hgood', hfree'.trans hfree, ?_, htype'.trans htype, ?_⟩
    · rw [hsize', hsize, update_self, update_idem, hlen, Nat.add_assoc]
    · rw [htsize] at hfb'
      rw [hlen, ← Nat.add_assoc]
      omega

/-- The bytes of a host file. -/
def File.contents (f : File) : List UInt8 := (f.reads.getD []).flatten

/-- What `mkfs` checks of one argument: the name without `user/` has no slash, the file can be opened
and it is not too large. -/
structure File.Ok (f : File) : Prop where
  slash : slash ∉ stripUser f.argv
  opens : f.reads.isSome = true
  fits : f.contents.length ≤ MAXFILE * BSIZE

/-- One more file: an entry in the root directory, and the bytes of the file. -/
theorem addFile_spec (f : File) (h : Good c s) (hpos : 1 < s.freeinode) (hroom : s.freeinode < NSTORE)
    (hE : ¬ f.Ok ∨ MAXFILE * BSIZE < s.size ROOTINO + DIRENT ∨ FSSIZE < s.freeblock +
      (need (s.size ROOTINO + DIRENT) - need (s.size ROOTINO)) + need f.contents.length → E) :
    after E (addFile ROOTINO f) s fun _ s' =>
      Good (update (update c ROOTINO
          (overlay (c ROOTINO) (s.size ROOTINO) DIRENT (dirent s.freeinode f.shortname))) s.freeinode
          (overlay (c s.freeinode) 0 f.contents.length fun k => f.contents.getD k 0)) s' ∧
        s'.freeinode = s.freeinode + 1 ∧
        s'.size = update (update s.size ROOTINO (s.size ROOTINO + DIRENT))
          s.freeinode f.contents.length ∧
        s'.type = update s.type s.freeinode T_FILE ∧
        s'.freeblock = s.freeblock + (need (s.size ROOTINO + DIRENT) - need (s.size ROOTINO)) +
          need f.contents.length := by
  unfold addFile
  refine .ite (fun hslash => wpOr_throw.mpr (hE (.inl fun hok => hok.slash hslash))) fun _ => ?_
  cases hreads : f.reads with
  | none =>
    refine wpOr_throw.mpr (hE (.inl fun hok => ?_))
    have := hok.opens
    rw [hreads] at this
    cases this
  | some reads =>
    have hcontents : f.contents = reads.flatten := by rw [File.contents, hreads, Option.getD_some]
    have hne : s.freeinode ≠ ROOTINO := by
      unfold ROOTINO
      omega
    refine (ialloc_spec h hroom (by decide) (by decide)).bind ?_
    rintro inum t ⟨rfl, hfree, hgood, hsize, htype, hfb⟩
    refine (iappend_spec (i := ROOTINO) hgood (by unfold ROOTINO; omega) ?_).bind ?_
    · rw [hsize, hfb]
      rintro (hfull | hlarge)
      · exact hE (.inr (.inr (by omega)))
      · exact hE (.inr (.inl hlarge))
    rintro - u ⟨hgood', hfree', hsize', htype', hfb'⟩
    -- The new file was empty.
    have hempty : u.size s.freeinode = 0 := by
      rw [hsize', update_of_ne hne, hsize]
      exact (h.free _ le_rfl).1
    have hneed : need 0 = 0 := by decide
    rw [hsize, hfb] at hfb'
    refine (appendReads_spec reads hgood' (by omega) ?_).mono ?_
    · rw [hempty, Nat.zero_add, hneed, ← hcontents, hfb']
      rintro (hfull | hlarge)
      · exact hE (.inr (.inr (by omega)))
      · exact hE (.inl fun hok => absurd hok.fits (by omega))
    rintro - v ⟨hgood'', hfree'', hsize'', htype'', hfb''⟩
    rw [hempty, Nat.zero_add, hneed, ← hcontents, hfb'] at hfb''
    rw [hempty, update_of_ne hne, hsize] at hgood''
    rw [hcontents]
    refine ⟨hgood'', by omega, ?_, ?_, ?_⟩
    · rw [hsize'', hempty, hsize', hsize, Nat.zero_add]
    · rw [htype'', htype', htype]
    · rw [← hcontents]
      omega

/-- What the files `fs` have become, from inode `m` on: their bytes, and their entries in the root
directory from offset `off` on. -/
structure Listed (fs : List File) (m off : ℕ) (c : ℕ → ℕ → UInt8) (s : Img) : Prop where
  size : ∀ j f, fs[j]? = some f → s.size (m + j) = f.contents.length
  bytes : ∀ j f, fs[j]? = some f → ∀ q, q < f.contents.length → c (m + j) q = f.contents.getD q 0
  entry : ∀ j f, fs[j]? = some f → ∀ q, q < DIRENT →
    c ROOTINO (off + DIRENT * j + q) = dirent (m + j) f.shortname q
  type : ∀ j f, fs[j]? = some f → s.type (m + j) = T_FILE

/-- The blocks that files take. -/
def needFiles (fs : List File) : ℕ := (fs.map fun f => need f.contents.length).sum

/-- The loop over the arguments lists all files, and fails only if they do not fit. -/
theorem addFiles_spec (fs : List File) (h : Good c s) (hpos : 1 < s.freeinode)
    (hroom : s.freeinode + fs.length ≤ NSTORE)
    (hE : (∃ f ∈ fs, ¬ f.Ok) ∨ MAXFILE * BSIZE < s.size ROOTINO + DIRENT * fs.length ∨
      FSSIZE < s.freeblock + (need (s.size ROOTINO + DIRENT * fs.length) - need (s.size ROOTINO)) +
        needFiles fs → E) :
    after E (addFiles ROOTINO fs) s fun _ s' => ∃ c',
      Good c' s' ∧ s'.freeinode = s.freeinode + fs.length ∧
        s'.freeblock = s.freeblock + (need (s.size ROOTINO + DIRENT * fs.length) -
          need (s.size ROOTINO)) + needFiles fs ∧
        s'.size ROOTINO = s.size ROOTINO + DIRENT * fs.length ∧
        Listed fs s.freeinode (s.size ROOTINO) c' s' ∧
        (∀ q, q < s.size ROOTINO → c' ROOTINO q = c ROOTINO q) ∧
        (∀ i, i < s.freeinode → i ≠ ROOTINO → c' i = c i ∧ s'.size i = s.size i) ∧
        ∀ i, i < s.freeinode → s'.type i = s.type i := by
  induction fs generalizing c s with
  | nil =>
    refine (wpOr_pure _).mpr ⟨c, h, rfl, by simp [needFiles], rfl, ?_, fun _ _ => rfl,
      fun _ _ _ => ⟨rfl, rfl⟩, fun _ _ => rfl⟩
    constructor <;> · intro j f hj; simp at hj
  | cons f fs ih =>
    have hlen' : DIRENT * (f :: fs).length = DIRENT + DIRENT * fs.length := by
      rw [List.length_cons]
      ring
    have hneed : needFiles (f :: fs) = need f.contents.length + needFiles fs := by simp [needFiles]
    rw [hlen', ← Nat.add_assoc, hneed] at hE
    have hmono1 := need_mono (Nat.le_add_right (s.size ROOTINO) DIRENT)
    have hmono2 := need_mono (Nat.le_add_right (s.size ROOTINO + DIRENT) (DIRENT * fs.length))
    rw [List.length_cons] at hroom
    rw [addFiles]
    refine (addFile_spec f h hpos (by omega) fun hfail => hE ?_).bind ?_
    · rcases hfail with hbad | hlarge | hfull
      · exact .inl ⟨f, List.mem_cons_self, hbad⟩
      · exact .inr (.inl (by omega))
      · exact .inr (.inr (by omega))
    rintro - t ⟨hgood, hfree, hsize, htype, hfb⟩
    have hne : ROOTINO ≠ s.freeinode := by
      unfold ROOTINO
      omega
    have htroot : t.size ROOTINO = s.size ROOTINO + DIRENT := by
      rw [hsize, update_of_ne hne, update_self]
    refine (ih hgood (by omega) (by omega) ?_).mono ?_
    · rw [htroot]
      rintro (⟨g, hg, hbad⟩ | hlarge | hfull)
      · exact hE (.inl ⟨g, List.mem_cons_of_mem f hg, hbad⟩)
      · exact hE (.inr (.inl hlarge))
      · exact hE (.inr (.inr (by omega)))
    rintro - u ⟨c', hgood', hfree', hfb', hroot, hlisted, hold, hothers, htypes⟩
    -- The file that was added first keeps its bytes while the others are added.
    obtain ⟨hbytes, hlen⟩ := hothers s.freeinode (by omega) hne.symm
    rw [update_self] at hbytes
    rw [hsize, update_self] at hlen
    rw [hfree, htroot] at hlisted
    refine ⟨c', hgood', ?_, ?_, ?_, ?_, ?_, ?_, ?_⟩
    · rw [hfree', hfree, List.length_cons]
      omega
    · rw [htroot] at hfb'
      rw [hlen', ← Nat.add_assoc, hneed]
      omega
    · rw [hroot, htroot, List.length_cons]
      ring
    · constructor
      · intro j g hj
        cases j with
        | zero =>
          obtain rfl : f = g := by simpa using hj
          exact hlen
        | succ j =>
          rw [Nat.add_comm j 1, ← Nat.add_assoc]
          exact hlisted.size j g (by simpa using hj)
      · intro j g hj q hq
        cases j with
        | zero =>
          obtain rfl : f = g := by simpa using hj
          rw [Nat.add_zero, hbytes, overlay, if_pos (by omega), Nat.sub_zero]
        | succ j =>
          rw [Nat.add_comm j 1, ← Nat.add_assoc]
          exact hlisted.bytes j g (by simpa using hj) q hq
      · intro j g hj q hq
        cases j with
        | zero =>
          obtain rfl : f = g := by simpa using hj
          rw [hold _ (by rw [htroot]; omega), update_of_ne hne, update_self, overlay,
            if_pos (by omega)]
          congr 1
          omega
        | succ j =>
          have := hlisted.entry j g (by simpa using hj) q hq
          rw [Nat.mul_succ, Nat.add_comm j 1, ← Nat.add_assoc s.freeinode, ← this]
          congr 1
          omega
      · intro j g hj
        cases j with
        | zero => rw [Nat.add_zero, htypes _ (by omega), htype, update_self]
        | succ j =>
          rw [Nat.add_comm j 1, ← Nat.add_assoc]
          exact hlisted.type j g (by simpa using hj)
    · intro q hq
      rw [hold q (by omega), update_of_ne hne, update_self, overlay, if_neg (by omega)]
    · intro i hi hi'
      obtain ⟨hc, hs⟩ := hothers i (by omega) hi'
      have hne' : i ≠ s.freeinode := by omega
      rw [hc, hs, hsize, update_of_ne hne', update_of_ne hi', update_of_ne hne',
        update_of_ne hi']
      exact ⟨rfl, rfl⟩
    · intro i hi
      rw [htypes i (by omega), htype, update_of_ne (by omega)]

theorem good_blank : Good (fun _ _ => 0) { blank with disk := update blank.disk 1 sbBlock } := by
  generalize hs : ({ blank with disk := update blank.disk 1 sbBlock } : Img) = s
  have hfield : ∀ i o w, i < NSTORE → dinodeField sb s.disk i o w = 0 := by
    intro i o w hi
    have hne : sb.iblock i ≠ 1 := by
      have h1 : 1 < sb.inodestart := by decide
      have := (iblock_lt hi).1
      omega
    have hzero : s.disk (sb.iblock i) = Bytes.fill BSIZE 0 := by
      rw [← hs]
      exact update_of_ne hne sbBlock blank.disk
    unfold dinodeField
    rw [hzero]
    exact Bytes.le_fill_zero _ _
  have haddrs : ∀ i k, s.addrs i k = 0 := by
    intro i k
    unfold Img.addrs
    split_ifs with hi
    · exact hfield i _ _ hi
    · rfl
  have hsize : ∀ i, s.size i = 0 := fun i => ite_eq_right_iff.mpr (hfield i _ _)
  have htype : ∀ i, s.type i = 0 := fun i => ite_eq_right_iff.mpr (hfield i _ _)
  have hptr : ∀ i k, ptr s.addrs s.disk i k = 0 := by
    intro i k
    unfold ptr
    rw [haddrs, haddrs, if_pos rfl, ite_self]
  have hfree : s.freeinode = 1 := by rw [← hs]; rfl
  constructor
  · constructor
    · rw [← hs]; rfl
    · rw [← hs]; exact le_rfl
    · rw [← hs]; decide
    · constructor
      · intro i k _ hne
        exact absurd (hptr i k) hne
      · intro i k _ _ _ _ hne
        exact absurd (hptr i k) hne
    · intro b hb
      have hb' : 1 < b := by
        rw [← hs] at hb
        exact (show 1 < nmeta by decide).trans_le hb
      rw [← hs]
      exact update_of_ne (by omega) _ _
    · intro i
      rw [hsize]
      exact Nat.zero_le _
    · intro i bn _
      rw [hptr, hsize]
      simp
    · intro i
      rw [haddrs, hsize]
      simp
    · intro i q _
      unfold byteAt blockData
      rw [hptr, if_pos rfl, Bytes.get_fill (Nat.mod_lt _ (by decide)), ite_self]
  · rw [hfree]
  · rw [hfree]; decide
  · exact fun i _ => ⟨hsize i, fun k _ => haddrs i k⟩
  · intro i
    rw [htype, hfree]
    omega
  · rw [← hs]
    exact fun i hi => absurd hi List.not_mem_nil
  · rw [← hs]
    exact fun i hi => absurd hi List.not_mem_nil
  · rw [← hs]
    exact update_self 1 sbBlock blank.disk

/-- The root directory is inode 1, with the entries `.` and `..`. -/
theorem makeRoot_spec (h : Good c s) (hfree : s.freeinode = 1) (hfb : s.freeblock = nmeta) :
    after E makeRoot s fun inum s' => inum = ROOTINO ∧ s'.freeinode = 2 ∧ s'.freeblock = nmeta + 1 ∧
      ∃ c', Good c' s' ∧ s'.size ROOTINO = 2 * DIRENT ∧
      (∀ q, q < DIRENT → c' ROOTINO q = dirent ROOTINO dot q) ∧
      (∀ q, q < DIRENT → c' ROOTINO (DIRENT + q) = dirent ROOTINO dotdot q) ∧
      s'.type ROOTINO = T_DIR := by
  have hroom : (1 : ℕ) < NSTORE := by decide
  unfold makeRoot
  refine (ialloc_spec h (by rw [hfree]; exact hroom) (by decide) (by decide)).bind ?_
  rintro inum t ⟨hinum, hfree1, hgood1, hsize1, htype1, hfb1⟩
  rw [hfree] at hinum hfree1
  obtain rfl : inum = ROOTINO := hinum
  refine .ite (fun hne => absurd rfl hne) fun _ => ?_
  have hempty : t.size ROOTINO = 0 := by
    rw [hsize1]
    exact (h.free ROOTINO (by rw [hfree]; exact le_rfl)).1
  rw [hfb] at hfb1
  refine (iappend_spec (i := ROOTINO) hgood1 (by rw [hfree1]; decide) fun hfail => ?_).bind ?_
  · rw [hempty, hfb1] at hfail
    exact absurd hfail (by decide)
  rintro - u ⟨hgood2, hfree2, hsize2, htype2, hfb2⟩
  have hone : u.size ROOTINO = DIRENT := by
    rw [hsize2, update_self, hempty, Nat.zero_add]
  rw [hempty, hfb1] at hfb2
  refine (iappend_spec (i := ROOTINO) hgood2 (by rw [hfree2, hfree1]; decide) fun hfail => ?_).bind ?_
  · rw [hone, hfb2] at hfail
    exact absurd hfail (by decide)
  rintro - v ⟨hgood3, hfree3, hsize3, htype3, hfb3⟩
  rw [hone, hfb2] at hfb3
  refine (wpOr_pure _).mpr ⟨rfl, by omega, hfb3, _, hgood3, ?_, ?_, ?_, ?_⟩
  · rw [hsize3, update_self, hone]
    rfl
  · intro q hq
    rw [update_self, update_self, hone, hempty]
    rw [overlay, if_neg (by omega), overlay, if_pos (by omega), Nat.sub_zero]
  · intro q hq
    rw [update_self, update_self, hone]
    rw [overlay, if_pos (by omega), Nat.add_sub_cancel_left]
  · rw [htype3, htype2, htype1, update_self]

/-- The image of a successful run that stores no inode in a data block. -/
structure Made (files : List File) (c : ℕ → ℕ → UInt8) (s img : Img) : Prop where
  good : Good c s
  freeinode : s.freeinode = files.length + 2
  root : s.size ROOTINO = DIRENT * (files.length + 2)
  listed : Listed files 2 (2 * DIRENT) c s
  dot : ∀ q, q < DIRENT → c ROOTINO q = dirent ROOTINO dot q
  dotdot : ∀ q, q < DIRENT → c ROOTINO (DIRENT + q) = dirent ROOTINO dotdot q
  rootType : s.type ROOTINO = T_DIR
  disk : ∃ din : Inode, din.addrs = s.addrs ROOTINO ∧ din.type = T_DIR ∧
    din.size = (s.size ROOTINO / BSIZE + 1) * BSIZE ∧
    img.disk = update (setDinode sb s.disk ROOTINO din) sb.bmapstart (bitmap s.freeblock)
  freeblock : img.freeblock = s.freeblock
  inodes : img.inodes = ROOTINO :: s.inodes
  written : img.written = s.written

/-- The size of the root directory is rounded, and the blocks in use are marked. -/
theorem finish_spec (h : Good c s) : after E (finish ROOTINO) s fun _ img =>
    (∃ din : Inode, din.addrs = s.addrs ROOTINO ∧ din.type = s.type ROOTINO ∧
      din.size = (s.size ROOTINO / BSIZE + 1) * BSIZE ∧
      img.disk = update (setDinode sb s.disk ROOTINO din) sb.bmapstart (bitmap s.freeblock)) ∧
    img.freeblock = s.freeblock ∧ img.inodes = ROOTINO :: s.inodes ∧ img.written = s.written := by
  have hroom : ROOTINO < NSTORE := by decide
  unfold finish rinode
  rw [bind_assoc]
  refine (rsect_iblock hroom h.files.nsect).bind ?_
  rintro buf t ⟨rfl, rfl⟩
  rw [pure_bind]
  refine (winode_spec hroom h.files.nsect).bind ?_
  rintro - u rfl
  refine wpOr_get_bind.mpr ?_
  have hused : t.freeblock < BSIZE * 8 := h.files.hi.trans_lt (by decide)
  unfold balloc
  refine .ite (fun _ => (wpOr_modify _).mpr ?_) fun hlarge => absurd hused hlarge
  refine ⟨⟨_, ?_, ?_, ?_, rfl⟩, rfl, rfl, rfl⟩
  · rw [Img.addrs, if_pos hroom]
    funext k
    exact congrArg (fun o => (t.disk (sb.iblock ROOTINO)).le o 4) (Nat.add_assoc _ _ _)
  · rw [Img.type, if_pos hroom]
    rfl
  · rw [Img.size, if_pos hroom]
    rfl

/-- The files are such that `mkfs` succeeds. -/
structure Fit (files : List File) : Prop where
  ok : ∀ f ∈ files, f.Ok
  blocks : nmeta + need (DIRENT * (files.length + 2)) + needFiles files ≤ FSSIZE

/-- `main`, as long as no inode is stored in a data block: it fails only if the files do not fit. -/
theorem main_spec {files : List File} (hlen : files.length + 2 ≤ NSTORE) :
    after (¬ Fit files) (main files) blank fun _ img => ∃ c s, Made files c s img := by
  unfold main
  have hn : max blank.nsect (1 + 1) = blank.nsect := by decide
  refine (wpOr_modify_bind _).mpr ?_
  rw [hn]
  refine (makeRoot_spec good_blank rfl rfl).bind ?_
  rintro inum t ⟨rfl, hfree, hfb, c, hgood, hsize, hdot, hdotdot, htype⟩
  have htotal : 2 * DIRENT + DIRENT * files.length = DIRENT * (files.length + 2) := by ring
  refine (addFiles_spec files hgood (by omega) (by omega) ?_).bind ?_
  · rw [hsize, htotal, hfb]
    have hroot : need (2 * DIRENT) = 1 := by decide
    rintro (⟨f, hf, hbad⟩ | hlarge | hfull) hfit
    · exact hbad (hfit.ok f hf)
    · have hmax : DIRENT * 224 ≤ MAXFILE * BSIZE := by decide
      have := Nat.mul_le_mul_left DIRENT (nstore_eq ▸ hlen)
      omega
    · have := hfit.blocks
      have := need_mono (show 2 * DIRENT ≤ DIRENT * (files.length + 2) by rw [← htotal]; omega)
      omega
  rintro - u ⟨c', hgood', hfree', -, hsize', hlisted, hold, -, htypes⟩
  refine (finish_spec hgood').mono ?_
  rintro - v ⟨⟨din, haddrs, hdtype, hdsize, hdisk⟩, hfb', hinodes, hwritten⟩
  have hroot : u.type ROOTINO = T_DIR := by
    rw [htypes ROOTINO (by rw [hfree]; decide), htype]
  rw [hfree, hsize] at hlisted
  refine ⟨c', u, hgood', by omega, ?_, hlisted, ?_, ?_, hroot,
    ⟨din, haddrs, hdtype.trans hroot, hdsize, hdisk⟩, hfb', hinodes, hwritten⟩
  · rw [hsize', hsize, htotal]
  · intro q hq
    rw [hold q (by rw [hsize]; omega), hdot q hq]
  · intro q hq
    rw [hold _ (by rw [hsize]; omega), hdotdot q hq]

theorem mkfs_eq_ok {files : List File} {img : Img} :
    mkfs files = .ok img ↔ (main files).run blank = .ok ((), img) := by
  unfold mkfs
  cases (main files).run blank with
  | error e =>
    constructor <;> · intro h; cases h
  | ok r =>
    obtain ⟨-, t⟩ := r
    constructor <;> · intro h; cases h; rfl

theorem mkfs_made {files : List File} {img : Img} (hrun : mkfs files = .ok img)
    (hlen : files.length + 2 ≤ NSTORE) : ∃ c s, Made files c s img :=
  (main_spec hlen).of_run (mkfs_eq_ok.mp hrun)

theorem mkfs_succeeds {files : List File} (hfit : Fit files) (hlen : files.length + 2 ≤ NSTORE) :
    ∃ img, mkfs files = .ok img := by
  obtain ⟨_, img, hrun, -⟩ := ((main_spec hlen).weaken fun _ hbad => hbad hfit).returns
  exact ⟨img, mkfs_eq_ok.mpr hrun⟩

end Calls

/-! ## Holes -/

section Holes

variable {files : List File} {img s : Img} {c : ℕ → ℕ → UInt8} {i : ℕ}

/-- Every allocated inode has a block for each part of its size. -/
def NoHoles (img : Img) : Prop :=
  ∀ i, i < NROOM → dinodeType sb img.disk i ≠ 0 → ∀ bn, bn * BSIZE < dinodeSize sb img.disk i →
    bn < MAXFILE ∧ ptr (dinodeAddrs sb img.disk) img.disk i (slotOf bn) ≠ 0

theorem Made.disk_eq (h : Made files c s img) {b : ℕ} (hb : nmeta ≤ b) : img.disk b = s.disk b := by
  obtain ⟨din, -, -, -, hdisk⟩ := h.disk
  have := bmapstart_lt
  rw [hdisk, update_of_ne (by omega), setDinode_low (by decide) hb]

/-- The fields of the inodes in the image are those before the end of `main`, up to the size of the root. -/
theorem Made.field (h : Made files c s img) (hi : i < NROOM) :
    dinodeType sb img.disk i = s.type i ∧
      dinodeSize sb img.disk i =
        (if i = ROOTINO then (s.size ROOTINO / BSIZE + 1) * BSIZE else s.size i) ∧
      ∀ k, k ≤ NDIRECT → dinodeAddrs sb img.disk i k = s.addrs i k := by
  obtain ⟨din, haddrs, htype, hsize, hdisk⟩ := h.disk
  have hroot : ROOTINO < NSTORE := by decide
  have hi' : i < NSTORE := hi.trans (by decide)
  -- The bitmap is not an inode block.
  have hfield : ∀ o w, dinodeField sb img.disk i o w =
      dinodeField sb (setDinode sb s.disk ROOTINO din) i o w := by
    intro o w
    have := (iblock_lt_bmapstart hi).2
    apply dinodeField_congr
    rw [hdisk, update_of_ne (by omega)]
  refine ⟨?_, ?_, fun k hk => ?_⟩
  · have hput : Img.type { s with disk := setDinode sb s.disk ROOTINO din } i = _ :=
      type_setDinode (s := s) hroot rfl
    rw [Img.type, if_pos hi'] at hput
    rw [dinodeType, hfield]
    refine hput.trans ?_
    split_ifs with hr
    · rw [htype, hr, h.rootType]
      rfl
    · rfl
  · have hput : Img.size { s with disk := setDinode sb s.disk ROOTINO din } i = _ :=
      size_setDinode (s := s) hroot rfl
    rw [Img.size, if_pos hi'] at hput
    rw [dinodeSize, hfield]
    refine hput.trans (if_congr Iff.rfl ?_ rfl)
    rw [hsize]
    apply Nat.mod_eq_of_lt
    have hfits := h.good.files.fits ROOTINO
    have hmax : MAXFILE * BSIZE + BSIZE < 2 ^ 32 := by decide
    have := Nat.div_mul_le_self (s.size ROOTINO) BSIZE
    rw [Nat.add_mul, Nat.one_mul]
    omega
  · have hput : Img.addrs { s with disk := setDinode sb s.disk ROOTINO din } i k = _ :=
      addrs_setDinode (s := s) hroot rfl hk
    rw [Img.addrs, if_pos hi'] at hput
    rw [dinodeAddrs, hfield]
    refine hput.trans ?_
    split_ifs with hr
    · rw [haddrs, hr]
      exact Nat.mod_eq_of_lt (h.good.files.addr_lt ROOTINO hk)
    · rfl

theorem Made.ptr_eq (h : Made files c s img) (hi : i < NROOM) (k : ℕ) :
    ptr (dinodeAddrs sb img.disk) img.disk i k = ptr s.addrs s.disk i k := by
  refine ptr_congr (h.field hi).2.2 (fun hne => h.disk_eq ?_) k
  rw [← ptr_of_le (A := s.addrs) (d := s.disk) (i := i) le_rfl] at hne ⊢
  exact (h.good.files.owns.range i NDIRECT ndirect_lt hne).1

/-- A file of two bytes and one of 13 blocks, the last of them an indirect one. -/
def dataFiles : List File :=
  [⟨[97], some [[1, 2]]⟩, ⟨[98], some (List.replicate 13 (List.replicate BSIZE 3))⟩]

theorem fit_dataFiles : Fit dataFiles := by
  have hlen : (List.replicate 13 (List.replicate BSIZE (3 : UInt8))).flatten.length = 13 * BSIZE := by
    rw [List.length_flatten, List.map_replicate, List.length_replicate, List.sum_replicate, smul_eq_mul]
  refine ⟨fun f hf => ?_, ?_⟩
  · simp only [dataFiles, List.mem_cons, List.not_mem_nil, or_false] at hf
    obtain rfl | rfl := hf
    · exact ⟨by decide, rfl, by decide⟩
    · exact ⟨by decide, rfl, hlen.trans_le (by decide)⟩
  · simp only [needFiles, dataFiles, List.map_cons, List.map_nil, File.contents, Option.getD_some, hlen]
    decide

/-- Empty host files with the names `a0`, `a1` and so on. -/
def emptyFiles (n : ℕ) : List File :=
  (List.range n).map fun k => ⟨[97, 48 + UInt8.ofNat k], some []⟩

theorem needFiles_emptyFiles (n : ℕ) : needFiles (emptyFiles n) = 0 := by
  unfold needFiles emptyFiles
  rw [List.sum_eq_zero_iff]
  simp only [List.map_map, List.mem_map, comp_apply, forall_exists_index, and_imp]
  rintro x k - rfl
  exact (show need 0 = 0 by decide)

theorem length_emptyFiles (n : ℕ) : (emptyFiles n).length = n := by
  rw [emptyFiles, List.length_map, List.length_range]

theorem emptyFiles_ok {n : ℕ} (hn : n ≤ 200) : ∀ f ∈ emptyFiles n, f.Ok := by
  intro f hf
  obtain ⟨k, hk, rfl⟩ := List.mem_map.mp hf
  have hk' : k < 200 := (List.mem_range.mp hk).trans_le hn
  refine ⟨fun hslash => ?_, rfl, Nat.zero_le _⟩
  have hname : stripUser [97, 48 + UInt8.ofNat k] = [97, 48 + UInt8.ofNat k] := if_neg (by simp [userDir])
  rw [hname, List.mem_cons, List.mem_singleton] at hslash
  rcases hslash with h | h
  · exact absurd h (by decide)
  · have := congrArg UInt8.toNat h
    rw [UInt8.toNat_add, UInt8.toNat_ofNat_of_lt' (show k < 256 by omega)] at this
    change 47 = (48 + k) % 256 at this
    omega

end Holes

/-! ## What fits -/

section Room

variable {files : List File} {img s : Img} {c : ℕ → ℕ → UInt8} {α β : Type}

/-- All inodes that were written are in the table and in the inode blocks, all block numbers that are
stored are in the data area, and no data was written outside of it. -/
structure Fits (img : Img) : Prop where
  inodes : ∀ i ∈ img.inodes, i < NINODES ∧ sb.inodestart ≤ sb.iblock i ∧ sb.iblock i < sb.bmapstart
  stored : ∀ i ∈ img.inodes, ∀ k, k < NSLOT → ptr (dinodeAddrs sb img.disk) img.disk i k ≠ 0 →
    nmeta ≤ ptr (dinodeAddrs sb img.disk) img.disk i k ∧
      ptr (dinodeAddrs sb img.disk) img.disk i k < FSSIZE
  data : ∀ b ∈ img.written, nmeta ≤ b ∧ b < FSSIZE

/-- `x` takes no inode, and forgets none that was written. -/
def Keeps (x : M α) : Prop := ∀ s, after True x s fun _ s' =>
  s'.freeinode = s.freeinode ∧ s.inodes ⊆ s'.inodes

theorem Keeps.pure (a : α) : Keeps (pure a : M α) := fun _ =>
  (wpOr_pure a).mpr ⟨rfl, List.Subset.refl _⟩

theorem Keeps.throw (e : Fail) : Keeps (throw e : M α) := fun _ => wpOr_throw.mpr trivial

theorem Keeps.bind {x : M α} {f : α → M β} (hx : Keeps x) (hf : ∀ a, Keeps (f a)) : Keeps (x >>= f) := by
  intro s
  refine (hx s).bind ?_
  rintro a t ⟨hfree, hsub⟩
  refine (hf a t).mono ?_
  rintro b u ⟨hfree', hsub'⟩
  exact ⟨hfree'.trans hfree, List.Subset.trans hsub hsub'⟩

theorem Keeps.ite {p : Prop} [Decidable p] {x y : M α} (hx : Keeps x) (hy : Keeps y) :
    Keeps (if p then x else y) := by
  split_ifs
  · exact hx
  · exact hy

theorem Keeps.rsect (sec : ℕ) : Keeps (rsect sec) := by
  intro s
  refine (rsect_spec fun _ => trivial).mono ?_
  rintro b t ⟨-, rfl, -⟩
  exact ⟨rfl, List.Subset.refl _⟩

theorem Keeps.modify {u : Img → Img}
    (hu : ∀ s, (u s).freeinode = s.freeinode ∧ s.inodes ⊆ (u s).inodes) : Keeps (modify u) :=
  fun s => (wpOr_modify u).mpr (hu s)

theorem Keeps.wsect (sec : ℕ) (buf : Block) : Keeps (wsect sec buf) :=
  .modify fun _ => ⟨rfl, List.Subset.refl _⟩

theorem Keeps.wsectData (sec : ℕ) (buf : Block) : Keeps (wsectData sec buf) :=
  .bind (.wsect sec buf) fun _ => .modify fun _ => ⟨rfl, List.Subset.refl _⟩

theorem Keeps.nextBlock : Keeps nextBlock := by
  intro s
  exact wpOr_get_bind.mpr ((wpOr_modify_bind _).mpr
    ((wpOr_pure _).mpr ⟨rfl, List.Subset.refl _⟩))

theorem Keeps.dinAddr (din : Inode) (k : ℕ) : Keeps (dinAddr din k) :=
  .ite (.bind .nextBlock fun _ => .pure _) (.pure _)

theorem Keeps.iappendAddr (din : Inode) (fbn : ℕ) : Keeps (iappendAddr din fbn) :=
  .ite (.bind (.dinAddr _ _) fun _ => .pure _) (.bind (.dinAddr _ _) fun _ => .bind (.rsect _) fun _ =>
    .ite (.bind .nextBlock fun _ => .bind (.wsectData _ _) fun _ => .pure _) (.pure _))

theorem Keeps.iappendLoop (fuel : ℕ) (p : ℕ → UInt8) (n off : ℕ) (din : Inode) :
    Keeps (iappendLoop fuel p n off din) := by
  induction fuel generalizing p n off din with
  | zero => exact .pure _
  | succ fuel ih =>
    rw [Mkfs.iappendLoop]
    refine .ite (.pure _) (.ite (.throw _) (.bind (.iappendAddr _ _) fun r => ?_))
    exact .bind (.rsect _) fun _ => .bind (.wsectData _ _) fun _ => ih _ _ _ _

theorem winode_inodes (inum : ℕ) (ip : Inode) (s : Img) : after True (winode inum ip) s fun _ s' =>
    s'.freeinode = s.freeinode ∧ s'.inodes = inum :: s.inodes := by
  unfold winode
  refine (rsect_spec fun _ => trivial).bind ?_
  rintro buf t ⟨-, rfl, -⟩
  exact (wpOr_modify_bind _).mpr ((wpOr_modify _).mpr ⟨rfl, rfl⟩)

theorem Keeps.winode (inum : ℕ) (ip : Inode) : Keeps (winode inum ip) := by
  intro s
  refine (winode_inodes inum ip s).mono ?_
  rintro - t ⟨hfree, hinodes⟩
  exact ⟨hfree, hinodes ▸ List.subset_cons_self _ _⟩

theorem Keeps.iappend (inum : ℕ) (p : ℕ → UInt8) (n : ℕ) : Keeps (iappend inum p n) :=
  .bind (.bind (.rsect _) fun _ => .pure _) fun _ => .bind (.iappendLoop _ _ _ _ _) fun _ => .winode _ _

theorem Keeps.appendReads (inum : ℕ) (reads : List (List UInt8)) : Keeps (appendReads inum reads) := by
  induction reads with
  | nil => exact .pure _
  | cons buf reads ih => exact .bind (.iappend _ _ _) fun _ => ih

/-- The inodes that have been taken were written. -/
def Logged (s : Img) : Prop := ∀ i, 1 ≤ i → i < s.freeinode → i ∈ s.inodes

theorem Keeps.logged {x : M α} (hx : Keeps x) (h : Logged s) : after True x s fun _ s' =>
    Logged s' ∧ s'.freeinode = s.freeinode := by
  refine (hx s).mono ?_
  rintro a t ⟨hfree, hsub⟩
  refine ⟨fun i hpos hi => hsub (h i hpos ?_), hfree⟩
  rwa [← hfree]

theorem ialloc_logged (type : ℕ) (h : Logged s) : after True (ialloc type) s fun _ s' =>
    Logged s' ∧ s'.freeinode = s.freeinode + 1 := by
  unfold ialloc
  refine wpOr_get_bind.mpr ((wpOr_modify_bind _).mpr ?_)
  refine (winode_inodes _ _ _).bind ?_
  rintro - t ⟨hfree, hinodes⟩
  refine (wpOr_pure _).mpr ⟨fun i hpos hi => ?_, hfree⟩
  rw [hfree] at hi
  rw [hinodes, List.mem_cons]
  by_cases heq : i = s.freeinode
  · exact .inl heq
  · exact .inr (h i hpos (by simp at hi; omega))

theorem addFiles_logged (rootino : ℕ) (fs : List File) (h : Logged s) :
    after True (addFiles rootino fs) s fun _ s' =>
      Logged s' ∧ s'.freeinode = s.freeinode + fs.length := by
  induction fs generalizing s with
  | nil => exact (wpOr_pure _).mpr ⟨h, rfl⟩
  | cons f fs ih =>
    have hfile : after True (addFile rootino f) s fun _ s' =>
        Logged s' ∧ s'.freeinode = s.freeinode + 1 := by
      unfold addFile
      refine .ite (fun _ => wpOr_throw.mpr trivial) fun _ => ?_
      cases f.reads with
      | none => exact wpOr_throw.mpr trivial
      | some reads =>
        refine (ialloc_logged T_FILE h).bind ?_
        rintro inum t ⟨ht, hfree⟩
        refine (Keeps.logged (.bind (.iappend _ _ _) fun _ => .appendReads _ _) ht).mono ?_
        rintro - u ⟨hu, hfree'⟩
        exact ⟨hu, hfree'.trans hfree⟩
    rw [addFiles]
    refine hfile.bind ?_
    rintro - t ⟨ht, hfree⟩
    refine (ih ht).mono ?_
    rintro - u ⟨hu, hfree'⟩
    rw [List.length_cons]
    exact ⟨hu, by omega⟩

/-- A successful run has written an inode for every file, whether or not there was room. -/
theorem mkfs_logged (hrun : mkfs files = .ok img) :
    Logged img ∧ img.freeinode = files.length + 2 := by
  have hmain : after True (main files) blank fun _ img =>
      Logged img ∧ img.freeinode = files.length + 2 := by
    unfold main makeRoot
    refine (Keeps.logged (.wsect 1 sbBlock) (fun i hpos hi => ?_)).bind ?_
    · exact absurd (show i < 1 from hi) (by omega)
    rintro - t ⟨ht, hfree⟩
    rw [bind_assoc]
    refine (ialloc_logged T_DIR ht).bind ?_
    rintro inum u ⟨hu, hfree'⟩
    refine (Keeps.logged (.ite (.throw _) (.bind (.iappend _ _ _) fun _ =>
      .bind (.iappend _ _ _) fun _ => .pure _)) hu).bind ?_
    rintro rootino v ⟨hv, hfree''⟩
    refine (addFiles_logged rootino files hv).bind ?_
    rintro - w ⟨hw, hfree3⟩
    have hfinish : Keeps (finish rootino) := .bind (.bind (.rsect _) fun _ => .pure _) fun _ =>
      .bind (.winode _ _) fun _ s => wpOr_get_bind.mpr
        (Keeps.ite (.wsect _ _) (.throw _) s)
    refine (hfinish.logged hw).mono ?_
    rintro - x ⟨hx, hfree4⟩
    have hone : blank.freeinode = 1 := rfl
    exact ⟨hx, by omega⟩
  exact hmain.of_run (mkfs_eq_ok.mp hrun)

/-- **Room.** The image that `mkfs` writes fits if and only if there are at most 198 files. -/
theorem mkfs_fits_iff (hrun : mkfs files = .ok img) : Fits img ↔ files.length ≤ 198 := by
  constructor
  · intro hfits
    -- The inode of the last file has been written.
    obtain ⟨hlog, hfree⟩ := mkfs_logged hrun
    have := (hfits.inodes (files.length + 1) (hlog _ (by omega) (by omega))).1
    unfold NINODES at this
    omega
  · intro hlen
    obtain ⟨c, s, h⟩ := mkfs_made hrun (by rw [nstore_eq]; omega)
    have hnum : ∀ i ∈ img.inodes, i < NINODES := by
      intro i hi
      have hfree := h.freeinode
      rw [h.inodes] at hi
      unfold NINODES
      rcases List.mem_cons.mp hi with rfl | hi
      · decide
      · have := h.good.inodes i hi
        omega
    have hroom : ∀ i ∈ img.inodes, i < NROOM := fun i hi => (hnum i hi).trans (by decide)
    constructor
    · exact fun i hi => ⟨hnum i hi, iblock_lt_bmapstart (hroom i hi)⟩
    · intro i hi k hk hne
      rw [h.ptr_eq (hroom i hi)] at hne ⊢
      have := h.good.files.owns.range i k hk hne
      exact ⟨this.1, this.2.trans_le h.good.files.hi⟩
    · rw [h.written]
      exact h.good.written

/-- The image with the two files fits. -/
theorem mkfs_fits_iff_dataFiles : ∃ img, mkfs dataFiles = .ok img ∧ Fits img := by
  obtain ⟨img, hrun⟩ := mkfs_succeeds fit_dataFiles (by decide)
  exact ⟨img, hrun, (mkfs_fits_iff hrun).mpr (by decide)⟩

/-- With 199 empty files `mkfs` succeeds and writes inode 200, which is not in the table. -/
theorem mkfs_overflows : ∃ img, mkfs (emptyFiles 199) = .ok img ∧ NINODES ∈ img.inodes ∧ ¬ Fits img := by
  have hfit : Fit (emptyFiles 199) := ⟨emptyFiles_ok (by decide), by
    rw [needFiles_emptyFiles, length_emptyFiles]
    decide⟩
  obtain ⟨img, hrun⟩ := mkfs_succeeds hfit (by rw [length_emptyFiles]; decide)
  obtain ⟨hlog, hfree⟩ := mkfs_logged hrun
  rw [length_emptyFiles] at hfree
  have hmem : NINODES ∈ img.inodes := hlog _ (by decide) (by rw [hfree]; decide)
  exact ⟨img, hrun, hmem, fun hfits => absurd (hfits.inodes _ hmem).1 (lt_irrefl _)⟩

end Room

end Xv6.Mkfs
