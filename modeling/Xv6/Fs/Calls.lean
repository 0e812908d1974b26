import Xv6.Fs.Sane

/-!
# System calls on a sane file system

Every function of `kernel/fs.c` and `kernel/sysfile.c` that works on directories keeps the file system
sane, whether it succeeds or fails on the way, and panics neither in `bfree` nor in `bmap`.
-/

namespace Xv6.Fs

open Function Lib

/-- The references of the caller, and the one that a function returns. -/
def hold (o : Ino → ℕ) : Option Ino → Ino → ℕ
  | none => o
  | some ip => pin o ip

/-- The references of the caller, and those to the inodes in `l`. -/
def pinAll (o : Ino → ℕ) (l : List Ino) : Ino → ℕ := l.foldr (fun ip o => pin o ip) o

/-- A state in a call that began in `s₀`, which has references to the inodes in `l`. -/
structure At (lo : ℕ) (o : Ino → ℕ) (s₀ : State) (l : List Ino) (s : State) : Prop where
  sane : Sane s lo
  pins : Pins (pinAll o l) s
  frame : Frame (fun _ => True) o s₀ s

/-! ## Inodes -/

section Inodes

variable {s s' s₀ : State} {lo i t : ℕ} {ip dp : Ino} {o : Ino → ℕ} {k l m : List Ino} {P : Ino → Prop}

theorem le_pinAll (l : List Ino) (jp : Ino) : o jp ≤ pinAll o l jp := by
  induction l with
  | nil => exact le_rfl
  | cons ip l ih => exact ih.trans (le_pin ip jp)

theorem At.start (h : Sane s lo) (hp : Pins o s) : At lo o s [] s := ⟨h, hp, .refl _ _ _⟩

theorem At.next (h : At lo o s₀ l s) (hs : Sane s' lo) (hp : Pins (pinAll o m) s')
    (hf : Frame P (pinAll o k) s s') : At lo o s₀ m s' :=
  ⟨hs, hp, h.frame.trans (hf.all (le_pinAll k))⟩

theorem At.swap (h : At lo o s₀ (dp :: ip :: l) s) : At lo o s₀ (ip :: dp :: l) s :=
  ⟨h.sane, by rw [pinAll, List.foldr, List.foldr, pin_comm]; exact h.pins, h.frame⟩

theorem At.ilock (h : At lo o s₀ l s) (ip : Ino) : safe (ilock ip) s fun _ s' => At lo o s₀ l s' ∧
    Frame (fun _ => False) (pinAll o l) s s' ∧ s'.disk = s.disk ∧ (s.inode ip).lock = false ∧
      Held s' ip (s.inode ip).inum (dinodeType s.sb s.disk (s.inode ip).inum) :=
  (ilock_sane h.sane h.pins).mono fun _ _ ⟨hs, hp, hf, hrest⟩ => ⟨h.next hs hp hf, hf, hrest⟩

theorem At.iunlock (h : At lo o s₀ l s) (ip : Ino) : safe (iunlock ip) s fun _ s' =>
    At lo o s₀ l s' ∧ s'.disk = s.disk :=
  (iunlock_sane h.sane h.pins).mono fun _ _ ⟨hs, hp, hf, hdisk, _⟩ => ⟨h.next hs hp hf, hdisk⟩

theorem At.iput (h : At lo o s₀ (ip :: l) s) : safe (iput ip) s fun _ s' => At lo o s₀ l s' :=
  (iput_sane h.sane h.pins).mono fun _ _ ⟨hs, hp, hf⟩ => h.next hs hp hf

theorem At.iunlockput (h : At lo o s₀ (ip :: l) s) : safe (iunlockput ip) s fun _ s' =>
    At lo o s₀ l s' ∧ Frame (· = ip) (pinAll o l) s s' :=
  (iunlockput_sane h.sane h.pins).mono fun _ _ ⟨hs, hp, hf⟩ => ⟨h.next hs hp hf, hf⟩

theorem dinodeField_lt (sb : Superblock) (d : Disk) (inum o w : ℕ) : dinodeField sb d inum o w < 256 ^ w :=
  Bytes.le_lt _ _ _

theorem Sane.setMeta {a b c : ℕ} (h : Sane s lo) (hh : Held s ip i t) (hc : c < 2 ^ 16) (hsb : s'.sb = s.sb)
    (hdisk : s'.disk = setDinode s.sb s.disk (s.inode ip).inum
      { s.inode ip with major := a, minor := b, nlink := c })
    (hin : s'.inode = update s.inode ip { s.inode ip with major := a, minor := b, nlink := c }) :
    Sane s' lo ∧ ∀ P, Frame P o s s' := by
  have hl := h.loaded ip hh.ref hh.valid
  have htype : dinodeType s.sb s'.disk (s.inode ip).inum = dinodeType s.sb s.disk (s.inode ip).inum := by
    rw [hdisk, dinodeType_setDinode, if_pos rfl, ← hl.type]
    apply Nat.mod_eq_of_lt
    rw [hl.type]
    exact dinodeField_lt _ _ _ _ _
  have hsize : s'.fsize (s.inode ip).inum = s.fsize (s.inode ip).inum := by
    unfold State.fsize
    rw [hsb, hdisk, dinodeSize_setDinode, if_pos rfl]
    refine (Nat.mod_eq_of_lt ?_).trans hl.size
    change (s.inode ip).size < 2 ^ 32
    rw [hl.size]
    exact dinodeField_lt _ _ _ _ _
  have haddrs : ∀ k, k ≤ NDIRECT →
      dinodeAddrs s.sb s'.disk (s.inode ip).inum k = dinodeAddrs s.sb s.disk (s.inode ip).inum k := by
    intro k hk
    rw [hdisk, dinodeAddrs_setDinode hk, if_pos rfl]
    refine (Nat.mod_eq_of_lt ?_).trans (hl.addrs k hk)
    change (s.inode ip).addrs k < 2 ^ 32
    rw [hl.addrs k hk]
    exact dinodeField_lt _ _ _ _ _
  have hself : s'.inode ip = { s.inode ip with major := a, minor := b, nlink := c } := by
    rw [hin, update_self]
  have hlive : Live s' (s.inode ip).inum := ⟨by rw [hsb]; exact hl.live.1, by rw [hsb, htype]; exact hl.live.2⟩
  obtain ⟨hcons, he, ho, hcontent⟩ := h.table (s.inode ip).inum hsb
    (fun b hb => by
      have := h.iblock_lt ip
      rw [hdisk]
      exact update_of_ne (by omega) _ _)
    (fun i o w hi how => by rw [hdisk, dinodeField_setDinode_of_ne hi how])
    (fun k hk => diskAddrs_congr hsb htype (haddrs k hk))
    (fun _ => .inl ⟨hl.live, hsize⟩)
  constructor
  · refine h.change hcons he ho (fun _ hdir => ?_) fun jp => ?_
    · rw [hsb, htype] at hdir
      obtain ⟨hmod, hent⟩ := h.dirs _ hl.live hdir
      refine ⟨by rwa [hsize], ?_⟩
      rw [directory_congr hsize (h.cons.size _ hl.live) hcontent, hsb]
      exact hent
    · by_cases hj : jp = ip
      · rw [hj, hself]
        refine .inr ⟨rfl, rfl, fun hr => hr, fun _ _ => ?_⟩
        constructor
        · rw [hself]
          exact hlive
        · rw [hself, hsb]
          exact hl.type.trans htype.symm
        · rw [hself, hsb, hdisk, dinodeNlink_setDinode, if_pos rfl]
          exact (Nat.mod_eq_of_lt hc).symm
        · rw [hself]
          exact hl.size.trans hsize.symm
        · intro k hk
          rw [hself, hsb]
          exact (hl.addrs k hk).trans (haddrs k hk).symm
      · refine .inl ⟨by rw [hin, update_of_ne hj], fun hr _ heq => hj (h.inj jp ip hr hh.ref heq)⟩
  · intro P
    have hentry : ∀ jp, jp ≠ ip → s'.inode jp = s.inode jp := fun jp hj => by
      rw [hin, update_of_ne hj]
    refine ⟨hsb, fun jp i t _ hheld => ?_, fun jp _ => ?_⟩
    · by_cases hj : jp = ip
      · rw [hj] at hheld ⊢
        exact ⟨by rw [hself]; exact hheld.ref, by rw [hself]; exact hheld.valid, by rw [hself]; exact hheld.lock,
          by rw [hself]; exact hheld.inum, by rw [hself]; exact hheld.type⟩
      · exact hheld.congr (hentry jp hj)
    · by_cases hi : (s.inode jp).inum = (s.inode ip).inum
      · refine ⟨?_, fun _ => by rw [hi, htype]⟩
        by_cases hj : jp = ip
        · rw [hj, hself]
        · rw [hentry jp hj]
      · refine ⟨?_, fun _ => ho.type _ (h.inum jp) hi⟩
        rw [hentry jp fun hj => hi (by rw [hj])]

theorem At.setMeta {α : Type} {u : Inode → Inode} {f : PUnit → F α} {Q : α → State → Prop}
    (h : At lo o s₀ l s) (hh : Held s ip i t)
    (hu : ∃ a b c, c < 2 ^ 16 ∧ u (s.inode ip) = { s.inode ip with major := a, minor := b, nlink := c })
    (hf : ∀ s', At lo o s₀ l s' → (∀ P, Frame P (pinAll o l) s s') → safe (f ⟨⟩) s' Q) :
    safe (setInode ip u >>= fun _ => iupdate ip >>= f) s Q := by
  obtain ⟨a, b, c, hc, hu⟩ := hu
  unfold safe iupdate bread logWrite
  rw [setInode_eq, wpOr_modify_bind]
  simp only [bind_assoc, pure_bind]
  rw [wpOr_get_bind, wpOr_get_bind, wpOr_modify_bind, hu]
  simp only [State.withEntry_self, State.withEntry_sb, State.withEntry_disk]
  generalize hs' : (⟨s.sb, update s.disk (s.sb.iblock (s.inode ip).inum) _, State.inode _⟩ : State) = s'
  have hin : s'.inode = update s.inode ip { s.inode ip with major := a, minor := b, nlink := c } := by
    rw [← hs']
    rfl
  obtain ⟨hsane, hframe⟩ := h.sane.setMeta (o := pinAll o l) hh hc (by rw [← hs']) (by rw [← hs']; rfl) hin
  refine hf s' (h.next hsane (h.pins.congr fun jp => ?_) (hframe fun _ => False)) hframe
  rw [hin]
  by_cases hj : jp = ip
  · rw [hj, update_self]
  · rw [update_of_ne hj]

theorem ialloc_sane (h : Sane s lo) (hp : Pins o s) (type : ℕ) : safe (ialloc ROOTDEV type) s fun r s' =>
    Sane s' lo ∧ Pins (hold o r) s' ∧ Frame (fun _ => False) o s s' ∧
      ∀ ip, r = some ip → dinodeType s'.sb s'.disk (s'.inode ip).inum = type % 2 ^ 16 := by
  unfold safe ialloc bread logWrite
  rw [wpOr_get_bind]
  cases hfree : freeInum s with
  | none => exact (wpOr_pure _).mpr ⟨h, hp, .refl _ _ _, fun ip hr => by cases hr⟩
  | some inum =>
    have hmem := List.mem_of_find?_eq_some hfree
    have hlt : inum < s.sb.ninodes := List.mem_range.mp (List.mem_of_mem_drop hmem)
    have hfound := List.find?_some hfree
    have h0 : dinodeType s.sb s.disk inum = 0 := of_decide_eq_true hfound
    simp only [bind_assoc, pure_bind]
    rw [wpOr_get_bind, wpOr_modify_bind]
    generalize hs1 : (⟨s.sb, update s.disk (s.sb.iblock inum) _, s.inode⟩ : State) = s1
    have hsb : s1.sb = s.sb := by rw [← hs1]
    have hin : s1.inode = s.inode := by rw [← hs1]
    have hoff := dinodeOff_le inum
    have hfield : ∀ i o w, i ≠ inum → o + w ≤ 64 →
        dinodeField s.sb s1.disk i o w = dinodeField s.sb s.disk i o w := by
      intro i o w hi how
      rw [← hs1]
      unfold dinodeField
      by_cases hblock : s.sb.iblock i = s.sb.iblock inum
      · have hdis := dinodeOff_disjoint hi hblock
        rw [hblock]
        simp only [update_self]
        rw [Bytes.le_setLe_of_disjoint _ _ _ _ _ _ (by omega),
          Bytes.le_splice_of_disjoint _ _ _ _ _ _ (by omega)]
      · simp only [update_of_ne hblock]
    -- The other fields of the new inode are zero.
    have hzero : ∀ o w, 2 ≤ o → o + w ≤ 64 → dinodeField s.sb s1.disk inum o w = 0 := by
      intro o w ho how
      rw [← hs1]
      unfold dinodeField
      simp only [update_self]
      rw [Bytes.le_setLe_of_disjoint _ _ _ _ _ _ (by omega), ← Bytes.le_fill_zero (n := BSIZE) 0 w]
      apply Bytes.le_congr
      intro k hk
      rw [Bytes.get_splice _ _ _ _ (by omega), if_pos (by omega), Bytes.get_fill (by omega)]
    have htype : dinodeType s.sb s1.disk inum = type % 2 ^ 16 := by
      rw [← hs1]
      unfold dinodeType dinodeField
      simp only [update_self]
      exact Bytes.le_setLe _ _ _ _ (by omega)
    have hsize : s1.fsize inum = 0 := by
      unfold State.fsize
      rw [hsb]
      exact hzero 8 4 (by omega) (by omega)
    obtain ⟨hc, he, ho, -⟩ := h.table inum hsb
      (fun b hb => by
        have := h.cons.geom.inodes inum hlt
        rw [← hs1]
        exact update_of_ne (by omega) _ _)
      hfield
      (fun k hk => by
        unfold State.diskAddrs
        rw [if_neg fun hlive : Live s inum => hlive.2 h0]
        split_ifs
        · rw [hsb]
          exact hzero (12 + 4 * k) 4 (by omega) (by unfold NDIRECT at hk; omega)
        · rfl)
      (fun _ => .inr hsize)
    have hs1 : Sane s1 lo := by
      refine h.change hc he ho (fun _ _ => .of_empty hsize) fun jp => .inl ⟨by rw [hin], fun hr hv heq => ?_⟩
      have hlive := (h.loaded jp hr hv).live
      rw [heq] at hlive
      exact hlive.2 h0
    have hframe : Frame (fun _ => False) o s s1 := by
      refine ⟨hsb, fun jp i t _ hh => hh.congr (by rw [hin]), fun jp _ => ⟨by rw [hin], fun hne => ?_⟩⟩
      exact ho.type _ (h.inum jp) fun heq => hne (by rw [heq, h0])
    refine (iget_sane hs1 (hp.congr fun jp => by rw [hin]) (by rwa [hsb])).bind ?_
    rintro ip u ⟨hu, hpu, hfu, hdisk, hinum⟩
    refine (wpOr_pure _).mpr ⟨hu, hpu, hframe.trans hfu, fun ip' hr => ?_⟩
    cases hr
    rw [hinum, hdisk, hfu.sb, hsb, htype]

end Inodes

/-! ## Directories -/

section Directories

variable {s s' : State} {lo d t : ℕ} {ip dp : Ino} {o : Ino → ℕ}

theorem Sane.isDir (h : Sane s lo) (hh : Held s dp d T_DIR) : IsDir s lo dp := by
  have hl := h.loaded dp hh.ref hh.valid
  exact ⟨h.cons, hl, hh.type, (h.dirs _ hl.live (by rw [← hl.type, hh.type])).1, hh.ref⟩

theorem Sane.entry_lt (h : Sane s lo) (hh : Held s dp d T_DIR) {j : ℕ} (hj : j < (s.dir dp).count) :
    (s.dir dp).inum j < s.sb.ninodes := by
  have hl := h.loaded dp hh.ref hh.valid
  exact (h.dirs _ hl.live (by rw [← hl.type, hh.type])).2 j hj

theorem At.dirlookup (h : At lo o s₀ l s) (hh : Held s dp d t) (name : Name) :
    safe (dirlookup dp name) s fun r s' => At lo o s₀ (r.elim l fun r => r.1 :: l) s' ∧ t = T_DIR ∧
      Frame (fun _ => False) (pinAll o l) s s' ∧ s'.disk = s.disk ∧
      ∀ ip off, r = some (ip, off) → ∃ j, j < (s.directory d).count ∧ off = DIRENT * j := by
  by_cases ht : t = T_DIR
  swap
  · unfold safe Fs.dirlookup
    rw [wpOr_get_bind, if_pos (by rw [hh.type]; exact ht)]
    exact wpOr_throw.mpr ⟨by decide, by decide⟩
  subst ht
  have hd := h.sane.isDir hh
  refine wpOr.of_run_eq ?_ (hd.dirlookup_run name)
  cases hlook : (s.dir dp).lookup name with
  | none => exact (wpOr_pure _).mpr ⟨h, rfl, .refl _ _ _, rfl, fun ip off hr => by cases hr⟩
  | some r =>
    obtain ⟨k, off⟩ := r
    obtain ⟨j, hlive, -, rfl, rfl⟩ := Directory.exists_of_lookup hlook
    rw [h.sane.dev dp hh.ref]
    refine (iget_sane h.sane h.pins (h.sane.entry_lt hh hlive.1)).bind ?_
    rintro ip u ⟨hu, hpu, hfu, hdisk, -⟩
    refine (wpOr_pure _).mpr ⟨h.next (m := ip :: l) hu hpu hfu, rfl, hfu, hdisk, fun ip' off' hr => ⟨j, ?_, ?_⟩⟩
    · rw [← hh.inum]
      exact hlive.1
    · cases hr
      rfl

theorem Sane.writeEntry (h : Sane s lo) (hp : Pins o s) (hh : Held s dp d T_DIR) (hd : IsDir s' lo dp)
    (ht : Touched dp lo s s')
    (hD : s'.dir dp = s.dir dp ∨ ∃ j de, j ≤ (s.dir dp).count ∧ direntInum de < s.sb.ninodes ∧
      s'.dir dp = (s.dir dp).set j de) : Sane s' lo ∧ Pins o s' ∧ ∀ P, Frame P o s s' := by
  obtain rfl | ⟨he, src, off, tot, hw⟩ := ht
  · exact ⟨h, hp, fun P => .refl _ _ _⟩
  have hm := hw.modified
  have hinum := (hm.entry dp).2.2.2.1
  refine ⟨h.modify hh.ref hm hd.cons hd.loaded (he h.exact) fun _ => ?_, hm.pins hp, hm.frame h⟩
  refine ⟨by rw [← hinum]; exact hd.size, fun j hj => ?_⟩
  have hdir : s'.directory (s.inode dp).inum = s'.dir dp := by rw [← hinum]; rfl
  rw [hdir] at hj ⊢
  rw [hm.sb]
  obtain hsame | ⟨j', de, hj', hde, hset⟩ := hD
  · rw [hsame] at hj ⊢
    exact h.entry_lt hh hj
  · rw [hset] at hj ⊢
    by_cases heq : j = j'
    · rw [heq, Directory.inum, Directory.set_self]
      exact hde
    · rw [Directory.inum, Directory.set_entry_of_ne heq]
      refine h.entry_lt hh ?_
      have : j < max (s.dir dp).count (j' + 1) := hj
      omega

theorem At.dirlink (h : At lo o s₀ l s) (hh : Held s dp d t) (name : Name) {inum : ℕ}
    (hk : inum < s.sb.ninodes) :
    safe (dirlink dp name inum) s fun _ s' => At lo o s₀ l s' ∧ ∀ P, Frame P (pinAll o l) s s' := by
  by_cases ht : t = T_DIR
  swap
  · unfold safe Fs.dirlink Fs.dirlookup
    rw [bind_assoc, wpOr_get_bind, if_pos (by rw [hh.type]; exact ht)]
    exact wpOr_throw.mpr ⟨by decide, by decide⟩
  subst ht
  have hd := h.sane.isDir hh
  have hp := h.pins
  cases hlook : (s.dir dp).lookup name with
  | none =>
    refine (hd.dirlink_absent hlook).or.mono ?_
    rintro r u ⟨hdu, htouch, hD⟩
    obtain ⟨hu, hpu, hfu⟩ := h.sane.writeEntry hp hh hdu htouch (by
      obtain ⟨-, hD⟩ | ⟨-, hD, -⟩ := hD
      · refine .inr ⟨_, _, Directory.free_spec.1, ?_, hD⟩
        rw [direntInum_dirent_eq_mod]
        exact (Nat.mod_le _ _).trans_lt hk
      · exact .inl hD)
    exact ⟨h.next hu hpu (hfu fun _ => False), hfu⟩
  | some r =>
    obtain ⟨k, off⟩ := r
    obtain ⟨j, hlive, -, rfl, rfl⟩ := Directory.exists_of_lookup hlook
    refine ((hd.dirlink_present hlook).weaken ?_).mono ?_
    · rintro e ⟨rfl, -⟩
      exact ⟨by decide, by decide⟩
    rintro r u ⟨-, ip, i, rfl, hi⟩
    change At lo o s₀ l (s.withEntry ip i) ∧ ∀ P, Frame P (pinAll o l) s (s.withEntry ip i)
    obtain rfl | ⟨hzero, hi, hinum⟩ := hi
    · have : s.withEntry ip (s.inode ip) = s := by
        unfold State.withEntry
        rw [update_eq_self]
      rw [this]
      exact ⟨h, fun P => .refl _ _ _⟩
    · have ho := hp ip
      have hframe : ∀ P, Frame P (pinAll o l) s (s.withEntry ip i) := fun P =>
        .setEntry (fun hpos => by omega) fun i t _ hh' => by
          have := hh'.ref
          omega
      exact ⟨h.next (h.sane.setEntry (by rw [hinum]; exact h.sane.entry_lt hh hlive.1) fun hr => by omega)
        (hp.setEntry (fun _ _ => le_rfl) (by omega)) (hframe fun _ => False), hframe⟩

theorem isdiremptyLoop_sane (h : Sane s lo) (hh : Held s dp d t) (fuel off : ℕ) :
    safe (isdiremptyLoop dp fuel off) s fun _ s' => s' = s := by
  have hl := h.loaded dp hh.ref hh.valid
  have hsize := h.cons.loaded_size hl
  have hmax := maxfile_lt
  induction fuel generalizing off with
  | zero => exact (wpOr_pure _).mpr rfl
  | succ fuel ih =>
    rw [safe, isdiremptyLoop, wpOr_get_bind]
    refine .ite (fun _ => (wpOr_pure _).mpr rfl) fun hlt => ?_
    refine (readi_spec h.cons hl (by omega) (by decide)).bindOr ?_
    rintro de u ⟨rfl, -⟩
    refine .ite (fun _ => wpOr_throw.mpr ⟨by decide, by decide⟩) fun _ => ?_
    exact .ite (fun _ => (wpOr_pure _).mpr rfl) fun _ => ih _

end Directories

/-! ## Paths -/

section Paths

variable {s s' s₀ : State} {lo : ℕ} {ip cwd : Ino} {o : Ino → ℕ} {l : List Ino}

theorem At.giveUp {α : Type} (h : At lo o s₀ (ip :: l) s) (r : α) :
    safe (Fs.iunlockput ip >>= fun _ => (pure r : F α)) s fun r' s' => r' = r ∧ At lo o s₀ l s' :=
  h.iunlockput.bind fun _ _ hu => (wpOr_pure _).mpr ⟨rfl, hu.1⟩

theorem At.namexLoop (h : At lo o s₀ (ip :: l) s) (parent : Bool) (fuel : ℕ) (path : List UInt8)
    (name : Name) : safe (namexLoop parent fuel path ip name) s fun r s' =>
      At lo o s₀ (r.elim l fun r => r.1 :: l) s' := by
  induction fuel generalizing s ip path name with
  | zero => exact (wpOr_pure _).mpr ⟨h.sane, h.pins.le (le_pin ip), h.frame⟩
  | succ fuel ih =>
    rw [safe, Fs.namexLoop]
    cases hskip : skipelem path with
    | none =>
      refine .ite (fun _ => ?_) fun _ => (wpOr_pure _).mpr h
      exact h.iput.bind fun _ u hu => (wpOr_pure _).mpr hu
    | some rest =>
      obtain ⟨path, name⟩ := rest
      refine (h.ilock ip).bind ?_
      rintro _ s1 ⟨h1, -, -, -, hh1⟩
      rw [wpOr_get_bind]
      -- The inode is no directory, or the name is missing.
      have hfail : ∀ s2, At lo o s₀ (ip :: l) s2 →
          safe (Fs.iunlockput ip >>= fun _ => (pure none : F (Option (Ino × Name)))) s2 fun r s' =>
            At lo o s₀ (r.elim l fun r => r.1 :: l) s' := by
        intro s2 h2
        refine (h2.giveUp none).mono ?_
        rintro _ u ⟨rfl, hu⟩
        exact hu
      refine .ite (fun _ => hfail s1 h1) fun _ => .ite (fun _ => ?_) fun _ => ?_
      · exact (h1.iunlock ip).bind fun _ u hu => (wpOr_pure _).mpr hu.1
      · refine (h1.dirlookup hh1 name).bind ?_
        rintro (_ | ⟨next, off⟩) s2 ⟨h2, -⟩
        · exact hfail s2 h2
        · exact (At.swap h2).iunlockput.bind fun _ s3 h3 => ih h3.1 path name

theorem At.namex (h : At lo o s₀ l s) (hcwd : 0 < o cwd) (path : List UInt8) (parent : Bool) :
    safe (namex cwd path parent) s fun r s' => At lo o s₀ (r.elim l fun r => r.1 :: l) s' := by
  unfold safe Fs.namex
  refine .ite (fun _ => ?_) fun _ => ?_
  · refine (iget_sane h.sane h.pins h.sane.root).bind ?_
    rintro ip u ⟨hu, hpu, hfu, -⟩
    exact (h.next (m := ip :: l) hu hpu hfu).namexLoop parent _ path []
  · refine (idup_sane h.sane h.pins (hcwd.trans_le (le_pinAll l cwd))).bind ?_
    rintro _ u ⟨rfl, hu, hpu, hfu, -⟩
    exact (h.next (m := _ :: l) hu hpu hfu).namexLoop parent _ path []

theorem At.namei (h : At lo o s₀ l s) (hcwd : 0 < o cwd) (path : List UInt8) :
    safe (namei cwd path) s fun r s' => At lo o s₀ (r.elim l (· :: l)) s' := by
  refine (h.namex hcwd path false).bind ?_
  rintro (_ | r) u hu
  · exact (wpOr_pure _).mpr hu
  · exact (wpOr_pure _).mpr hu

end Paths

/-! ## System calls -/

section Create

variable {s s' s₀ : State} {lo d i t t' : ℕ} {ip dp cwd : Ino} {o : Ino → ℕ} {C : ℕ → Prop}

/-- What `create` returns: the new inode, locked, of a type in `C`. -/
def Created (C : ℕ → Prop) (lo : ℕ) (o : Ino → ℕ) (s : State) (r : Option Ino) (s' : State) : Prop :=
  Sane s' lo ∧ Pins (hold o r) s' ∧ Frame (fun _ => True) o s s' ∧
    ∀ ip, r = some ip → ∃ i t, Held s' ip i t ∧ C t

theorem At.created (h : At lo o s₀ [ip] s) (hh : Held s ip i t) (hC : C t) :
    Created C lo o s₀ (some ip) s := by
  refine ⟨h.sane, h.pins, h.frame, fun ip' hr => ?_⟩
  cases hr
  exact ⟨i, t, hh, hC⟩

theorem At.none_created (h : At lo o s₀ [] s) : Created C lo o s₀ none s :=
  ⟨h.sane, h.pins, h.frame, fun _ hr => by cases hr⟩

theorem At.giveUp_created (h : At lo o s₀ [ip] s) :
    safe (Fs.iunlockput ip >>= fun _ => (pure none : F (Option Ino))) s fun r s' => Created C lo o s₀ r s' := by
  refine (h.giveUp none).mono ?_
  rintro _ u ⟨rfl, hu⟩
  exact hu.none_created

theorem At.createFail (h : At lo o s₀ [ip, dp] s) (hh : Held s ip i t) :
    safe (createFail dp ip) s fun r s' => Created C lo o s₀ r s' :=
  h.setMeta hh ⟨_, _, 0, by decide, rfl⟩ fun _ h1 _ => h1.iunlockput.bind fun _ _ h2 => h2.1.giveUp_created

theorem At.linkDots {l : List Ino} (h : At lo o s₀ l s) (hh : Held s ip i t) :
    safe (linkDots dp ip) s fun _ s' => At lo o s₀ l s' ∧
      ∀ jp i t, Held s jp i t → Held s' jp i t := by
  unfold safe Fs.linkDots
  rw [wpOr_get_bind]
  refine (h.dirlink hh dot (h.sane.inum ip)).bind ?_
  rintro r s1 ⟨h1, hf1⟩
  have hheld : ∀ jp i t, Held s jp i t → Held s1 jp i t := fun jp i t => (hf1 fun _ => False).held jp i t id
  refine .ite (fun _ => (wpOr_pure _).mpr ⟨h1, hheld⟩) fun _ => ?_
  rw [wpOr_get_bind]
  refine (h1.dirlink (hheld ip i t hh) dotdot (h1.sane.inum dp)).bind ?_
  rintro r s2 ⟨h2, hf2⟩
  exact (wpOr_pure _).mpr ⟨h2, fun jp i t hjp => (hf2 fun _ => False).held jp i t id (hheld jp i t hjp)⟩

theorem At.createEntry (h : At lo o s₀ [ip, dp] s) (hd : Held s dp d t') (hh : Held s ip i t) (hne : ip ≠ dp)
    (hC : C t) (name : Name) (type : ℕ) :
    safe (createEntry dp ip name type) s fun r s' => Created C lo o s₀ r s' := by
  unfold safe Fs.createEntry
  rw [wpOr_get_bind]
  refine (h.dirlink hd name (h.sane.inum ip)).bind ?_
  rintro r s1 ⟨h1, hf1⟩
  have hh1 := (hf1 fun _ => False).held ip i t id hh
  refine .ite (fun _ => h1.createFail hh1) fun _ => ?_
  have hend : ∀ s2, At lo o s₀ [ip, dp] s2 → (∀ P, Frame P (pinAll o [ip, dp]) s1 s2) →
      safe (Fs.iunlockput dp >>= fun _ => (pure (some ip) : F (Option Ino))) s2 fun r s' =>
        Created C lo o s₀ r s' := by
    intro s2 h2 hf2
    refine h2.swap.iunlockput.bind ?_
    rintro _ u ⟨hu, hfu⟩
    have hh2 := (hf2 fun _ => False).held ip i t id hh1
    exact (wpOr_pure _).mpr (hu.created (hfu.held ip i t hne hh2) hC)
  refine .ite (fun _ => ?_) fun _ => hend s1 h1 fun P => .refl _ _ _
  exact h1.setMeta ((hf1 fun _ => False).held dp d t' id hd) ⟨_, _, _, Nat.mod_lt _ (by decide), rfl⟩ hend

theorem At.createNew (h : At lo o s₀ [dp] s) (hd : Held s dp d t') (name : Name) (type major minor : ℕ)
    (hC : C (type % 2 ^ 16)) :
    safe (createNew dp name type major minor) s fun r s' => Created C lo o s₀ r s' := by
  unfold safe Fs.createNew
  rw [wpOr_get_bind, h.sane.dev dp hd.ref]
  refine (ialloc_sane h.sane h.pins type).bind ?_
  rintro (_ | ip) s1 ⟨hs1, hp1, hf1, htype⟩
  · exact (h.next (m := [dp]) hs1 hp1 hf1).giveUp_created
  have hd1 := hf1.held dp d t' id hd
  refine ((h.next (m := [ip, dp]) hs1 hp1 hf1).ilock ip).bind ?_
  rintro _ s2 ⟨h2, hf2, -, hlock, hh2⟩
  rw [htype ip rfl] at hh2
  have hd2 := hf2.held dp d t' id hd1
  -- The new inode was not locked, and the directory is.
  have hne : ip ≠ dp := by
    rintro rfl
    rw [hd1.lock] at hlock
    cases hlock
  refine h2.setMeta hh2 ⟨major, minor, 1, by decide, rfl⟩ fun s3 h3 hf3 => ?_
  have hh3 := (hf3 fun _ => False).held ip _ _ id hh2
  have hd3 := (hf3 fun _ => False).held dp d t' id hd2
  refine .ite (fun _ => ?_) fun _ => h3.createEntry hd3 hh3 hne hC name type
  refine (h3.linkDots hh3).bind ?_
  rintro b s4 ⟨h4, hheld⟩
  have hh4 := hheld _ _ _ hh3
  exact .ite (fun _ => h4.createEntry (hheld _ _ _ hd3) hh4 hne hC name type) fun _ => h4.createFail hh4

theorem create_sane (h : Sane s lo) (hp : Pins o s) (hcwd : 0 < o cwd) (path : List UInt8)
    (type major minor : ℕ) (hC : C (type % 2 ^ 16))
    (hC' : ∀ t, type = T_FILE ∧ (t = T_FILE ∨ t = T_DEVICE) → C t) :
    safe (create cwd path type major minor) s fun r s' => Created C lo o s r s' := by
  refine ((At.start h hp).namex hcwd path true).bind ?_
  rintro (_ | ⟨dp, name⟩) s1 h1
  · exact (wpOr_pure _).mpr h1.none_created
  refine (h1.ilock dp).bind ?_
  rintro _ s2 ⟨h2, -, -, -, hd2⟩
  refine (h2.dirlookup hd2 name).bind ?_
  rintro (_ | ⟨ip, off⟩) s3 ⟨h3, -, hf3, -⟩
  · exact At.createNew h3 (hf3.held dp _ _ id hd2) name type major minor hC
  refine (At.swap h3).iunlockput.bind ?_
  rintro _ s4 ⟨h4, -⟩
  refine (h4.ilock ip).bind ?_
  rintro _ s5 ⟨h5, -, -, -, hh5⟩
  rw [wpOr_get_bind, hh5.type]
  exact .ite (fun htype => (wpOr_pure _).mpr (h5.created hh5 (hC' _ htype))) fun _ => h5.giveUp_created

end Create

section Calls

variable {s s' s₀ : State} {lo d i t t' j : ℕ} {ip dp cwd : Ino} {o : Ino → ℕ}

/-- The state after a system call that returns no inode. -/
structure Done (lo : ℕ) (o : Ino → ℕ) (s s' : State) : Prop where
  sane : Sane s' lo
  pins : Pins o s'
  frame : Frame (fun _ => True) o s s'

theorem At.done (h : At lo o s₀ [] s) : Done lo o s₀ s := ⟨h.sane, h.pins, h.frame⟩

theorem At.giveUp_done {α : Type} (h : At lo o s₀ [ip] s) (r : α) :
    safe (Fs.iunlockput ip >>= fun _ => (pure r : F α)) s fun _ s' => Done lo o s₀ s' :=
  (h.giveUp r).mono fun _ _ hu => hu.2.done

theorem mknode_sane (h : Sane s lo) (hp : Pins o s) (hcwd : 0 < o cwd) (path : List UInt8)
    (type major minor : ℕ) : safe (mknode cwd path type major minor) s fun _ s' => Done lo o s s' := by
  refine (create_sane (C := fun _ => True) h hp hcwd path type major minor trivial fun _ _ => trivial).bind ?_
  rintro (_ | ip) s1 ⟨h1, hp1, hf1, -⟩
  · exact (wpOr_pure _).mpr ⟨h1, hp1, hf1⟩
  · exact At.giveUp_done ⟨h1, hp1, hf1⟩ (0 : ℤ)

theorem At.linkBad (h : At lo o s₀ [ip] s) : safe (linkBad ip) s fun _ s' => Done lo o s₀ s' := by
  refine (h.ilock ip).bind ?_
  rintro _ s1 ⟨h1, -, -, -, hh1⟩
  exact h1.setMeta hh1 ⟨_, _, _, Nat.mod_lt _ (by decide), rfl⟩ fun s2 h2 _ => h2.giveUp_done (-1 : ℤ)

theorem link_sane (h : Sane s lo) (hp : Pins o s) (hcwd : 0 < o cwd) (old new : List UInt8) :
    safe (link cwd old new) s fun _ s' => Done lo o s s' := by
  refine ((At.start h hp).namei hcwd old).bind ?_
  rintro (_ | ip) s1 h1
  · exact (wpOr_pure _).mpr h1.done
  refine (h1.ilock ip).bind ?_
  rintro _ s2 ⟨h2, -, -, -, hh2⟩
  rw [wpOr_get_bind]
  refine .ite (fun _ => h2.giveUp_done (-1 : ℤ)) fun _ => ?_
  refine h2.setMeta hh2 ⟨_, _, _, Nat.mod_lt _ (by decide), rfl⟩ fun s3 h3 _ => ?_
  refine (h3.iunlock ip).bind ?_
  rintro _ s4 ⟨h4, -⟩
  refine (h4.namex hcwd new true).bind ?_
  rintro (_ | ⟨dp, name⟩) s5 h5
  · exact h5.linkBad
  refine (h5.ilock dp).bind ?_
  rintro _ s6 ⟨h6, -, -, -, hd6⟩
  rw [wpOr_get_bind]
  -- The name cannot be made: the count is taken back.
  have hbad : ∀ s7, At lo o s [dp, ip] s7 →
      safe (iunlockput dp >>= fun _ => linkBad ip) s7 fun _ s' => Done lo o s s' := fun s7 h7 =>
    h7.iunlockput.bind fun _ s8 h8 => h8.1.linkBad
  refine .ite (fun _ => hbad s6 h6) fun _ => ?_
  refine (h6.dirlink hd6 name (h6.sane.inum ip)).bind ?_
  rintro r s7 ⟨h7, -⟩
  refine .ite (fun _ => hbad s7 h7) fun _ => ?_
  refine h7.iunlockput.bind ?_
  rintro _ s8 ⟨h8, -⟩
  exact h8.iput.bind fun _ u hu => (wpOr_pure _).mpr hu.done

theorem directory_of_disk (hsb : s'.sb = s.sb) (hdisk : s'.disk = s.disk) (d : ℕ) :
    s'.directory d = s.directory d := by
  obtain ⟨sb, disk, inode⟩ := s
  obtain ⟨sb', disk', inode'⟩ := s'
  obtain rfl : sb' = sb := hsb
  obtain rfl : disk' = disk := hdisk
  rfl

theorem At.unlinkEntry (h : At lo o s₀ [ip, dp] s) (hd : Held s dp d T_DIR) (hh : Held s ip i t)
    (hne : ip ≠ dp) (hj : j < (s.directory d).count) :
    safe (unlinkEntry dp ip (DIRENT * j)) s fun _ s' => Done lo o s₀ s' := by
  have hj' : j ≤ (s.dir dp).count := by
    unfold State.dir
    rw [hd.inum]
    exact hj.le
  refine ((h.sane.isDir hd).writei_entry hj' fun _ => 0).bindOr ?_
  rintro r s1 ⟨hdir, htouch, hD⟩
  have hzero : direntInum ((List.range DIRENT).map fun _ => 0) < s.sb.ninodes :=
    lt_of_le_of_lt (by decide) h.sane.root
  obtain ⟨hs1, hp1, hf1⟩ := h.sane.writeEntry h.pins hd hdir htouch (by
    obtain ⟨-, hD⟩ | ⟨-, hD, -⟩ := hD
    · exact .inr ⟨j, _, hj', hzero, hD⟩
    · exact .inl hD)
  have h1 := h.next hs1 hp1 (hf1 fun _ => False)
  refine .ite (fun _ => wpOr_throw.mpr ⟨by decide, by decide⟩) fun _ => ?_
  rw [wpOr_get_bind]
  have hend : ∀ s2, At lo o s₀ [ip, dp] s2 → (∀ P, Frame P (pinAll o [ip, dp]) s1 s2) →
      safe (do
        Fs.iunlockput dp
        setInode ip fun i => { i with nlink := (i.nlink + (2 ^ 16 - 1)) % 2 ^ 16 }
        iupdate ip
        Fs.iunlockput ip
        return (0 : ℤ)) s2 fun _ s' => Done lo o s₀ s' := by
    intro s2 h2 hf2
    have hh2 := ((hf1 fun _ => False).trans (hf2 _)).held ip i t id hh
    refine h2.swap.iunlockput.bind ?_
    rintro _ s3 ⟨h3, hf3⟩
    exact h3.setMeta (hf3.held ip i t hne hh2) ⟨_, _, _, Nat.mod_lt _ (by decide), rfl⟩
      fun s4 h4 _ => h4.giveUp_done (0 : ℤ)
  refine .ite (fun _ => ?_) fun _ => hend s1 h1 fun P => .refl _ _ _
  exact h1.setMeta ((hf1 fun _ => False).held dp d T_DIR id hd)
    ⟨_, _, _, Nat.mod_lt _ (by decide), rfl⟩ hend

theorem unlink_sane (h : Sane s lo) (hp : Pins o s) (hcwd : 0 < o cwd) (path : List UInt8) :
    safe (unlink cwd path) s fun _ s' => Done lo o s s' := by
  refine ((At.start h hp).namex hcwd path true).bind ?_
  rintro (_ | ⟨dp, name⟩) s1 h1
  · exact (wpOr_pure _).mpr h1.done
  refine (h1.ilock dp).bind ?_
  rintro _ s2 ⟨h2, -, -, -, hd2⟩
  refine .ite (fun _ => h2.giveUp_done (-1 : ℤ)) fun _ => ?_
  refine (h2.dirlookup hd2 name).bind ?_
  rintro (_ | ⟨ip, off⟩) s3 ⟨h3, htype, hf3, hdisk3, hoff⟩
  · exact At.giveUp_done h3 (-1 : ℤ)
  obtain ⟨j, hj, rfl⟩ := hoff ip off rfl
  have hd3 := hf3.held dp _ _ id hd2
  rw [htype] at hd3
  refine (At.ilock h3 ip).bind ?_
  rintro _ s4 ⟨h4, hf4, hdisk4, hlock, hh4⟩
  have hne : ip ≠ dp := by
    rintro rfl
    rw [hd3.lock] at hlock
    cases hlock
  rw [← directory_of_disk (hf4.sb.trans hf3.sb) (hdisk4.trans hdisk3)] at hj
  rw [wpOr_get_bind]
  have hentry : safe (unlinkEntry dp ip (DIRENT * j)) s4 fun _ s' => Done lo o s s' :=
    At.unlinkEntry h4 (hf4.held dp _ _ id hd3) hh4 hne hj
  refine .ite (fun _ => wpOr_throw.mpr ⟨by decide, by decide⟩) fun _ => .ite (fun _ => ?_) fun _ => hentry
  have hempty : safe (isdirempty ip) s4 fun _ s' => s' = s4 := by
    unfold safe isdirempty
    rw [wpOr_get_bind]
    exact isdiremptyLoop_sane h4.sane hh4 _ _
  refine hempty.bind ?_
  rintro b _ rfl
  exact .ite (fun _ => hentry) fun _ => (At.iunlockput h4).bind fun _ s5 h5 => h5.1.giveUp_done (-1 : ℤ)

theorem chdir_sane (h : Sane s lo) (hp : Pins (pin o cwd) s) (path : List UInt8) :
    safe (chdir cwd path) s fun r s' => Sane s' lo ∧ Pins (hold o (r.orElse fun _ => some cwd)) s' ∧
      Frame (fun _ => True) o s s' := by
  refine ((At.start h hp).namei (by rw [pin_self]; omega) path).bind ?_
  rintro (_ | ip) s1 h1
  · exact (wpOr_pure _).mpr ⟨h1.sane, h1.pins, h1.frame.all (le_pin cwd)⟩
  refine (h1.ilock ip).bind ?_
  rintro _ s2 ⟨h2, -⟩
  rw [wpOr_get_bind]
  refine .ite (fun _ => ?_) fun _ => ?_
  · refine (h2.giveUp none).mono ?_
    rintro _ u ⟨rfl, hu⟩
    exact ⟨hu.sane, hu.pins, hu.frame.all (le_pin cwd)⟩
  · refine (h2.iunlock ip).bind ?_
    rintro _ s3 ⟨h3, -⟩
    have h3 : At lo o s [cwd, ip] s3 :=
      At.swap ⟨h3.sane, h3.pins, h3.frame.all (le_pin cwd)⟩
    exact h3.iput.bind fun _ u hu => (wpOr_pure _).mpr ⟨hu.sane, hu.pins, hu.frame⟩

theorem execReads_sane (h : Sane s lo) (hh : Held s ip i t) (reads : List (ℕ × ℕ))
    (hr : ∀ r ∈ reads, r.1 < 2 ^ 32 ∧ r.2 < 2 ^ 32) : wp (execReads ip reads) s fun _ s' => s' = s := by
  induction reads with
  | nil => exact (wp_pure _).mpr rfl
  | cons r reads ih =>
    obtain ⟨off, n⟩ := r
    obtain ⟨hoff, hn⟩ := hr (off, n) List.mem_cons_self
    rw [execReads]
    refine (readi_spec h.cons (h.loaded ip hh.ref hh.valid) hoff hn).bind ?_
    rintro de u ⟨rfl, -⟩
    exact .ite (fun _ => (wp_pure _).mpr rfl) fun _ => ih fun r hmem => hr r (List.mem_cons_of_mem _ hmem)

theorem exec_sane (h : Sane s lo) (hp : Pins o s) (hcwd : 0 < o cwd) (path : List UInt8)
    (reads : List (ℕ × ℕ)) (hr : ∀ r ∈ reads, r.1 < 2 ^ 32 ∧ r.2 < 2 ^ 32) (bad late : Bool) :
    safe (exec cwd path reads bad late) s fun _ s' => Done lo o s s' := by
  refine ((At.start h hp).namei hcwd path).bind ?_
  rintro (_ | ip) s1 h1
  · exact (wpOr_pure _).mpr h1.done
  refine (h1.ilock ip).bind ?_
  rintro _ s2 ⟨h2, -, -, -, hh2⟩
  refine (execReads_sane h2.sane hh2 reads hr).bindOr ?_
  rintro b _ rfl
  exact .ite (fun _ => h2.giveUp_done (-1 : ℤ)) fun _ => h2.giveUp_done (if late then (-1 : ℤ) else 0)

end Calls

end Xv6.Fs
