import Xv6.Fs.Directory
import Xv6.Fs.UserWrite
import Xv6.Fs.Trunc
import Xv6.Fs.Refs

/-!
# The file system between system calls

`Sane` says what holds of the disk and of the inode table whenever no function is in the middle of its
work: the disk is consistent, the bitmap is exact, directories consist of entries that name inodes of the
table, and an entry of the inode table that is in use and valid is as on disk. Each function keeps it,
the inodes that the caller has locked, and the type of those to which there are references (`Frame`); no
function panics in `bfree` or `bmap`.
-/

namespace Xv6.Fs

open Function Lib

/-- A directory on disk: whole entries, with numbers of the inode table. -/
def DirOk (s : State) (d : ℕ) : Prop :=
  s.fsize d % DIRENT = 0 ∧ ∀ j, j < (s.directory d).count → (s.directory d).inum j < s.sb.ninodes

/-- What holds between system calls. -/
structure Sane (s : State) (lo : ℕ) : Prop where
  cons : Consistent s lo
  exact : Exact s lo
  root : ROOTINO < s.sb.ninodes
  dirs : ∀ d, Live s d → dinodeType s.sb s.disk d = T_DIR → DirOk s d
  inum : ∀ ip, (s.inode ip).inum < s.sb.ninodes
  dev : ∀ ip, 0 < (s.inode ip).ref → (s.inode ip).dev = ROOTDEV
  inj : ∀ ip ip', 0 < (s.inode ip).ref → 0 < (s.inode ip').ref →
    (s.inode ip).inum = (s.inode ip').inum → ip = ip'
  loaded : ∀ ip, 0 < (s.inode ip).ref → (s.inode ip).valid = true → Loaded s ip

/-- The caller has locked `ip`, inode `i` of type `t`. -/
structure Held (s : State) (ip : Ino) (i t : ℕ) : Prop where
  ref : 0 < (s.inode ip).ref
  valid : (s.inode ip).valid = true
  lock : (s.inode ip).lock = true
  inum : (s.inode ip).inum = i
  type : (s.inode ip).type = t

/-- The entries of the inode table have at least the references `o`. -/
def Pins (o : Ino → ℕ) (s : State) : Prop := ∀ ip, (o ip : ℤ) ≤ (s.inode ip).ref

/-- One more reference to `ip`. -/
def pin (o : Ino → ℕ) (ip : Ino) : Ino → ℕ := update o ip (o ip + 1)

/-- Locked inodes stay locked, but for `P`, and inodes to which there are references `o` stay the same. -/
structure Frame (P : Ino → Prop) (o : Ino → ℕ) (s s' : State) : Prop where
  sb : s'.sb = s.sb
  held : ∀ ip i t, ¬ P ip → Held s ip i t → Held s' ip i t
  kept : ∀ ip, 0 < o ip → (s'.inode ip).inum = (s.inode ip).inum ∧
    (dinodeType s.sb s.disk (s.inode ip).inum ≠ 0 →
      dinodeType s.sb s'.disk (s.inode ip).inum = dinodeType s.sb s.disk (s.inode ip).inum)

/-- The panics other than those that are excluded here. -/
def Fine (e : Panic) : Prop := e ≠ .bfree ∧ e ≠ .bmap

/-- The code returns in a sane state, or panics elsewhere than in `bfree` and `bmap`. -/
abbrev safe {α : Type} (x : F α) (s : State) (Q : α → State → Prop) : Prop := wpOr Fine x s Q

section Change

variable {s s' s'' : State} {lo : ℕ} {ip jp : Ino} {i₀ : ℕ} {P : Ino → Prop} {o o' : Ino → ℕ}

@[simp] theorem pin_self : pin o ip ip = o ip + 1 := update_self ..

theorem pin_of_ne (h : jp ≠ ip) : pin o ip jp = o jp := update_of_ne h _ _

theorem le_pin (ip jp : Ino) : o jp ≤ pin o ip jp := by
  by_cases h : jp = ip
  · rw [h, pin_self]
    omega
  · rw [pin_of_ne h]

theorem pin_comm (ip jp : Ino) : pin (pin o ip) jp = pin (pin o jp) ip := by
  by_cases h : ip = jp
  · rw [h]
  · unfold pin
    rw [update_of_ne (Ne.symm h), update_of_ne h, update_comm h]

theorem Held.congr {i t : ℕ} (h : Held s ip i t) (heq : s'.inode ip = s.inode ip) : Held s' ip i t :=
  ⟨heq ▸ h.ref, heq ▸ h.valid, heq ▸ h.lock, heq ▸ h.inum, heq ▸ h.type⟩

theorem Pins.le (h : Pins o' s) (ho : ∀ ip, o ip ≤ o' ip) : Pins o s := fun ip =>
  (Int.ofNat_le.mpr (ho ip)).trans (h ip)

theorem Pins.congr (h : Pins o s) (href : ∀ ip, (s'.inode ip).ref = (s.inode ip).ref) : Pins o s' :=
  fun ip => (h ip).trans_eq (href ip).symm

theorem Frame.refl (P : Ino → Prop) (o : Ino → ℕ) (s : State) : Frame P o s s :=
  ⟨rfl, fun _ _ _ _ h => h, fun _ _ => ⟨rfl, fun _ => rfl⟩⟩

theorem Frame.trans (h : Frame P o s s') (h' : Frame P o s' s'') : Frame P o s s'' where
  sb := h'.sb.trans h.sb
  held ip i t hP hh := h'.held ip i t hP (h.held ip i t hP hh)
  kept ip ho := by
    obtain ⟨hi, ht⟩ := h.kept ip ho
    obtain ⟨hi', ht'⟩ := h'.kept ip ho
    rw [hi, h.sb] at ht'
    refine ⟨hi'.trans hi, fun h0 => ?_⟩
    rw [ht' (by rwa [ht h0]), ht h0]

theorem Frame.mono {Q : Ino → Prop} (h : Frame P o s s') (hPQ : ∀ ip, P ip → Q ip)
    (ho : ∀ ip, o' ip ≤ o ip) : Frame Q o' s s' where
  sb := h.sb
  held ip i t hQ := h.held ip i t fun hP => hQ (hPQ ip hP)
  kept ip hpos := h.kept ip (hpos.trans_le (ho ip))

theorem Frame.all (h : Frame P o s s') (ho : ∀ ip, o' ip ≤ o ip) : Frame (fun _ => True) o' s s' :=
  h.mono (fun _ _ => trivial) ho

theorem Loaded.congr {ip' : Ino} (h : Loaded s ip) (hsb : s'.sb = s.sb)
    (hinum : (s'.inode ip').inum = (s.inode ip).inum)
    (htype : (s'.inode ip').type = (s.inode ip).type) (hnlink : (s'.inode ip').nlink = (s.inode ip).nlink)
    (hsize : (s'.inode ip').size = (s.inode ip).size)
    (haddrs : (s'.inode ip').addrs = (s.inode ip).addrs)
    (hdtype : dinodeType s.sb s'.disk (s.inode ip).inum = dinodeType s.sb s.disk (s.inode ip).inum)
    (hdnlink : dinodeNlink s.sb s'.disk (s.inode ip).inum = dinodeNlink s.sb s.disk (s.inode ip).inum)
    (hdsize : s'.fsize (s.inode ip).inum = s.fsize (s.inode ip).inum)
    (hdaddrs : ∀ k, k ≤ NDIRECT →
      dinodeAddrs s.sb s'.disk (s.inode ip).inum k = dinodeAddrs s.sb s.disk (s.inode ip).inum k) :
    Loaded s' ip' where
  live := by
    unfold Live
    rw [hinum, hsb, hdtype]
    exact h.live
  type := by rw [hinum, htype, hsb, hdtype, h.type]
  nlink := by rw [hinum, hnlink, hsb, hdnlink, h.nlink]
  size := by rw [hinum, hsize, hdsize, h.size]
  addrs k hk := by rw [hinum, haddrs, hsb, hdaddrs k hk, h.addrs k hk]

theorem Loaded.of_disk {ip' : Ino} (h : Loaded s ip) (hsb : s'.sb = s.sb) (hdisk : s'.disk = s.disk)
    (hinum : (s'.inode ip').inum = (s.inode ip).inum)
    (htype : (s'.inode ip').type = (s.inode ip).type) (hnlink : (s'.inode ip').nlink = (s.inode ip).nlink)
    (hsize : (s'.inode ip').size = (s.inode ip).size)
    (haddrs : (s'.inode ip').addrs = (s.inode ip).addrs) : Loaded s' ip' := by
  refine h.congr hsb hinum htype hnlink hsize haddrs (by rw [hdisk]) (by rw [hdisk]) ?_
    fun k _ => by rw [hdisk]
  unfold State.fsize
  rw [hsb, hdisk]

theorem directory_congr {d : ℕ} (hsize : s'.fsize d = s.fsize d) (hle : s.fsize d ≤ MAXFILE * BSIZE)
    (hcontent : ∀ p, p < MAXFILE * BSIZE → s'.content d p = s.content d p) :
    s'.directory d = s.directory d := by
  unfold State.directory
  rw [hsize]
  refine congrArg (Directory.mk _) (funext fun j => ?_)
  refine if_ctx_congr Iff.rfl (fun hj => List.map_congr_left fun k hk => hcontent _ ?_) fun _ => rfl
  have := List.mem_range.mp hk
  have hmul := Nat.mul_le_mul_left DIRENT (Nat.succ_le_of_lt hj)
  have := Nat.mul_div_le (s.fsize d) DIRENT
  rw [Nat.succ_eq_add_one, Nat.mul_add, Nat.mul_one] at hmul
  omega

/-- What a change of inode `i₀` leaves alone: the other inodes and their contents. -/
structure Others (i₀ : ℕ) (s s' : State) : Prop where
  sb : s'.sb = s.sb
  type : ∀ i, i < s.sb.ninodes → i ≠ i₀ → dinodeType s.sb s'.disk i = dinodeType s.sb s.disk i
  nlink : ∀ i, i < s.sb.ninodes → i ≠ i₀ → dinodeNlink s.sb s'.disk i = dinodeNlink s.sb s.disk i
  size : ∀ i, i < s.sb.ninodes → i ≠ i₀ → s'.fsize i = s.fsize i
  addrs : ∀ i, i < s.sb.ninodes → i ≠ i₀ → ∀ k, k ≤ NDIRECT →
    dinodeAddrs s.sb s'.disk i k = dinodeAddrs s.sb s.disk i k
  content : ∀ i, i < s.sb.ninodes → i ≠ i₀ → ∀ p, p < MAXFILE * BSIZE → s'.content i p = s.content i p

theorem Others.live (h : Others i₀ s s') {i : ℕ} (hi : i ≠ i₀) : Live s' i ↔ Live s i := by
  unfold Live
  rw [h.sb]
  exact and_congr_right fun hlt => by rw [h.type i hlt hi]

theorem Others.directory (h : Others i₀ s s') (hc : Consistent s lo) {d : ℕ} (hd : d ≠ i₀)
    (hl : Live s d) : s'.directory d = s.directory d :=
  directory_congr (h.size d hl.1 hd) (hc.size d hl) (h.content d hl.1 hd)

theorem Sane.change (h : Sane s lo) (hc : Consistent s' lo) (he : Exact s' lo) (ho : Others i₀ s s')
    (hdir : Live s' i₀ → dinodeType s'.sb s'.disk i₀ = T_DIR → DirOk s' i₀)
    (htab : ∀ ip, s'.inode ip = s.inode ip ∧
        (0 < (s.inode ip).ref → (s.inode ip).valid = true → (s.inode ip).inum ≠ i₀) ∨
      (s'.inode ip).inum = (s.inode ip).inum ∧ (s'.inode ip).dev = (s.inode ip).dev ∧
        (0 < (s'.inode ip).ref → 0 < (s.inode ip).ref) ∧
        (0 < (s'.inode ip).ref → (s'.inode ip).valid = true → Loaded s' ip)) : Sane s' lo := by
  have hsame : ∀ ip, (s'.inode ip).inum = (s.inode ip).inum ∧ (s'.inode ip).dev = (s.inode ip).dev ∧
      (0 < (s'.inode ip).ref → 0 < (s.inode ip).ref) := by
    intro ip
    obtain ⟨heq, -⟩ | ⟨h1, h2, h3, -⟩ := htab ip
    · rw [heq]
      exact ⟨rfl, rfl, fun h => h⟩
    · exact ⟨h1, h2, h3⟩
  constructor
  · exact hc
  · exact he
  · rw [ho.sb]
    exact h.root
  · intro d hl ht
    by_cases hd : d = i₀
    · rw [hd] at hl ht ⊢
      exact hdir hl ht
    · have hl' := (ho.live hd).mp hl
      rw [ho.sb, ho.type d hl'.1 hd] at ht
      obtain ⟨hmod, hent⟩ := h.dirs d hl' ht
      have hdirectory := ho.directory h.cons hd hl'
      refine ⟨by rwa [ho.size d hl'.1 hd], ?_⟩
      rw [hdirectory, ho.sb]
      exact hent
  · intro ip
    rw [(hsame ip).1, ho.sb]
    exact h.inum ip
  · intro ip hr
    rw [(hsame ip).2.1]
    exact h.dev ip ((hsame ip).2.2 hr)
  · intro ip ip' hr hr' heq
    rw [(hsame ip).1, (hsame ip').1] at heq
    exact h.inj ip ip' ((hsame ip).2.2 hr) ((hsame ip').2.2 hr') heq
  · intro ip hr hv
    obtain ⟨heq, hne⟩ | ⟨-, -, -, hl⟩ := htab ip
    · rw [heq] at hr hv
      have hi := hne hr hv
      have hlt := h.inum ip
      exact (h.loaded ip hr hv).congr ho.sb (by rw [heq]) (by rw [heq]) (by rw [heq]) (by rw [heq])
        (by rw [heq]) (ho.type _ hlt hi) (ho.nlink _ hlt hi) (ho.size _ hlt hi) (ho.addrs _ hlt hi)
    · exact hl hr hv

/-- `s` with another entry in the inode table. -/
def State.withEntry (s : State) (ip : Ino) (e : Inode) : State :=
  { s with inode := update s.inode ip e }

@[simp] theorem State.withEntry_sb (e : Inode) : (s.withEntry ip e).sb = s.sb := rfl

@[simp] theorem State.withEntry_disk (e : Inode) : (s.withEntry ip e).disk = s.disk := rfl

@[simp] theorem State.withEntry_self (e : Inode) : (s.withEntry ip e).inode ip = e :=
  update_self ..

theorem State.withEntry_of_ne (e : Inode) {jp : Ino} (h : jp ≠ ip) :
    (s.withEntry ip e).inode jp = s.inode jp := update_of_ne h _ _

theorem State.withEntry_withEntry (e e' : Inode) : (s.withEntry ip e).withEntry ip e' = s.withEntry ip e' := by
  unfold State.withEntry
  simp only [update_idem]

theorem Sane.setEntry (h : Sane s lo) {e : Inode} (hinum : e.inum < s.sb.ninodes)
    (hnew : 0 < e.ref → e.dev = ROOTDEV ∧
      (∀ jp, jp ≠ ip → 0 < (s.inode jp).ref → (s.inode jp).inum ≠ e.inum) ∧
      (e.valid = true → Loaded (s.withEntry ip e) ip)) : Sane (s.withEntry ip e) lo := by
  constructor
  · exact h.cons.of_disk rfl rfl
  · exact h.exact
  · exact h.root
  · exact h.dirs
  · intro jp
    have := h.inum jp
    simp only [State.withEntry, update_apply]
    grind
  · intro jp hr
    have := h.dev jp
    simp only [State.withEntry, update_apply] at hr ⊢
    grind
  · intro jp jp' hr hr' heq
    have := h.inj jp jp'
    simp only [State.withEntry, update_apply] at hr hr' heq
    grind
  · intro jp hr hv
    by_cases hj : jp = ip
    · rw [hj] at hr hv ⊢
      rw [State.withEntry_self] at hr hv
      exact (hnew hr).2.2 hv
    · have hin := State.withEntry_of_ne (s := s) e hj
      rw [hin] at hr hv
      exact (h.loaded jp hr hv).of_disk rfl rfl (by rw [hin]) (by rw [hin]) (by rw [hin]) (by rw [hin])
        (by rw [hin])

theorem Sane.retag (h : Sane s lo) (ip : Ino) (r : ℤ) (l : Bool) (hr : 0 < r → 0 < (s.inode ip).ref) :
    Sane (s.withEntry ip { s.inode ip with ref := r, lock := l }) lo := by
  refine h.setEntry (h.inum ip) fun hpos => ⟨h.dev ip (hr hpos), fun jp hj hjr heq => ?_, fun hv => ?_⟩
  · exact hj (h.inj jp ip hjr (hr hpos) heq)
  · exact (h.loaded ip (hr hpos) hv).of_disk rfl rfl (by simp) (by simp) (by simp) (by simp) (by simp)

theorem Frame.setEntry {e : Inode} (hinum : 0 < o ip → e.inum = (s.inode ip).inum)
    (h : ∀ i t, ¬ P ip → Held s ip i t → Held (s.withEntry ip e) ip i t) :
    Frame P o s (s.withEntry ip e) := by
  refine ⟨rfl, fun jp i t hP hh => ?_, fun jp ho => ⟨?_, fun _ => rfl⟩⟩
  · by_cases hj : jp = ip
    · subst hj
      exact h i t hP hh
    · exact hh.congr (State.withEntry_of_ne e hj)
  · by_cases hj : jp = ip
    · subst hj
      rw [State.withEntry_self]
      exact hinum ho
    · rw [State.withEntry_of_ne e hj]

theorem Pins.setEntry (h : Pins o s) {e : Inode} (hother : ∀ jp, jp ≠ ip → o' jp ≤ o jp)
    (hself : (o' ip : ℤ) ≤ e.ref) : Pins o' (s.withEntry ip e) := by
  intro jp
  by_cases hj : jp = ip
  · rw [hj, State.withEntry_self]
    exact hself
  · rw [State.withEntry_of_ne e hj]
    exact (Int.ofNat_le.mpr (hother jp hj)).trans (h jp)

end Change

/-! ## The inode table -/

section Table

variable {s s' : State} {lo : ℕ} {ip dp : Ino} {o : Ino → ℕ}

theorem setInode_eq (ip : Ino) (u : Inode → Inode) :
    setInode ip u = modify fun s => s.withEntry ip (u (s.inode ip)) := rfl

theorem iget_sane (h : Sane s lo) (hp : Pins o s) {k : ℕ} (hk : k < s.sb.ninodes) :
    safe (iget ROOTDEV k) s fun ip s' => Sane s' lo ∧ Pins (pin o ip) s' ∧
      Frame (fun _ => False) o s s' ∧ s'.disk = s.disk ∧ (s'.inode ip).inum = k := by
  unfold safe iget
  rw [wpOr_get_bind]
  cases hin : (List.finRange NINODE).find? fun ip =>
      (s.inode ip).ref > 0 ∧ (s.inode ip).dev = ROOTDEV ∧ (s.inode ip).inum = k with
  | some ip =>
    have hip := List.find?_some hin
    simp only [decide_eq_true_eq] at hip
    simp only [setInode_eq]
    rw [wpOr_modify_bind, wpOr_pure]
    refine ⟨h.retag ip _ _ fun _ => hip.1, hp.setEntry (fun jp hj => (pin_of_ne hj).le) ?_,
      .setEntry (fun _ => rfl) fun i t _ hh => ?_, rfl, by simpa using hip.2.2⟩
    · have := hp ip
      rw [pin_self]
      push_cast
      change (o ip : ℤ) + 1 ≤ (s.inode ip).ref + 1
      omega
    have hr := hh.ref
    exact ⟨by simp; omega, by simpa using hh.valid, by simpa using hh.lock, by simpa using hh.inum,
      by simpa using hh.type⟩
  | none =>
    simp only
    have hnone : ∀ jp, 0 < (s.inode jp).ref → (s.inode jp).inum ≠ k := by
      intro jp hr heq
      have := List.find?_eq_none.mp hin jp (List.mem_finRange jp)
      simp only [decide_eq_true_eq] at this
      exact this ⟨hr, h.dev jp hr, heq⟩
    cases hfree : (List.finRange NINODE).find? fun ip => (s.inode ip).ref = 0 with
    | some ip =>
      have hip := List.find?_some hfree
      simp only [decide_eq_true_eq] at hip
      simp only [setInode_eq]
      rw [wpOr_modify_bind, wpOr_pure]
      have ho := hp ip
      refine ⟨h.setEntry hk fun _ => ⟨rfl, fun jp _ hr => hnone jp hr, fun hv => by cases hv⟩,
        hp.setEntry (fun jp hj => (pin_of_ne hj).le) ?_, .setEntry (fun hpos => by omega) fun i t _ hh => ?_,
        rfl, by simp⟩
      · rw [pin_self]
        change ((o ip + 1 : ℕ) : ℤ) ≤ 1
        omega
      · have := hh.ref
        omega
    | none =>
      simp only
      rw [wpOr_throw]
      exact ⟨by decide, by decide⟩

theorem idup_sane (h : Sane s lo) (hp : Pins o s) (ho : 0 < o ip) :
    safe (idup ip) s fun r s' => r = ip ∧ Sane s' lo ∧ Pins (pin o ip) s' ∧
      Frame (fun _ => False) o s s' ∧ s'.disk = s.disk := by
  have hpin := hp ip
  have hr : 0 < (s.inode ip).ref := by omega
  unfold safe idup
  rw [setInode_eq, wpOr_modify_bind, wpOr_pure]
  refine ⟨rfl, h.retag ip _ _ fun _ => hr, hp.setEntry (fun jp hj => (pin_of_ne hj).le) ?_,
    .setEntry (fun _ => rfl) fun i t _ hh => ?_, rfl⟩
  · rw [pin_self]
    change ((o ip + 1 : ℕ) : ℤ) ≤ (s.inode ip).ref + 1
    omega
  exact ⟨by simp; omega, by simpa using hh.valid, by simpa using hh.lock, by simpa using hh.inum,
    by simpa using hh.type⟩

theorem ilock_sane (h : Sane s lo) (hp : Pins o s) : safe (ilock ip) s fun _ s' => Sane s' lo ∧
    Pins o s' ∧ Frame (fun _ => False) o s s' ∧ s'.disk = s.disk ∧ (s.inode ip).lock = false ∧
      Held s' ip (s.inode ip).inum (dinodeType s.sb s.disk (s.inode ip).inum) := by
  unfold safe ilock acquiresleep
  rw [wpOr_get_bind]
  refine .ite (fun _ => wpOr_throw.mpr ⟨by decide, by decide⟩) fun href => ?_
  have hr : 0 < (s.inode ip).ref := by omega
  rw [bind_assoc, wpOr_get_bind]
  by_cases hlock : (s.inode ip).lock = true
  · rw [if_pos hlock]
    exact wpOr_throw.mpr ⟨by decide, by decide⟩
  rw [if_neg hlock, setInode_eq, wpOr_modify_bind, wpOr_get_bind]
  have hlock' : (s.inode ip).lock = false := by simpa using hlock
  -- No locked entry is `ip`.
  have hframe : ∀ e : Inode, e.inum = (s.inode ip).inum → Frame (fun _ => False) o s (s.withEntry ip e) := by
    refine fun e he => .setEntry (fun _ => he) fun i t _ hh => ?_
    rw [hh.lock] at hlock'
    cases hlock'
  by_cases hv : (s.inode ip).valid = true
  · rw [if_neg (by simpa using hv), wpOr_pure]
    have hl := h.loaded ip hr hv
    refine ⟨h.retag ip (s.inode ip).ref true fun h => h, hp.setEntry (fun _ _ => le_rfl) (hp ip), hframe _ rfl,
      rfl, hlock', ?_⟩
    exact ⟨by simpa using hr, by simpa using hv, by simp, by simp, by simpa using hl.type⟩
  · rw [if_pos (by simpa using hv)]
    unfold bread
    rw [bind_assoc, wpOr_get_bind, pure_bind, setInode_eq, wpOr_modify_bind, wpOr_get_bind,
      State.withEntry_withEntry]
    simp only [State.withEntry_self, State.withEntry_sb, State.withEntry_disk]
    refine .ite (fun _ => wpOr_throw.mpr ⟨by decide, by decide⟩) fun hne => (wpOr_pure _).mpr ?_
    have hlive : Live s (s.inode ip).inum := ⟨h.inum ip, hne⟩
    refine ⟨h.setEntry (h.inum ip) fun _ => ⟨h.dev ip hr, fun jp hj hjr heq => ?_, fun _ => ?_⟩,
      hp.setEntry (fun _ _ => le_rfl) (hp ip), hframe _ rfl, rfl, hlock', ?_⟩
    · exact hj (h.inj jp ip hjr hr heq)
    · constructor
      · rw [State.withEntry_self]
        exact hlive
      · rw [State.withEntry_self]
        rfl
      · rw [State.withEntry_self]
        rfl
      · rw [State.withEntry_self]
        rfl
      · intro k _
        rw [State.withEntry_self]
        unfold dinodeAddrs dinodeField
        rw [← Nat.add_assoc]
        rfl
    · exact ⟨by simpa [getDinode] using hr, by simp, by simp [getDinode], by simp [getDinode], by simp; rfl⟩

theorem iunlock_sane (h : Sane s lo) (hp : Pins o s) : safe (iunlock ip) s fun _ s' => Sane s' lo ∧
    Pins o s' ∧ Frame (· = ip) o s s' ∧ s'.disk = s.disk ∧ s'.inode = update s.inode ip
      { s.inode ip with lock := false } := by
  unfold safe iunlock releasesleep
  rw [wpOr_get_bind]
  refine .ite (fun _ => wpOr_throw.mpr ⟨by decide, by decide⟩) fun href => ?_
  rw [setInode_eq]
  refine (wpOr_modify _).mpr ⟨h.retag ip (s.inode ip).ref false fun h => h,
    hp.setEntry (fun _ _ => le_rfl) (hp ip), ?_, rfl, rfl⟩
  exact .setEntry (fun _ => rfl) fun i t hP _ => absurd rfl hP

end Table

/-! ## Inodes on disk -/

section OnDisk

variable {s s' : State} {lo : ℕ} {ip dp : Ino} {o : Ino → ℕ}

theorem Consistent.of_table (h : Consistent s lo) (hsb : s'.sb = s.sb)
    (hdata : ∀ b, s.sb.bmapstart ≤ b → s'.disk b = s.disk b)
    (haddrs : ∀ i k, k ≤ NDIRECT → s'.diskAddrs i k = s.diskAddrs i k)
    (hsize : ∀ i, Live s' i → Live s i ∧ s'.fsize i = s.fsize i ∨ s'.fsize i = 0) :
    Consistent s' lo ∧ (Exact s lo → Exact s' lo) ∧
      ∀ i p, p < MAXFILE * BSIZE → s'.content i p = s.content i p := by
  have hlo := h.geom.bmapstart_lt h.pos
  have hptr : ∀ i k, ptr s'.diskAddrs s'.disk i k = ptr s.diskAddrs s.disk i k := by
    intro i k
    refine ptr_congr (haddrs i) (fun hne => hdata _ ?_) k
    rw [← ptr_of_le (A := s.diskAddrs) (d := s.disk) (i := i) le_rfl] at hne ⊢
    have := (h.owns.range i NDIRECT ndirect_lt hne).1
    omega
  have hbits : ∀ b, marked s'.sb s'.disk b = marked s.sb s.disk b := by
    intro b
    unfold marked
    rw [hsb, hdata]
    exact Nat.le_add_left _ _
  refine ⟨?_, ?_, ?_⟩
  · constructor
    · rw [hsb]
      exact h.geom
    · exact h.pos
    · rw [hsb]
      exact h.owns.of_ptr_eq fun i k _ => hptr i k
    · intro b hb
      rw [hbits]
      exact h.low b hb
    · intro i k hk hne
      rw [hptr] at hne ⊢
      rw [hbits]
      exact h.stored i k hk hne
    · intro i hi
      obtain ⟨hl, heq⟩ | heq := hsize i hi
      · rw [heq]
        exact h.size i hl
      · rw [heq]
        exact Nat.zero_le _
    · intro i hi bn hbn
      obtain ⟨hl, heq⟩ | heq := hsize i hi
      · rw [heq] at hbn
        rw [hptr]
        exact h.blocks i hl bn hbn
      · rw [heq] at hbn
        omega
  · intro he b hb hlt hm
    rw [hsb] at hlt
    rw [hbits] at hm
    simp only [hptr]
    exact he b hb hlt hm
  · intro i p hp
    unfold State.content byteAt blockData
    rw [hptr]
    refine congrArg (fun b : Block => b.get _) (if_ctx_congr Iff.rfl (fun _ => rfl) fun h0 => hdata _ ?_)
    have hbn : p / BSIZE < MAXFILE := Nat.div_lt_of_lt_mul (by rwa [Nat.mul_comm])
    have := (h.owns.range i _ (slotOf_lt hbn) h0).1
    omega

theorem diskAddrs_congr {i k : ℕ} (hsb : s'.sb = s.sb)
    (htype : dinodeType s.sb s'.disk i = dinodeType s.sb s.disk i)
    (haddrs : dinodeAddrs s.sb s'.disk i k = dinodeAddrs s.sb s.disk i k) :
    s'.diskAddrs i k = s.diskAddrs i k := by
  have hlive : Live s' i ↔ Live s i := by
    unfold Live
    rw [hsb, htype]
  unfold State.diskAddrs
  by_cases hl : Live s i
  · rw [if_pos (hlive.mpr hl), if_pos hl, hsb]
    exact haddrs
  · rw [if_neg (mt hlive.mp hl), if_neg hl]

theorem Sane.table (h : Sane s lo) (i₀ : ℕ) (hsb : s'.sb = s.sb)
    (hdata : ∀ b, s.sb.bmapstart ≤ b → s'.disk b = s.disk b)
    (hfield : ∀ i o w, i ≠ i₀ → o + w ≤ 64 → dinodeField s.sb s'.disk i o w = dinodeField s.sb s.disk i o w)
    (haddrs : ∀ k, k ≤ NDIRECT → s'.diskAddrs i₀ k = s.diskAddrs i₀ k)
    (hsize : Live s' i₀ → Live s i₀ ∧ s'.fsize i₀ = s.fsize i₀ ∨ s'.fsize i₀ = 0) :
    Consistent s' lo ∧ Exact s' lo ∧ Others i₀ s s' ∧
      ∀ p, p < MAXFILE * BSIZE → s'.content i₀ p = s.content i₀ p := by
  have htype : ∀ i, i ≠ i₀ → dinodeType s.sb s'.disk i = dinodeType s.sb s.disk i :=
    fun i hi => hfield i 0 2 hi (by omega)
  have hfaddrs : ∀ i, i ≠ i₀ → ∀ k, k ≤ NDIRECT →
      dinodeAddrs s.sb s'.disk i k = dinodeAddrs s.sb s.disk i k := by
    intro i hi k hk
    exact hfield i (12 + 4 * k) 4 hi (by unfold NDIRECT at hk; omega)
  have hfsize : ∀ i, i ≠ i₀ → s'.fsize i = s.fsize i := by
    intro i hi
    unfold State.fsize
    rw [hsb]
    exact hfield i 8 4 hi (by omega)
  obtain ⟨hc, he, hcontent⟩ := h.cons.of_table hsb hdata
    (fun i k hk => by
      by_cases hi : i = i₀
      · rw [hi]
        exact haddrs k hk
      · exact diskAddrs_congr hsb (htype i hi) (hfaddrs i hi k hk))
    (fun i hi => by
      by_cases hne : i = i₀
      · rw [hne] at hi ⊢
        exact hsize hi
      · refine .inl ⟨?_, hfsize i hne⟩
        unfold Live at hi ⊢
        rwa [hsb, htype i hne] at hi)
  exact ⟨hc, he h.exact, ⟨hsb, fun i _ => htype i, fun i _ hi => hfield i 6 2 hi (by omega),
    fun i _ => hfsize i, fun i _ => hfaddrs i, fun i _ _ => hcontent i⟩, hcontent i₀⟩

/-- The file of `ip` has another size, other addresses and other bytes. -/
structure Modified (ip : Ino) (s s' : State) : Prop where
  sb : s'.sb = s.sb
  inode : ∃ sz a, s'.inode = update s.inode ip { s.inode ip with size := sz, addrs := a }
  type : ∀ i, i < s.sb.ninodes → dinodeType s.sb s'.disk i = dinodeType s.sb s.disk i
  nlink : ∀ i, i < s.sb.ninodes → dinodeNlink s.sb s'.disk i = dinodeNlink s.sb s.disk i
  others : ∀ i, i < s.sb.ninodes → i ≠ (s.inode ip).inum → s'.fsize i = s.fsize i ∧
    (∀ k, k ≤ NDIRECT → dinodeAddrs s.sb s'.disk i k = dinodeAddrs s.sb s.disk i k) ∧
    ∀ p, p < MAXFILE * BSIZE → s'.content i p = s.content i p

theorem Written.modified {src : ℕ → UInt8} {off tot : ℕ} (h : Written ip src off tot s s') :
    Modified ip s s' := ⟨h.sb, ⟨_, _, h.inode⟩, h.type, h.nlink, h.others⟩

theorem Truncated.modified (h : Truncated ip lo s s') : Modified ip s s' :=
  ⟨h.sb, ⟨_, _, h.inode⟩, h.type, h.nlink, h.others⟩

theorem Modified.entry (h : Modified ip s s') (jp : Ino) :
    (s'.inode jp).ref = (s.inode jp).ref ∧ (s'.inode jp).valid = (s.inode jp).valid ∧
      (s'.inode jp).lock = (s.inode jp).lock ∧ (s'.inode jp).inum = (s.inode jp).inum ∧
      (s'.inode jp).type = (s.inode jp).type ∧ (s'.inode jp).dev = (s.inode jp).dev := by
  obtain ⟨sz, a, hin⟩ := h.inode
  rw [hin]
  by_cases hj : jp = ip
  · rw [hj, update_self]
    exact ⟨rfl, rfl, rfl, rfl, rfl, rfl⟩
  · rw [update_of_ne hj]
    exact ⟨rfl, rfl, rfl, rfl, rfl, rfl⟩

theorem Modified.frame (h : Modified ip s s') (hs : Sane s lo) (P : Ino → Prop) : Frame P o s s' where
  sb := h.sb
  held jp i t _ hh := by
    obtain ⟨hr, hv, hlock, hi, ht, -⟩ := h.entry jp
    exact ⟨hr ▸ hh.ref, hv ▸ hh.valid, hlock ▸ hh.lock, hi ▸ hh.inum, ht ▸ hh.type⟩
  kept jp _ := ⟨(h.entry jp).2.2.2.1, fun _ => h.type _ (hs.inum jp)⟩

theorem Modified.pins (h : Modified ip s s') (hp : Pins o s) : Pins o s' := hp.congr fun jp => (h.entry jp).1

theorem Sane.modify (h : Sane s lo) (hr : 0 < (s.inode ip).ref) (hm : Modified ip s s')
    (hc : Consistent s' lo) (hl : Loaded s' ip) (he : Exact s' lo)
    (hdir : dinodeType s.sb s.disk (s.inode ip).inum = T_DIR → DirOk s' (s.inode ip).inum) : Sane s' lo := by
  have ho : Others (s.inode ip).inum s s' := ⟨hm.sb, fun i hi _ => hm.type i hi, fun i hi _ => hm.nlink i hi,
    fun i hi hne => (hm.others i hi hne).1, fun i hi hne => (hm.others i hi hne).2.1,
    fun i hi hne => (hm.others i hi hne).2.2⟩
  refine h.change hc he ho (fun _ ht => hdir ?_) fun jp => ?_
  · rwa [hm.sb, hm.type _ (h.inum ip)] at ht
  · by_cases hj : jp = ip
    · obtain ⟨hr', -, -, hi, -, hd⟩ := hm.entry jp
      rw [hj] at hi hd ⊢
      exact .inr ⟨hi, hd, fun _ => hr, fun _ _ => hl⟩
    · obtain ⟨sz, a, hin⟩ := hm.inode
      refine .inl ⟨by rw [hin, update_of_ne hj], fun hr' _ heq => hj (h.inj jp ip hr' hr heq)⟩

theorem DirOk.of_empty {d : ℕ} (h : s.fsize d = 0) : DirOk s d := by
  unfold DirOk State.directory
  rw [h, Nat.zero_div]
  exact ⟨rfl, fun j hj => absurd hj (Nat.not_lt_zero j)⟩

theorem Sane.iblock_lt (h : Sane s lo) (ip : Ino) : s.sb.iblock (s.inode ip).inum < s.sb.bmapstart :=
  h.cons.geom.inodes _ (h.inum ip)

theorem itrunc_sane (h : Sane s lo) (hr : 0 < (s.inode ip).ref) (hv : (s.inode ip).valid = true) :
    wp (itrunc ip) s fun _ s' => Sane s' lo ∧ Truncated ip lo s s' := by
  refine (itrunc_spec h.cons (h.loaded ip hr hv)).mono fun _ t ht => ⟨?_, ht⟩
  exact h.modify hr ht.modified ht.cons ht.loaded (ht.exact h.exact) fun _ => .of_empty ht.size

theorem Sane.free {e : Inode} (h : Sane s lo) (hl : Loaded s ip) (hr : 0 < (s.inode ip).ref)
    (hzero : ∀ k, k ≤ NDIRECT → (s.inode ip).addrs k = 0) (hsb : s'.sb = s.sb)
    (hdisk : s'.disk = setDinode s.sb s.disk (s.inode ip).inum { s.inode ip with type := 0 })
    (hin : s'.inode = update s.inode ip e) (hinum : e.inum = (s.inode ip).inum)
    (hdev : e.dev = (s.inode ip).dev) (hvalid : e.valid = false) :
    Sane s' lo ∧ Others (s.inode ip).inum s s' := by
  have htype : dinodeType s.sb s'.disk (s.inode ip).inum = 0 := by
    rw [hdisk, dinodeType_setDinode, if_pos rfl]
    rfl
  have hdead : ¬ Live s' (s.inode ip).inum := fun hlive => hlive.2 (by rw [hsb, htype])
  obtain ⟨hc, he, ho, -⟩ := h.table (s.inode ip).inum hsb
    (fun b hb => by
      have := h.iblock_lt ip
      rw [hdisk]
      exact update_of_ne (by omega) _ _)
    (fun i o w hi how => by rw [hdisk, dinodeField_setDinode_of_ne hi how])
    (fun k hk => by
      unfold State.diskAddrs
      rw [if_neg hdead, if_pos hl.live, ← hl.addrs k hk, hzero k hk])
    (fun hlive => absurd hlive hdead)
  refine ⟨h.change hc he ho (fun hlive => absurd hlive hdead) fun jp => ?_, ho⟩
  by_cases hj : jp = ip
  · rw [hin, hj, update_self]
    exact .inr ⟨hinum, hdev, fun _ => hr, fun _ hv => by rw [hvalid] at hv; cases hv⟩
  · exact .inl ⟨by rw [hin, update_of_ne hj], fun hr' _ heq => hj (h.inj jp ip hr' hr heq)⟩

theorem iput_sane (h : Sane s lo) (hp : Pins (pin o ip) s) : safe (iput ip) s fun _ s' => Sane s' lo ∧
    Pins o s' ∧ Frame (· = ip) o s s' := by
  have hpin := hp ip
  rw [pin_self] at hpin
  have hr : 0 < (s.inode ip).ref := by omega
  unfold safe iput
  rw [wpOr_get_bind]
  by_cases hlast : (s.inode ip).ref = 1 ∧ (s.inode ip).valid = true ∧ (s.inode ip).nlink = 0
  swap
  · rw [if_neg hlast, setInode_eq, wpOr_modify]
    refine ⟨h.retag ip _ _ fun _ => hr, hp.setEntry (fun jp hj => (pin_of_ne hj).ge) ?_,
      .setEntry (fun _ => rfl) fun i t hP _ => absurd rfl hP⟩
    change (o ip : ℤ) ≤ (s.inode ip).ref - 1
    omega
  -- The last reference to an inode without a name: it is freed.
  have ho : o ip = 0 := by omega
  rw [if_pos hlast]
  unfold acquiresleep
  rw [bind_assoc, wpOr_get_bind]
  by_cases hlock : (s.inode ip).lock = true
  · rw [if_pos hlock]
    exact wpOr_throw.mpr ⟨by decide, by decide⟩
  rw [if_neg hlock, setInode_eq, wpOr_modify_bind]
  have hs1 := h.retag ip (s.inode ip).ref true fun h => h
  refine (itrunc_sane hs1 (by simpa using hr) (by simpa using hlast.2.1)).bindOr ?_
  rintro _ t ⟨hs2, ht⟩
  have hself := ht.modified.entry ip
  rw [State.withEntry_self] at hself
  unfold iupdate bread releasesleep logWrite
  simp only [setInode_eq, bind_assoc, pure_bind]
  rw [wpOr_modify_bind, wpOr_get_bind, wpOr_get_bind, wpOr_modify_bind, wpOr_modify_bind,
    wpOr_modify_bind, wpOr_modify]
  generalize hs' : State.withEntry _ ip _ = s'
  have hsb : s'.sb = t.sb := by rw [← hs']; rfl
  have hdisk : s'.disk = setDinode t.sb t.disk (t.inode ip).inum { t.inode ip with type := 0 } := by
    rw [← hs']
    simp only [State.withEntry_disk, State.withEntry_self, State.withEntry_sb]
    rfl
  have hin : s'.inode = update t.inode ip
      { t.inode ip with type := 0, valid := false, lock := false, ref := (t.inode ip).ref - 1 } := by
    rw [← hs']
    unfold State.withEntry
    simp only [update_self, update_idem]
  obtain ⟨hs3, hothers⟩ := hs2.free ht.loaded (by rw [hself.1]; exact hr) ht.addrs hsb hdisk hin rfl rfl rfl
  have hentry : ∀ jp, jp ≠ ip → (s'.inode jp) = s.inode jp := by
    intro jp hj
    obtain ⟨sz, a, htin⟩ := ht.modified.inode
    rw [hin, update_of_ne hj, htin, update_of_ne hj, State.withEntry_of_ne _ hj]
  refine ⟨hs3, fun jp => ?_, ?_, fun jp i ty hP hh => ?_, fun jp hpos => ?_⟩
  · by_cases hj : jp = ip
    · rw [hj, ho, hin, update_self]
      change (0 : ℤ) ≤ (t.inode ip).ref - 1
      rw [hself.1]
      change (0 : ℤ) ≤ (s.inode ip).ref - 1
      omega
    · rw [hentry jp hj]
      have := hp jp
      rwa [pin_of_ne hj] at this
  · rw [hsb, ht.sb]
    rfl
  · exact hh.congr (hentry jp hP)
  · have hj : jp ≠ ip := by
      rintro rfl
      omega
    rw [hentry jp hj]
    refine ⟨rfl, fun _ => ?_⟩
    have hjr := hp jp
    rw [pin_of_ne hj] at hjr
    have hne : (s.inode jp).inum ≠ (t.inode ip).inum := by
      rw [hself.2.2.2.1]
      exact fun heq => hj (h.inj jp ip (by omega) hr heq)
    have h1 := hothers.type _ (by rw [ht.sb]; exact h.inum jp) hne
    have h2 := ht.type _ (h.inum jp)
    rw [ht.sb] at h1
    exact h1.trans h2

theorem iunlockput_sane (h : Sane s lo) (hp : Pins (pin o ip) s) : safe (iunlockput ip) s fun _ s' =>
    Sane s' lo ∧ Pins o s' ∧ Frame (· = ip) o s s' := by
  unfold safe iunlockput
  refine (iunlock_sane h hp).bind ?_
  rintro _ t ⟨ht, hpt, hft, -⟩
  refine (iput_sane ht hpt).mono ?_
  rintro _ u ⟨hu, hpu, hfu⟩
  exact ⟨hu, hpu, (hft.mono (fun _ h => h) (le_pin ip)).trans hfu⟩

end OnDisk

end Xv6.Fs
