import Xv6.Files.Inv
import Xv6.Lib.Run

/-!
# The reference counts between system calls

Every system call keeps the references right, so that they are right in every state that a sequence
of system calls leads to. `Busy w p L x y` is the invariant inside a system call of process `p`, which
holds the inode locks `L` and the references `x` and `y`.
-/

namespace Xv6.Files

open Function Lib
open Fs (Ino F)

/-- The state inside a system call of process `p`. -/
structure Busy (w : World) (p : Pid) (L : Finset Ino) (x : Fid → ℤ) (y : Ino → ℤ) : Prop where
  inv : Inv w x y
  locked : w.fs.locked = L
  tidy : ∀ q, Tidy (w.proc q)
  live : (w.proc p).life = .live

/-- The state between system calls. -/
structure Good (w : World) : Prop where
  inv : Inv w 0 0
  unlocked : w.fs.locked = ∅
  tidy : ∀ q, Tidy (w.proc q)

section Rules

variable {α : Type} {w : World} {p : Pid} {L : Finset Ino} {x : Fid → ℤ} {y : Ino → ℤ}

theorem Good.busy (h : Good w) (hp : (w.proc p).life = .live) : Busy w p ∅ 0 0 :=
  ⟨h.inv, h.unlocked, h.tidy, hp⟩

theorem Busy.good (h : Busy w p ∅ 0 0) : Good w := ⟨h.inv, h.locked, h.tidy⟩

theorem tidy_withProc (h : ∀ q, Tidy (w.proc q)) {pr : Proc} (hpr : Tidy pr) (q : Pid) :
    Tidy ((w.withProc p pr).proc q) := by
  by_cases hq : q = p
  · subst hq
    simpa [World.withProc] using hpr
  · simpa [World.withProc, hq] using h q

theorem Busy.withFd (h : Busy w p L x y) {x' : Fid → ℤ} {fd : Fd} {o : Option Fid}
    (hinv : Inv (w.withProc p ((w.proc p).withFd fd o)) x' y) :
    Busy (w.withProc p ((w.proc p).withFd fd o)) p L x' y := by
  have htidy : Tidy ((w.proc p).withFd fd o) :=
    ⟨(h.tidy p).live, fun hother => absurd h.live hother⟩
  refine ⟨hinv, h.locked, tidy_withProc h.tidy htidy, ?_⟩
  simpa [World.withProc, Proc.withFd] using h.live

theorem Busy.clearFd (h : Busy w p L x y) (fd : Fd) {f : Fid} (hf : (w.proc p).ofile fd = some f) :
    post (setFd p fd none) w fun _ w' =>
      w' = w.withProc p ((w.proc p).withFd fd none) ∧ Busy w' p L (x + Pi.single f 1) y := by
  refine (h.inv.setFd (x + Pi.single f 1) fd none fun e => ?_).mono fun _ w' ⟨hw, hinv⟩ => ?_
  · rw [hf]
    rw [pointsTo_some]
    simp
  · subst hw
    exact ⟨rfl, h.withFd hinv⟩

theorem Busy.fdalloc (h : Busy w p L x y) (f : Fid) : post (fdalloc p f) w fun o w' =>
    o = none ∧ w' = w ∨ ∃ fd, o = some fd ∧ (w.proc p).ofile fd = none ∧
      w' = w.withProc p ((w.proc p).withFd fd (some f)) ∧ Busy w' p L (x - Pi.single f 1) y := by
  refine (fdalloc_spec h.inv p f).mono ?_
  rintro o w' (⟨ho, hw⟩ | ⟨fd, ho, hfree, rfl, hinv⟩)
  · exact .inl ⟨ho, hw⟩
  · exact .inr ⟨fd, ho, hfree, rfl, h.withFd hinv⟩

theorem Busy.filealloc (h : Busy w p L x y) : post filealloc w fun o w' =>
    o = none ∧ w' = w ∨ ∃ f, o = some f ∧ (w.file f).ref = 0 ∧ w' = w.taken f ∧
      Busy w' p L (x + Pi.single f 1) y := by
  refine (filealloc_spec h.inv).mono ?_
  rintro o w' (hnone | ⟨f, ho, hzero, rfl, hinv⟩)
  · exact .inl hnone
  · exact .inr ⟨f, ho, hzero, rfl, hinv, h.locked, h.tidy, h.live⟩

theorem Busy.close (h : Busy w p L x y) {f : Fid} (hf : 0 < (tally w.slot f : ℤ) + x f) :
    post (fileclose f) w fun _ w' => w'.proc = w.proc ∧ Busy w' p L (x - Pi.single f 1) y := by
  refine (fileclose_spec h.inv f hf).mono fun _ w' ⟨hp, hl, hinv⟩ => ⟨hp, hinv, ?_, ?_, ?_⟩
  · rw [hl, h.locked]
  · rw [hp]
    exact h.tidy
  · rw [hp]
    exact h.live

theorem Busy.closeOwn {f : Fid} (h : Busy w p L (x + Pi.single f 1) y) (hx : 0 ≤ x f) :
    post (fileclose f) w fun _ w' => w'.proc = w.proc ∧ Busy w' p L x y := by
  have hf : 0 < (tally w.slot f : ℤ) + (x + Pi.single f 1 : Fid → ℤ) f := by
    rw [Pi.add_apply, Pi.single_eq_same]
    omega
  refine (h.close hf).mono fun _ w' ⟨hp, hw⟩ => ⟨hp, ?_⟩
  rwa [add_sub_cancel_right] at hw

theorem Busy.runFs (h : Busy w p L x y) {c : F α} {e : α → Ino → ℤ × ℤ} (hc : Fs.Effect c e)
    (L' : α → Finset Ino) (y' : α → Ino → ℤ)
    (he : ∀ a j, (e a j).1 = y' a j - y j ∧
      (e a j).2 = (if j ∈ L' a then 1 else 0) - if j ∈ L then 1 else 0) :
    post (fs c) w fun a w' =>
      w'.proc = w.proc ∧ w'.file = w.file ∧ Busy w' p (L' a) x (y' a) := by
  refine (post_fs (hc w.fs)).mono ?_
  rintro a w' ⟨s, rfl, hs⟩
  obtain ⟨hr, hl⟩ := Fs.State.of_held hs (y := y' a - y) fun j => h.locked ▸ he a j
  have hi := h.inv
  refine ⟨rfl, rfl, ⟨hi.refs, hi.unused, hi.modes, hi.ends, hi.alive, hi.freed, fun j => ?_⟩, hl,
    h.tidy, h.live⟩
  have := hi.inodes j
  change s.ref j = tally w.opened j + tally w.cwd j + y' a j
  rw [hr, Pi.add_apply, Pi.sub_apply]
  omega

theorem Busy.keeps (h : Busy w p L x y) {c : F α} (hc : Fs.Keeps c) :
    post (fs c) w fun _ w' => w'.proc = w.proc ∧ w'.file = w.file ∧ Busy w' p L x y :=
  h.runFs hc.effect (fun _ => L) (fun _ => y) fun _ j => by simp

theorem Inv.setProc (h : Inv w x y) {y' : Ino → ℤ} (pr : Proc)
    (hfd : pr.ofile = (w.proc p).ofile)
    (hy : ∀ e, y' e + pointsTo pr.cwd e = y e + pointsTo (w.proc p).cwd e) :
    Inv (w.withProc p pr) x y' := by
  have hslot : (w.withProc p pr).slot = w.slot := by
    funext ⟨q, fd⟩
    by_cases hq : q = p
    · subst hq
      simp [World.slot, World.withProc, hfd]
    · simp [World.slot, World.withProc, hq]
  refine ⟨fun f => ?_, h.unused, h.modes, h.ends, h.alive, h.freed, fun e => ?_⟩
  · rw [hslot]
    exact h.refs f
  · have htally := tally_update w.cwd p pr.cwd e
    have hrefs := h.inodes e
    have := hy e
    rw [cwd_withProc]
    change w.fs.ref e = tally w.opened e + _ + _
    change tally _ _ + pointsTo (w.proc p).cwd e = _ at htally
    omega

theorem Busy.getCwd (h : Busy w p L x y) :
    post (getCwd p) w fun ip w' => (w.proc p).cwd = some ip ∧ w' = w := by
  obtain ⟨ip, hip⟩ := Option.ne_none_iff_exists'.mp ((h.tidy p).live h.live)
  exact (getCwd_spec hip).mono fun r _ ⟨hr, hw⟩ => ⟨hr ▸ hip, hw⟩

end Rules

/-! ## Descriptors -/

section Descriptors

variable {w : World} {p : Pid}

/-- `sys_dup` keeps the invariant. -/
theorem sysDup_spec (h : Good w) (hp : (w.proc p).life = .live) (fd : ℤ) :
    post (sysDup p fd) w fun _ w' => Good w' := by
  have hb := h.busy hp
  refine (argfd_spec p fd).bind ?_
  rintro o w1 ⟨rfl, hfile⟩
  rcases o with _ | ⟨fd0, f⟩
  · exact (wpOr_pure _).mpr h
  have hf : (w1.proc p).ofile fd0 = some f := hfile _ rfl
  have hpos : 0 < tally w1.slot f := tally_pos (i := (p, fd0)) hf
  refine (hb.fdalloc f).bind ?_
  rintro o w2 (⟨rfl, rfl⟩ | ⟨fd', rfl, -, rfl, hb2⟩)
  · exact (wpOr_pure _).mpr h
  -- The count lags behind by the new descriptor.
  have hrefs := h.inv.refs f
  have hrefs2 := hb2.inv.refs f
  have hsame : ((w1.withProc p ((w1.proc p).withFd fd' (some f))).file f).ref = (w1.file f).ref := rfl
  have hf2 : 0 < (tally (w1.withProc p ((w1.proc p).withFd fd' (some f))).slot f : ℤ) +
      (0 - Pi.single f 1 : Fid → ℤ) f := by
    rw [Pi.zero_apply] at hrefs
    omega
  refine (filedup_spec hb2.inv f hf2).bind fun _ w3 ⟨hp3, hfs3, _, h3⟩ => (wpOr_pure _).mpr ?_
  rw [sub_add_cancel] at h3
  refine ⟨h3, ?_, ?_⟩
  · rw [hfs3]
    exact hb2.locked
  · rw [hp3]
    exact hb2.tidy

/-- `sys_close` keeps the invariant. -/
theorem sysClose_spec (h : Good w) (hp : (w.proc p).life = .live) (fd : ℤ) :
    post (sysClose p fd) w fun _ w' => Good w' := by
  have hb := h.busy hp
  refine (argfd_spec p fd).bind ?_
  rintro o w1 ⟨rfl, hfile⟩
  rcases o with _ | ⟨fd0, f⟩
  · exact (wpOr_pure _).mpr h
  refine (hb.clearFd fd0 (hfile _ rfl)).bind fun _ w2 ⟨_, hb2⟩ => ?_
  exact (hb2.closeOwn le_rfl).bind fun _ w3 ⟨_, hb3⟩ => (wpOr_pure _).mpr hb3.good

end Descriptors

/-! ## Opening -/

section Open

variable {w : World} {p : Pid} {s : Fs.State} {ip : Ino}

/-- The inode that `sys_open` has found is referenced and locked. -/
theorem openInode_spec (cwd : Ino) (path : List UInt8) (omode : ℕ) :
    Fs.Effect (openInode cwd path omode) fun o => o.elim 0 fun ip => Fs.refOf ip + Fs.lockOf ip := by
  have hexisting : Fs.Effect (openExisting cwd path omode) fun o =>
      o.elim 0 fun ip => Fs.refOf ip + Fs.lockOf ip := by
    refine (Fs.namei_spec cwd path).bind fun o => ?_
    cases o with
    | none => exact .pure (sub_self _)
    | some ip =>
      refine (Fs.ilock_spec ip).bind fun _ => .get_bind fun _ =>
        .ite (Fs.iunlockput_return ip ?_) (.pure ?_)
      · simp only [Option.elim_none, Option.elim_some]
        abel
      · simp only [Option.elim_some]
        abel
  refine Fs.Effect.bind (.ite (Fs.create_spec cwd path _ 0 0) hexisting) fun o => ?_
  cases o with
  | none => exact .pure (sub_self _)
  | some ip =>
    refine .get_bind fun _ => .ite (Fs.iunlockput_return ip ?_) (.pure (sub_self _))
    simp only [Option.elim_none, Option.elim_some]
    abel

/-- The end of `sys_open` unlocks the inode. -/
theorem openTrunc_spec (omode : ℕ) : Fs.Effect (openTrunc ip omode) fun _ => -Fs.lockOf ip :=
  .get_bind fun _ => .ite ((Fs.itrunc_keeps ip).andThen fun _ => Fs.iunlock_spec ip)
    (Fs.iunlock_spec ip)

theorem Busy.putInode (h : Busy w p {ip} 0 (Pi.single ip 1)) :
    post (fs (Fs.iunlockput ip)) w fun _ w' => Busy w' p ∅ 0 0 :=
  (h.runFs (Fs.iunlockput_spec ip) (fun _ => ∅) (fun _ => 0) fun _ j => by
    by_cases hj : j = ip <;> simp [Fs.lockOf, Fs.refOf, hj]).mono fun _ w' ⟨_, _, hb⟩ => hb

theorem Busy.openedFile (h : Busy w p {ip} 0 (Pi.single ip 1)) {f : Fid}
    (hf : (w.file f).ref = 1 ∧ (w.file f).type = .none) (type major omode : ℕ) :
    post (setFile f fun x => openedFile x ip type major omode) w fun _ w' =>
      Busy w' p {ip} 0 0 := by
  have hpipe : (w.file f).pipeEnd = none := by simp [File.pipeEnd, hf.2]
  have hpipe' : (Files.openedFile (w.file f) ip type major omode).pipeEnd = none := by
    simp only [File.pipeEnd, Files.openedFile]
    split_ifs <;> simp_all
  have hinode : (w.file f).inode = none := by simp [File.inode, hf.2]
  have hinode' : (Files.openedFile (w.file f) ip type major omode).inode = some ip := by
    have href : (Files.openedFile (w.file f) ip type major omode).ref = 1 := hf.1
    rw [File.inode, href]
    simp only [Files.openedFile]
    split_ifs <;> simp_all
  refine (wpOr_modify _).mpr ⟨?_, h.locked, h.tidy, h.live⟩
  refine h.inv.setFile _ w.pipe w.allocs w.frees w.fs rfl (fun _ _ => rfl) ?_ ?_ (fun a b => ?_)
    h.inv.alive h.inv.freed fun e => ?_
  · intro hzero
    exact absurd (hf.1.symm.trans hzero) one_ne_zero
  · intro htype
    simp only [Files.openedFile] at htype
    split_ifs at htype
  · rw [hpipe, hpipe', h.inv.ends]
    simp
  · rw [hinode, hinode']
    rw [pointsTo_some]
    simp

/-- The reference to the inode goes to the file, or is dropped. -/
theorem openFile_spec (h : Busy w p {ip} 0 (Pi.single ip 1)) (omode : ℕ) :
    post (openFile p ip omode) w fun _ w' => Good w' := by
  refine h.filealloc.bind ?_
  rintro o w1 (⟨rfl, rfl⟩ | ⟨f, rfl, hold, rfl, h1⟩)
  · exact h.putInode.bind fun _ w' hb => (wpOr_pure _).mpr hb.good
  refine (h1.fdalloc f).bind ?_
  rintro o w2 (⟨rfl, rfl⟩ | ⟨fd, rfl, -, rfl, h2⟩)
  · refine (h1.closeOwn le_rfl).bind ?_
    rintro - w3 ⟨-, h3⟩
    exact h3.putInode.bind fun _ w' hb => (wpOr_pure _).mpr hb.good
  · rw [add_sub_cancel_right] at h2
    have htype := h.inv.unused f hold
    have hf : ((w.taken f).file f).ref = 1 ∧ ((w.taken f).file f).type = .none := by
      simp [World.taken, htype]
    refine wpOr_get_bind.mpr ((h2.openedFile hf _ _ omode).bind fun _ w3 h3 => ?_)
    refine (h3.runFs (openTrunc_spec omode) (fun _ => ∅) (fun _ => 0) fun _ j => ?_).bind ?_
    · by_cases hj : j = ip <;> simp [Fs.lockOf, hj]
    · rintro - w4 ⟨-, -, h4⟩
      exact (wpOr_pure _).mpr h4.good

/-- `sys_open` keeps the invariant. -/
theorem sysOpen_spec (h : Good w) (hp : (w.proc p).life = .live) (path : Option (List UInt8))
    (omode : ℕ) : post (sysOpen p path omode) w fun _ w' => Good w' := by
  have hb := h.busy hp
  cases path with
  | none => exact (wpOr_pure _).mpr h
  | some path =>
    refine hb.getCwd.bind ?_
    rintro cwd w1 ⟨-, rfl⟩
    refine (hb.runFs (openInode_spec cwd path omode) (fun o => o.elim ∅ fun ip => {ip})
      (fun o => o.elim 0 fun ip => Pi.single ip 1) fun o j => ?_).bind fun o w2 ⟨_, _, h2⟩ => ?_
    · rcases o with _ | ip
      · simp
      · by_cases hj : j = ip <;> simp [Fs.lockOf, Fs.refOf, hj]
    · cases o with
      | none => exact (wpOr_pure _).mpr h2.good
      | some ip => exact openFile_spec h2 omode

end Open

/-! ## Pipes -/

section Pipe

variable {w : World} {p : Pid} {L : Finset Ino} {x : Fid → ℤ} {y : Ino → ℤ}

/-- The pointers of the descriptors that are cleared are left to the code. -/
theorem clearFds_spec (h : Busy w p L x y) (fds : List Fd) (fs : List Fid) (hnodup : fds.Nodup)
    (hfs : fds.map (w.proc p).ofile = fs.map some) : post (clearFds p fds) w fun _ w' =>
      Busy w' p L (x + (fs.map fun f => Pi.single f 1).sum) y := by
  induction fds generalizing w x fs with
  | nil =>
    obtain rfl : fs = [] := by simpa using hfs.symm
    refine (wpOr_pure _).mpr ?_
    rwa [List.map_nil, List.sum_nil, add_zero]
  | cons fd fds ih =>
    obtain ⟨hfd, hnodup⟩ := List.nodup_cons.mp hnodup
    cases fs with
    | nil => simp at hfs
    | cons f fs =>
      rw [List.map_cons, List.map_cons, List.cons.injEq] at hfs
      refine (h.clearFd fd hfs.1).bind ?_
      rintro - w' ⟨rfl, hb⟩
      refine (ih hb fs hnodup ?_).mono fun _ w' hw => ?_
      · rw [← hfs.2]
        refine List.map_congr_left fun fd' hmem => ?_
        have hne : fd' ≠ fd := fun heq => hfd (heq ▸ hmem)
        simp [World.withProc, Proc.withFd, hne]
      · rwa [List.map_cons, List.sum_cons, ← add_assoc]

/-- A `sys_pipe` that fails gives back both files. -/
theorem pipeBad_spec (h : Busy w p L x y) (fds : List Fd) (fs : List Fid) (rf wf : Fid)
    (hnodup : fds.Nodup) (hfs : fds.map (w.proc p).ofile = fs.map some)
    (hx : x + (fs.map fun f => Pi.single f 1).sum = Pi.single wf 1 + Pi.single rf 1) :
    post (pipeBad p fds rf wf) w fun _ w' => Busy w' p L 0 y := by
  refine (clearFds_spec h fds fs hnodup hfs).bind fun _ w1 h1 => ?_
  rw [hx] at h1
  have hnonneg : (0 : Fid → ℤ) ≤ Pi.single wf 1 := Pi.single_nonneg.mpr zero_le_one
  refine (h1.closeOwn (hnonneg rf)).bind fun _ w2 ⟨_, h2⟩ => ?_
  have h2 : Busy w2 p L (0 + Pi.single wf 1) y := by rwa [zero_add]
  exact (h2.closeOwn le_rfl).bind fun _ w3 ⟨_, h3⟩ => (wpOr_pure _).mpr h3

/-- `sys_pipe` keeps the invariant. -/
theorem sysPipe_spec (h : Good w) (hp : (w.proc p).life = .live) (page : Option ℕ)
    (hpage : ∀ a, page = some a → w.pipe a = none) (copied : Bool) :
    post (sysPipe p page copied) w fun _ w' => Good w' := by
  refine (pipealloc_spec h.inv page hpage).bind fun o w1 ⟨hp1, hl1, hinv1⟩ => ?_
  have hbusy : ∀ x, Inv w1 x 0 → Busy w1 p ∅ x 0 := fun x hx =>
    ⟨hx, hl1.trans h.unlocked, by rw [hp1]; exact h.tidy, by rw [hp1]; exact hp⟩
  rcases o with _ | ⟨rf, wf⟩
  · exact (wpOr_pure _).mpr (hbusy 0 hinv1).good
  have h1 : Busy w1 p ∅ (Pi.single rf 1 + Pi.single wf 1) 0 := by
    rw [zero_add] at hinv1
    exact hbusy _ hinv1
  refine (h1.fdalloc rf).bind ?_
  rintro o w2 (⟨rfl, rfl⟩ | ⟨fd0, rfl, hfree0, rfl, h2⟩)
  · refine (pipeBad_spec h1 [] [] rf wf .nil rfl ?_).mono fun _ _ hb => hb.good
    rw [List.map_nil, List.sum_nil, add_zero, add_comm]
  rw [add_sub_cancel_left] at h2
  refine (h2.fdalloc wf).bind ?_
  rintro o w3 (⟨rfl, rfl⟩ | ⟨fd1, rfl, hfree1, rfl, h3⟩)
  · refine (pipeBad_spec h2 [fd0] [rf] rf wf (List.nodup_singleton _) ?_ ?_).mono
      fun _ _ hb => hb.good
    · simp [World.withProc, Proc.withFd]
    · simp
  rw [sub_self] at h3
  have hne : fd0 ≠ fd1 := by
    rintro rfl
    simp [World.withProc, Proc.withFd] at hfree1
  refine .ite (fun _ => (wpOr_pure _).mpr h3.good) fun _ => ?_
  refine (pipeBad_spec h3 [fd0, fd1] [rf, wf] rf wf (by simp [hne]) ?_ ?_).mono
    fun _ _ hb => hb.good
  · simp [World.withProc, Proc.withFd, hne]
  · simp [add_comm]

end Pipe

/-! ## Processes -/

section Processes

variable {w : World} {p np : Pid} {L : Finset Ino} {x : Fid → ℤ} {y : Ino → ℤ}

/-- The child has a reference of its own to every open file. -/
theorem dupFiles_spec (h : Inv w 0 y) (fds : List Fd) (hnodup : fds.Nodup)
    (hfree : ∀ fd ∈ fds, (w.proc np).ofile fd = none) :
    post (dupFiles p np fds) w fun _ w' => w'.fs = w.fs ∧ Inv w' 0 y ∧
      (w'.proc np).cwd = (w.proc np).cwd ∧ ∀ q, q ≠ np → w'.proc q = w.proc q := by
  induction fds generalizing w with
  | nil => exact (wpOr_pure _).mpr ⟨rfl, h, rfl, fun _ _ => rfl⟩
  | cons fd fds ih =>
    obtain ⟨hfd, hnodup⟩ := List.nodup_cons.mp hnodup
    have hfree' : ∀ fd' ∈ fds, (w.proc np).ofile fd' = none := fun fd' hmem =>
      hfree fd' (List.mem_cons_of_mem _ hmem)
    refine wpOr_get_bind.mpr ?_
    cases hofile : (w.proc p).ofile fd with
    | none => exact ih h hnodup hfree'
    | some f =>
      have hpos : 0 < tally w.slot f := tally_pos (i := (p, fd)) hofile
      have hf : 0 < (tally w.slot f : ℤ) + (0 : Fid → ℤ) f := by
        rw [Pi.zero_apply]
        omega
      refine (filedup_spec h f hf).bind ?_
      rintro - w1 ⟨hp1, hfs1, -, h1⟩
      have hset : ∀ e, (0 : Fid → ℤ) e + pointsTo (some f) e =
          (0 + Pi.single f 1 : Fid → ℤ) e + pointsTo ((w1.proc np).ofile fd) e := by
        intro e
        rw [hp1, hfree fd List.mem_cons_self]
        rw [pointsTo_some]
        simp
      refine (h1.setFd 0 fd (some f) hset).bind ?_
      rintro - w2 ⟨rfl, h2⟩
      refine (ih h2 hnodup fun fd' hmem => ?_).mono ?_
      · have : fd' ≠ fd := fun heq => hfd (heq ▸ hmem)
        simpa [World.withProc, Proc.withFd, this, hp1] using hfree' fd' hmem
      · rintro - w' ⟨hfs, hinv, hcwd, hother⟩
        refine ⟨hfs.trans hfs1, hinv, ?_, fun q hq => ?_⟩
        · rw [hcwd]
          simp [World.withProc, Proc.withFd, hp1]
        · rw [hother q hq]
          simp [World.withProc, hq, hp1]

/-- `fork` keeps the invariant. -/
theorem fork_spec (h : Good w) (hp : (w.proc p).life = .live) (memory : Bool) :
    post (fork p memory) w fun _ w' => Good w' := by
  refine wpOr_get_bind.mpr ?_
  split
  · exact (wpOr_pure _).mpr h
  · next np hfind =>
    have hunused : (w.proc np).life = .unused := by simpa using List.find?_some hfind
    have hne : np ≠ p := by
      rintro rfl
      rw [hp] at hunused
      cases hunused
    obtain ⟨hcwd, hofile⟩ := (h.tidy np).other (by rw [hunused]; decide)
    refine .ite (fun _ => (wpOr_pure _).mpr h) fun _ => ?_
    refine (dupFiles_spec h.inv _ (List.nodup_finRange _) fun fd _ => hofile fd).bind
      fun _ w1 ⟨hfs1, h1, hcwd1, hother⟩ => ?_
    have hp1 : w1.proc p = w.proc p := hother p hne.symm
    obtain ⟨cwd, hcwdp⟩ := Option.ne_none_iff_exists'.mp ((h.tidy p).live hp)
    refine (getCwd_spec (hp1 ▸ hcwdp)).bind ?_
    rintro cwd w2 ⟨rfl, rfl⟩
    refine (post_fs (Fs.idup_spec cwd)).bind ?_
    rintro cwd w3 ⟨s, rfl, rfl, hs⟩
    obtain ⟨hr, hl⟩ := Fs.State.of_held hs (y := Pi.single cwd 1) (L := w2.fs.locked)
      fun j => by by_cases hj : j = cwd <;> simp [Fs.refOf, hj]
    refine (wpOr_modify_bind _).mpr ((wpOr_pure _).mpr ⟨?_, ?_, ?_⟩)
    · -- The new reference is the current directory of the child.
      have hidup : Inv { w2 with fs := s } 0 (Pi.single cwd 1) := by
        refine ⟨h1.refs, h1.unused, h1.modes, h1.ends, h1.alive, h1.freed, fun e => ?_⟩
        have := h1.inodes e
        change s.ref e = tally w2.opened e + tally w2.cwd e + _
        rw [hr, Pi.add_apply]
        simpa using this
      refine hidup.setProc (p := np) _ rfl fun e => ?_
      change (0 : ℤ) + pointsTo (some cwd) e = _ + pointsTo (w2.proc np).cwd e
      rw [hcwd1, hcwd]
      rw [pointsTo_some]
      simp
    · exact hl.trans (hfs1 ▸ h.unlocked)
    · intro q
      by_cases hq : q = np
      · subst hq
        exact ⟨fun _ => by simp, fun hother => absurd (by simp) hother⟩
      · simpa [hq, hother q hq] using h.tidy q

/-- `exit` closes the descriptors one by one. -/
theorem closeFiles_spec (h : Busy w p L 0 y) (fds : List Fd) :
    post (closeFiles p fds) w fun _ w' => Busy w' p L 0 y ∧ (w'.proc p).cwd = (w.proc p).cwd ∧
      ∀ fd, fd ∈ fds ∨ (w.proc p).ofile fd = none → (w'.proc p).ofile fd = none := by
  induction fds generalizing w with
  | nil => exact (wpOr_pure _).mpr ⟨h, rfl, by simp⟩
  | cons fd fds ih =>
    refine wpOr_get_bind.mpr ?_
    cases hofile : (w.proc p).ofile fd with
    | none =>
      refine (ih h).mono fun _ w' ⟨hb, hcwd, hnone⟩ => ⟨hb, hcwd, ?_⟩
      rintro fd' (hmem | hfree)
      · rcases List.mem_cons.mp hmem with rfl | hmem
        · exact hnone fd' (.inr hofile)
        · exact hnone fd' (.inl hmem)
      · exact hnone fd' (.inr hfree)
    | some f =>
      have hpos : 0 < tally w.slot f := tally_pos (i := (p, fd)) hofile
      have hf : 0 < (tally w.slot f : ℤ) + (0 : Fid → ℤ) f := by
        rw [Pi.zero_apply]
        omega
      refine (h.close hf).bind fun _ w1 ⟨hp1, h1⟩ => ?_
      refine (h1.clearFd fd (by rw [hp1]; exact hofile)).bind ?_
      rintro - w2 ⟨rfl, h2⟩
      rw [sub_add_cancel] at h2
      refine (ih h2).mono fun _ w' ⟨hb, hcwd, hnone⟩ => ⟨hb, ?_, fun fd' hfd' => ?_⟩
      · rw [hcwd]
        simp [World.withProc, Proc.withFd, hp1]
      · by_cases heq : fd' = fd
        · subst heq
          exact hnone fd' (.inr (by simp [World.withProc, Proc.withFd]))
        · refine hnone fd' (hfd'.imp (fun hmem => ?_) fun hfree => ?_)
          · exact (List.mem_cons.mp hmem).resolve_left heq
          · simpa [World.withProc, Proc.withFd, heq, hp1] using hfree

/-- `exit` keeps the invariant. -/
theorem exit_spec (h : Good w) (hp : (w.proc p).life = .live) :
    post (exit p) w fun _ w' => Good w' := by
  refine wpOr_get_bind.mpr (.ite (fun _ => wpOr_throw.mpr trivial) fun _ => ?_)
  refine (closeFiles_spec (h.busy hp) _).bind fun _ w1 ⟨h1, _, hnone⟩ => h1.getCwd.bind ?_
  rintro cwd w2 ⟨hcwd, rfl⟩
  refine (h1.runFs (Fs.iput_spec cwd) (fun _ => ∅) (fun _ => -Pi.single cwd 1) fun _ j => ?_).bind
    fun _ w3 ⟨hp3, _, h3⟩ => ?_
  · by_cases hj : j = cwd <;> simp [Fs.refOf, hj]
  refine (wpOr_modify _).mpr ⟨?_, h3.locked, tidy_withProc h3.tidy ⟨?_, fun _ => ⟨rfl, ?_⟩⟩⟩
  · refine h3.inv.setProc (p := p) _ rfl fun e => ?_
    rw [hp3, hcwd]
    rw [pointsTo_some]
    simp
  · intro hlive
    cases hlive
  · intro fd
    rw [hp3]
    exact hnone fd (.inl (List.mem_finRange fd))

/-- `wait` frees the place of an exited process, which has nothing. -/
theorem wait_spec (h : Good w) {q : Pid} (hq : (w.proc q).life = .zombie) :
    post (setProc q fun pr => { pr with life := .unused }) w fun _ w' => Good w' := by
  have hother := (h.tidy q).other (by rw [hq]; decide)
  refine (wpOr_modify _).mpr ⟨?_, h.unlocked, tidy_withProc h.tidy ⟨?_, fun _ => hother⟩⟩
  · exact h.inv.setProc (p := q) _ rfl fun e => rfl
  · intro hlive
    cases hlive

end Processes

/-! ## Paths -/

section Paths

variable {w : World} {p : Pid}

/-- `sys_chdir` keeps the invariant. -/
theorem sysChdir_spec (h : Good w) (hp : (w.proc p).life = .live) (path : Option (List UInt8)) :
    post (sysChdir p path) w fun _ w' => Good w' := by
  have hb := h.busy hp
  cases path with
  | none => exact (wpOr_pure _).mpr h
  | some path =>
    refine hb.getCwd.bind ?_
    rintro cwd w1 ⟨hcwd, rfl⟩
    refine (hb.runFs (Fs.chdir_spec cwd path) (fun _ => ∅)
      (fun o => o.elim 0 fun ip => Pi.single ip 1 - Pi.single cwd 1) fun o j => ?_).bind
      fun o w2 ⟨hp2, _, h2⟩ => ?_
    · rcases o with _ | ip
      · simp
      · simp only [Option.elim_some, Fs.refOf, Pi.single_apply, Pi.sub_apply]
        split_ifs <;> simp
    cases o with
    | none => exact (wpOr_pure _).mpr h2.good
    | some ip =>
      refine (wpOr_modify_bind _).mpr ((wpOr_pure _).mpr
        ⟨?_, h2.locked, tidy_withProc h2.tidy ⟨by simp, fun hother => ?_⟩⟩)
      · refine h2.inv.setProc (p := p) _ rfl fun e => ?_
        rw [hp2, hcwd]
        rw [pointsTo_some, pointsTo_some]
        simp
      · exact absurd h2.live hother

/-- A call that works on inodes only keeps the invariant. -/
theorem inodeCall_spec (h : Good w) (hp : (w.proc p).life = .live) (path : Option (List UInt8))
    {c : Ino → List UInt8 → F ℤ} (hc : ∀ cwd path, Fs.Keeps (c cwd path)) :
    post (inodeCall p path c) w fun _ w' => Good w' := by
  have hb := h.busy hp
  cases path with
  | none => exact (wpOr_pure _).mpr h
  | some path =>
    refine hb.getCwd.bind ?_
    rintro cwd w1 ⟨-, rfl⟩
    exact (hb.keeps (hc cwd path)).mono fun _ w2 ⟨_, _, h2⟩ => h2.good

end Paths

/-! ## Runs -/

section Runs

variable {w w' : World}

theorem post_discard {α : Type} {c : W α} (h : post c w fun _ w' => Good w') :
    post (discard c) w fun _ w' => Good w' :=
  h.bind fun _ _ hw => (wpOr_pure _).mpr hw

theorem Event.spec (e : Event) (h : Good w) (he : e.enabled w = true) :
    post e.code w fun _ w' => Good w' := by
  obtain ⟨hlive, henabled⟩ := (Bool.and_eq_true _ _).mp he
  have hp : (w.proc e.caller).life = .live := of_decide_eq_true hlive
  cases e with
  | «open» p path omode => exact post_discard (sysOpen_spec h hp path omode)
  | dup p fd => exact post_discard (sysDup_spec h hp fd)
  | close p fd => exact post_discard (sysClose_spec h hp fd)
  | pipe p page copied =>
    refine post_discard (sysPipe_spec h hp page ?_ copied)
    rintro a rfl
    simpa using henabled
  | link p old new =>
    cases new with
    | none => exact post_discard ((wpOr_pure _).mpr h)
    | some new => exact post_discard (inodeCall_spec h hp old fun cwd old => Fs.link_keeps cwd old new)
  | unlink p path => exact post_discard (inodeCall_spec h hp path Fs.unlink_keeps)
  | mkdir p path | mknod p path major minor =>
    exact post_discard (inodeCall_spec h hp path fun cwd path => Fs.mknode_keeps cwd path _ _ _)
  | chdir p path => exact post_discard (sysChdir_spec h hp path)
  | exec p path reads bad late =>
    exact post_discard (inodeCall_spec h hp path fun cwd path => Fs.exec_keeps cwd path reads bad late)
  | fork p memory => exact post_discard (fork_spec h hp memory)
  | exit p => exact exit_spec h hp
  | wait p q => exact wait_spec h (of_decide_eq_true henabled)

theorem boot_good (sb : Fs.Superblock) (d : Disk) (init : Pid) : Good (World.boot sb d init) := by
  have hzero : ∀ {ι κ : Type} [Fintype ι] [DecidableEq κ] (h : ι → Option κ) (k : κ),
      (∀ i, h i = none) → tally h k = 0 := fun h k hn => by simp [tally, hn]
  have hproc : ∀ q, (World.boot sb d init).proc q =
      if q = init then ⟨.live, fun _ => none, some ⟨0, by decide⟩⟩
      else ⟨.unused, fun _ => none, none⟩ := fun q => by
    simp [World.boot, update_apply]
  refine ⟨⟨fun f => ?_, fun f _ => rfl, by rintro f ⟨⟩, fun a b => ?_, by rintro a pi ⟨⟩,
    fun a => rfl, fun e => ?_⟩, ?_, fun q => ?_⟩
  · rw [hzero (World.boot sb d init).slot f]
    · rfl
    · rintro ⟨q, fd⟩
      rw [World.slot, hproc]
      split_ifs <;> rfl
  · exact hzero _ _ fun f => rfl
  · have hcwd : (World.boot sb d init).cwd =
        update (fun _ => none) init (some ⟨0, by decide⟩) := by
      funext q
      rw [World.cwd, hproc, update_apply]
      split_ifs <;> rfl
    have htally := tally_update (fun _ : Pid => (none : Option Ino)) init (some ⟨0, by decide⟩) e
    rw [pointsTo_none, hzero (fun _ : Pid => (none : Option Ino)) e fun _ => rfl] at htally
    rw [hcwd, hzero (World.boot sb d init).opened e fun f => rfl]
    zify at htally
    rw [pointsTo_some, add_zero, zero_add] at htally
    rw [htally]
    by_cases he : e = ⟨0, by decide⟩
    · subst he
      simp [Fs.State.ref, World.boot]
    · simp [Fs.State.ref, World.boot, he]
  · ext e
    by_cases he : e = ⟨0, by decide⟩ <;> simp [World.boot, he]
  · rw [hproc]
    split_ifs
    · exact ⟨fun _ => by simp, fun hother => absurd rfl hother⟩
    · exact ⟨by rintro ⟨⟩, fun _ => ⟨rfl, fun _ => rfl⟩⟩

/-- The states that sequences of system calls lead to. -/
abbrev Run (sb : Fs.Superblock) (d : Disk) (init : Pid) : World → Prop :=
  Reach (World.boot sb d init) Step fun _ _ => True

theorem Run.good {sb : Fs.Superblock} {d : Disk} {init : Pid} (h : Run sb d init w) : Good w :=
  h.invariant (boot_good sb d init) fun _ e _ hw _ hstep =>
    (e.spec hw hstep.1).of_run hstep.2

/-- The state after a system call, if it is possible and returns. -/
def next (w : World) (e : Event) : Option World :=
  if e.enabled w then
    match e.code.run w with
    | .ok (_, w') => some w'
    | .error _ => none
  else none

theorem next_eq {e : Event} (h : next w e = some w') : Step w e w' := by
  rw [next] at h
  split_ifs at h with he
  split at h
  · next w1 hrun =>
    cases h
    exact ⟨he, hrun⟩
  · cases h

theorem Run.execute {sb : Fs.Superblock} {d : Disk} {init : Pid} {es : List Event}
    (h : execute next (fun _ _ => true) (World.boot sb d init) es = some w) : Run sb d init w :=
  Reach.execute (fun _ _ _ => next_eq) (fun _ _ _ => trivial) .init h

/-- The first place of the process table. -/
def proc0 : Pid := ⟨0, by decide⟩

/-- The second place of the file table. -/
def file1 : Fid := ⟨1, by decide⟩

/-- The first place of the inode table. -/
def root : Ino := ⟨0, Fs.zero_lt_ninode⟩

/-- An empty disk. -/
def emptyDisk : Disk := fun _ => Bytes.fill BSIZE 0

/-- The superblock of an empty disk. -/
def emptySb : Fs.Superblock := ⟨0, 0, 0, 0⟩

/-- The first process makes a pipe, forks, and closes its read end. -/
def forkPipe : List Event := [.pipe proc0 (some 4096) true, .fork proc0 true, .close proc0 0]

theorem forkPipe_run : ∃ w, Run emptySb emptyDisk proc0 w ∧ (w.file file1).ref = 2 ∧
    (w.fs.inode root).ref = 2 := by
  have hrun : (execute next (fun _ _ => true) (World.boot emptySb emptyDisk proc0)
      forkPipe).map
      (fun w => ((w.file file1).ref, (w.fs.inode root).ref)) = some (2, 2) := by
    decide +kernel
  obtain ⟨w, hw, heq⟩ := Option.map_eq_some_iff.mp hrun
  rw [Prod.mk.injEq] at heq
  exact ⟨w, Run.execute hw, heq.1, heq.2⟩

/-- Open file `f` is the write end of pipe `a`, or its read end. -/
structure World.IsEnd (w : World) (f : Fid) (a : ℕ) (write : Bool) : Prop where
  ref : 0 < (w.file f).ref
  type : (w.file f).type = .pipe
  pipe : (w.file f).pipe = a
  writable : (w.file f).writable = write
  readable : (w.file f).readable = !write

theorem Inv.exists_isEnd {x : Fid → ℤ} {y : Ino → ℤ} (h : Inv w x y) (a : ℕ) (write : Bool) :
    (∃ f, w.IsEnd f a write) ↔ ∃ pi, w.pipe a = some pi ∧ pi.isOpen write = true := by
  have hends := h.ends a write
  constructor
  · rintro ⟨f, hf⟩
    have hend : w.ends f = some (a, write) := by
      simp [World.ends, File.pipeEnd, hf.ref, hf.type, hf.pipe, hf.writable]
    have hpos := tally_pos hend
    cases hpi : w.pipe a with
    | none => simp [hends, hpi] at hpos
    | some pi =>
      refine ⟨pi, rfl, ?_⟩
      by_contra hclosed
      simp [hends, hpi, hclosed] at hpos
  · rintro ⟨pi, hpi, hopen⟩
    have hone : tally w.ends (a, write) = 1 := by simp [hends, hpi, hopen]
    obtain ⟨f, hf⟩ := Finset.card_pos.mp (hone ▸ one_pos)
    have hend : (w.file f).pipeEnd = some (a, write) := (Finset.mem_filter.mp hf).2
    rw [File.pipeEnd] at hend
    split_ifs at hend with hc
    rw [Option.some.injEq, Prod.mk.injEq] at hend
    refine ⟨f, hc.1, hc.2, hend.1, hend.2, ?_⟩
    rw [h.modes f hc.2, hend.2]

/-- The counts of open files are the numbers of descriptors, a file that is not in use has no type, and
the ends of the pipes are those of open files. A page has been a pipe once more often than it has been
freed if an end of the pipe is open, and as often otherwise. No system call uses a file or a pipe that
has gone. -/
theorem file_pipe_accounting {sb : Fs.Superblock} {d : Disk} {init : Pid} (h : Run sb d init w) :
    (∀ f, (w.file f).ref = tally w.slot f) ∧
    (∀ f, (w.file f).ref = 0 → (w.file f).type = .none) ∧
    (∀ a pi, w.pipe a = some pi →
      (pi.readopen = true ↔ ∃ f, w.IsEnd f a false) ∧
      (pi.writeopen = true ↔ ∃ f, w.IsEnd f a true)) ∧
    (∀ a, (w.pipe a).isSome = true ↔ ∃ f write, w.IsEnd f a write) ∧
    (∀ a, w.allocs a = w.frees a + if (w.pipe a).isSome then 1 else 0) ∧
    ∀ e err, Event.enabled e w = true → e.code.run w = .error err →
      err ≠ .filedup ∧ err ≠ .fileclose ∧ err ≠ .pipe := by
  have hinv := h.good.inv
  refine ⟨fun f => ?_, hinv.unused, fun a pi hpi => ⟨?_, ?_⟩, fun a => ?_, hinv.freed,
    fun e err he hrun => ?_⟩
  · have := hinv.refs f
    rw [Pi.zero_apply, add_zero] at this
    exact_mod_cast this
  · rw [hinv.exists_isEnd, hpi]
    simp [Pipe.isOpen]
  · rw [hinv.exists_isEnd, hpi]
    simp [Pipe.isOpen]
  · rw [exists_comm]
    simp only [hinv.exists_isEnd]
    constructor
    · intro hsome
      obtain ⟨pi, hpi⟩ := Option.isSome_iff_exists.mp hsome
      rcases hinv.alive a pi hpi with hread | hwrite
      · exact ⟨false, pi, hpi, hread⟩
      · exact ⟨true, pi, hpi, hwrite⟩
    · rintro ⟨_, pi, hpi, -⟩
      rw [hpi]
      rfl
  · have hallowed := (e.spec h.good he).of_error hrun
    cases err <;> simp_all [Allowed]

/-- Two processes have the write end of a pipe. -/
theorem file_pipe_accounting_forkPipe : ∃ w, Run emptySb emptyDisk proc0 w ∧ tally w.slot file1 = 2 := by
  obtain ⟨w, hrun, href, -⟩ := forkPipe_run
  exact ⟨w, hrun, ((file_pipe_accounting hrun).1 file1).symm.trans href⟩

/-- Between system calls an inode has a reference for every open file that is it and every process
whose current directory it is, and no inode is locked. -/
theorem inode_references {sb : Fs.Superblock} {d : Disk} {init : Pid} (h : Run sb d init w)
    (ip : Ino) : (w.fs.inode ip).ref = (tally w.opened ip + tally w.cwd ip : ℤ) ∧
      (w.fs.inode ip).lock = false := by
  constructor
  · exact (h.good.inv.inodes ip).trans (add_zero _)
  · have hunlocked : ip ∉ w.fs.locked := by
      rw [h.good.unlocked]
      exact Finset.notMem_empty ip
    simpa using hunlocked

/-- Two processes have the root directory as their current directory. -/
theorem inode_references_forkPipe : ∃ w, Run emptySb emptyDisk proc0 w ∧
    (tally w.opened root + tally w.cwd root : ℤ) = 2 := by
  obtain ⟨w, hrun, -, href⟩ := forkPipe_run
  exact ⟨w, hrun, (inode_references hrun root).1.symm.trans href⟩

end Runs

end Xv6.Files
