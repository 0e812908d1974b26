import Xv6.Fs.Calls
import Xv6.Files.Calls
import Xv6.Lib.Run

/-!
# The disk over whole runs

The file system with the references that the rest of the kernel has to it: the current directories of the
processes and the open files. Every system call keeps the file system sane, so that in every state of
every run from a consistent disk each block is stored in one place, the bitmap is exact and files have no
holes.
-/

namespace Xv6.Storage

open Function Lib
open Fs (At State Ino F Panic Sane Pins pin hold Frame Held Done Created Fine safe)
open Files (hasMode openInode openTrunc)
open Vm (Image)

/-- An open file. -/
structure File where
  ip : Ino
  writable : Bool
  device : Bool
  deriving DecidableEq

/-- The file system, the current directories of the processes and the open files. -/
structure World where
  fs : State
  cwds : List Ino
  files : List File

/-- What happens: the system calls of a process with current directory `cwd`, and the transactions on an
open file. The offset of a file may be anything, as other processes move it and truncate the file. -/
inductive Event
  /-- `full` says that no file or descriptor is free -/
  | open (cwd : Ino) (path : List UInt8) (omode : ℕ) (full : Bool)
  | close (f : File)
  | mknode (cwd : Ino) (path : List UInt8) (type major minor : ℕ)
  | link (cwd : Ino) (old new : List UInt8)
  | unlink (cwd : Ino) (path : List UInt8)
  | chdir (cwd : Ino) (path : List UInt8)
  | exec (cwd : Ino) (path : List UInt8) (reads : List (UInt32 × UInt32)) (bad late : Bool)
  | fork (cwd : Ino)
  | exit (cwd : Ino)
  | read (f : File) (off n : UInt32)
  /-- one turn of the loop of `filewrite` -/
  | write (f : File) (kept : Bool) (img : Image) (src : ℕ) (off n : UInt32)

/-- `sys_open`: the inode and whether it is a device. -/
def openCall (cwd : Ino) (path : List UInt8) (omode : ℕ) (full : Bool) : F (Option (Ino × Bool)) := do
  match ← openInode cwd path omode with
  | none => return none
  | some ip =>
    if full then
      Fs.iunlockput ip
      return none
    else
      let device := decide (((← get).inode ip).type = Fs.T_DEVICE)
      openTrunc ip omode
      return some (ip, device)

/-- `fileread` of an inode. -/
def fileread (ip : Ino) (off n : ℕ) : F (List UInt8) := do
  Fs.ilock ip
  let r ← Fs.readi ip off n
  Fs.iunlock ip
  return r

/-- One turn of the loop of `filewrite`. -/
def filewrite (kept : Bool) (img : Image) (ip : Ino) (src off n : ℕ) : F ℤ := do
  Fs.ilock ip
  let r ← Fs.writeiUser kept img ip src off n
  Fs.iunlock ip
  return r

/-- The file that `sys_open` makes. -/
def openedFile (omode : ℕ) (r : Ino × Bool) : File :=
  ⟨r.1, hasMode omode O_WRONLY || hasMode omode O_RDWR, r.2⟩

/-- Code of the file system, and what it does to the references. -/
def World.call {α : Type} (w : World) (x : F α) (u : α → World → World) : Except Panic World :=
  (x.run w.fs).map fun r => u r.1 { w with fs := r.2 }

/-- The code of an event. -/
def Event.code : Event → World → Except Panic World
  | .open cwd path omode full, w => w.call (openCall cwd path omode full) fun r w =>
      { w with files := (r.map (openedFile omode)).toList ++ w.files }
  | .close f, w => w.call (Fs.iput f.ip) fun _ w => { w with files := w.files.erase f }
  | .mknode cwd path type major minor, w => w.call (Fs.mknode cwd path type major minor) fun _ w => w
  | .link cwd old new, w => w.call (Fs.link cwd old new) fun _ w => w
  | .unlink cwd path, w => w.call (Fs.unlink cwd path) fun _ w => w
  | .chdir cwd path, w => w.call (Fs.chdir cwd path) fun r w =>
      { w with cwds := r.getD cwd :: w.cwds.erase cwd }
  | .exec cwd path reads bad late, w =>
      w.call (Fs.exec cwd path (reads.map fun r => (r.1.toNat, r.2.toNat)) bad late) fun _ w => w
  | .fork cwd, w => w.call (Fs.idup cwd) fun _ w => { w with cwds := cwd :: w.cwds }
  | .exit cwd, w => w.call (Fs.iput cwd) fun _ w => { w with cwds := w.cwds.erase cwd }
  | .read f off n, w => w.call (fileread f.ip off.toNat n.toNat) fun _ w => w
  | .write f kept img src off n, w => w.call (filewrite kept img f.ip src off.toNat n.toNat) fun _ w => w

/-- The process has the current directory, the file is open, and it is one that the call works on. -/
def Event.enabled (w : World) : Event → Prop
  | .open cwd _ _ _ | .mknode cwd _ _ _ _ | .link cwd _ _ | .unlink cwd _ | .chdir cwd _
  | .exec cwd _ _ _ _ | .fork cwd | .exit cwd => cwd ∈ w.cwds
  | .close f => f ∈ w.files
  | .read f _ _ => f ∈ w.files ∧ f.device = false
  | .write f _ _ _ _ _ => f ∈ w.files ∧ f.device = false ∧ f.writable = true

instance (w : World) : (e : Event) → Decidable (e.enabled w)
  | .open cwd _ _ _ | .mknode cwd _ _ _ _ | .link cwd _ _ | .unlink cwd _ | .chdir cwd _
  | .exec cwd _ _ _ _ | .fork cwd | .exit cwd => inferInstanceAs (Decidable (cwd ∈ w.cwds))
  | .close f => inferInstanceAs (Decidable (f ∈ w.files))
  | .read f _ _ => inferInstanceAs (Decidable (f ∈ w.files ∧ f.device = false))
  | .write f _ _ _ _ _ =>
      inferInstanceAs (Decidable (f ∈ w.files ∧ f.device = false ∧ f.writable = true))

/-- The state after an event, if it can happen and its code returns. -/
def next (w : World) (e : Event) : Option World := if e.enabled w then (e.code w).toOption else none

/-- A step: the event can happen, and its code returns. -/
def Step (w : World) (e : Event) (w' : World) : Prop := e.enabled w ∧ e.code w = .ok w'

/-- The state after `userinit`, on disk `d`. -/
def World.boot (sb : Fs.Superblock) (d : Disk) (init : Files.Pid) : World where
  fs := (Files.World.boot sb d init).fs
  cwds := ((Files.World.boot sb d init).proc init).cwd.toList
  files := []

/-- The states of the runs on disk `d`. -/
def Run (sb : Fs.Superblock) (d : Disk) (init : Files.Pid) : World → Prop :=
  Reach (World.boot sb d init) Step fun _ _ => True

/-! ## Opening -/

section Opening

variable {s s' : State} {lo i t : ℕ} {ip cwd : Ino} {o : Ino → ℕ}

/-- The types of the inodes that can be opened. -/
def Openable (omode t : ℕ) : Prop := (hasMode omode O_WRONLY || hasMode omode O_RDWR) = true → t ≠ Fs.T_DIR

theorem openExisting_sane (h : Sane s lo) (hp : Pins o s) (hcwd : 0 < o cwd) (path : List UInt8) (omode : ℕ) :
    safe (Files.openExisting cwd path omode) s fun r s' => Created (Openable omode) lo o s r s' := by
  refine ((At.start h hp).namei hcwd path).bind ?_
  rintro (_ | ip) s1 h1
  · exact (wpOr_pure _).mpr h1.none_created
  refine (h1.ilock ip).bind ?_
  rintro _ s2 ⟨h2, -, -, -, hh2⟩
  rw [wpOr_get_bind, hh2.type]
  refine .ite (fun _ => h2.giveUp_created) fun hno => (wpOr_pure _).mpr (h2.created hh2 fun hw ht => ?_)
  refine hno ⟨ht, fun h0 => ?_⟩
  rw [h0] at hw
  exact absurd hw (by decide)

theorem openInode_sane (h : Sane s lo) (hp : Pins o s) (hcwd : 0 < o cwd) (path : List UInt8) (omode : ℕ) :
    safe (openInode cwd path omode) s fun r s' => Created (Openable omode) lo o s r s' := by
  have hfind : safe (Files.openFind cwd path omode) s fun r s' => Created (Openable omode) lo o s r s' := by
    refine .ite (fun _ => ?_) fun _ => openExisting_sane h hp hcwd path omode
    refine Fs.create_sane h hp hcwd path _ _ _ (fun _ => by decide) ?_
    rintro t ⟨-, rfl | rfl⟩
    · exact fun _ => by decide
    · exact fun _ => by decide
  refine hfind.bind ?_
  rintro (_ | ip) s1 ⟨h1, hp1, hf1, hr⟩
  · exact (wpOr_pure _).mpr ⟨h1, hp1, hf1, hr⟩
  rw [wpOr_get_bind]
  exact .ite (fun _ => At.giveUp_created ⟨h1, hp1, hf1⟩) fun _ => (wpOr_pure _).mpr ⟨h1, hp1, hf1, hr⟩

theorem openTrunc_sane (h : Sane s lo) (hp : Pins o s) (hh : Held s ip i t) (omode : ℕ) :
    safe (openTrunc ip omode) s fun _ s' => Done lo o s s' := by
  unfold safe openTrunc
  rw [wpOr_get_bind]
  refine .ite (fun _ => ?_) fun _ => ((At.start h hp).iunlock ip).mono fun _ _ hu => hu.1.done
  refine (Fs.itrunc_sane h hh.ref hh.valid).bindOr ?_
  rintro _ s1 ⟨h1, ht⟩
  have h1 : At lo o s [] s1 := ⟨h1, ht.modified.pins hp, ht.modified.frame h _⟩
  exact (h1.iunlock ip).mono fun _ _ hu => hu.1.done

/-- What `sys_open` returns: an inode that is allocated, and no directory if it may be written. -/
theorem openCall_sane (h : Sane s lo) (hp : Pins o s) (hcwd : 0 < o cwd) (path : List UInt8) (omode : ℕ)
    (full : Bool) : safe (openCall cwd path omode full) s fun r s' => Sane s' lo ∧
      Pins (hold o (r.map Prod.fst)) s' ∧ Frame (fun _ => True) o s s' ∧
      ∀ ip b, r = some (ip, b) → Fs.dinodeType s'.sb s'.disk (s'.inode ip).inum ≠ 0 ∧
        Openable omode (Fs.dinodeType s'.sb s'.disk (s'.inode ip).inum) := by
  refine (openInode_sane h hp hcwd path omode).bind ?_
  rintro (_ | ip) s1 ⟨h1, hp1, hf1, hr⟩
  · exact (wpOr_pure _).mpr ⟨h1, hp1, hf1, fun _ _ hr => by cases hr⟩
  obtain ⟨i, t, hh1, ht⟩ := hr ip rfl
  have hl := h1.loaded ip hh1.ref hh1.valid
  refine .ite (fun _ => ?_) fun _ => ?_
  · refine (At.giveUp (l := []) ⟨h1, hp1, hf1⟩ none).mono ?_
    rintro _ u ⟨rfl, hu⟩
    exact ⟨hu.sane, hu.pins, hu.frame, fun _ _ hr => by cases hr⟩
  · rw [wpOr_get_bind]
    refine (openTrunc_sane h1 hp1 hh1 omode).bind ?_
    rintro _ u ⟨hu, hpu, hfu⟩
    refine (wpOr_pure _).mpr ⟨hu, hpu, hf1.trans (hfu.all (Fs.le_pin ip)), fun ip' b hr => ?_⟩
    cases hr
    obtain ⟨hinum, htype⟩ := hfu.kept ip (by change 0 < pin o ip ip; rw [Fs.pin_self]; omega)
    rw [hinum, hfu.sb, htype hl.live.2]
    refine ⟨hl.live.2, ?_⟩
    rw [← hl.type, hh1.type]
    exact ht

end Opening

/-! ## Reading and writing -/

section Transfer

variable {s s' : State} {lo off n : ℕ} {ip : Ino} {o : Ino → ℕ}

theorem fileread_sane (h : Sane s lo) (hp : Pins o s) (ip : Ino) (hoff : off < 2 ^ 32) (hn : n < 2 ^ 32) :
    safe (fileread ip off n) s fun _ s' => Done lo o s s' ∧ s'.disk = s.disk := by
  refine ((At.start h hp).ilock ip).bind ?_
  rintro _ s1 ⟨h1, -, hdisk1, -, hh1⟩
  refine (Fs.readi_spec h1.sane.cons (h1.sane.loaded ip hh1.ref hh1.valid) hoff hn).bindOr ?_
  rintro r _ ⟨rfl, -⟩
  exact (h1.iunlock ip).bind fun _ u hu => (wpOr_pure _).mpr ⟨hu.1.done, hu.2.trans hdisk1⟩

theorem writeiUser_sane {i t : ℕ} (h : Sane s lo) (hp : Pins o s) (hh : Held s ip i t) (ht : t ≠ Fs.T_DIR)
    (kept : Bool) (img : Image) (src : ℕ) (hn : n < 2 ^ 32) :
    safe (Fs.writeiUser kept img ip src off n) s fun _ s' => Done lo o s s' := by
  have hl := h.loaded ip hh.ref hh.valid
  have hsize := h.cons.loaded_size hl
  have hmax := Fs.maxfile_lt
  by_cases hbad : (s.inode ip).size < off ∨ Fs.MAXFILE * BSIZE < off + n
  · unfold safe Fs.writeiUser
    rw [wpOr_get_bind]
    have hdone : Done lo o s s := ⟨h, hp, .refl _ _ _⟩
    refine .ite (fun _ => (wpOr_pure _).mpr hdone) fun hno => ?_
    refine .ite (fun _ => (wpOr_pure _).mpr hdone) fun hno' => ?_
    omega
  obtain ⟨av, hav, -⟩ := Fs.copyin_spec img src (le_refl n)
  refine (Fs.writeiUser_spec kept h.cons hl hav (by rw [← hl.size]; omega) (by omega)).or.mono ?_
  rintro r u ⟨tot, e, -, hw⟩
  have hm : Fs.Modified ip s u := ⟨hw.sb, ⟨_, _, hw.inode⟩, hw.type, hw.nlink, hw.others⟩
  refine ⟨h.modify hh.ref hm hw.cons hw.loaded (hw.exact h.exact) fun hdir => absurd ?_ ht, hm.pins hp,
    hm.frame h _⟩
  rw [← hh.type, hl.type, hdir]

theorem filewrite_sane (h : Sane s lo) (hp : Pins o s)
    (ht : Fs.dinodeType s.sb s.disk (s.inode ip).inum ≠ Fs.T_DIR) (kept : Bool) (img : Image) (src : ℕ)
    (hn : n < 2 ^ 32) : safe (filewrite kept img ip src off n) s fun _ s' => Done lo o s s' := by
  refine ((At.start h hp).ilock ip).bind ?_
  rintro _ s1 ⟨h1, -, -, -, hh1⟩
  refine (writeiUser_sane h1.sane h1.pins hh1 ht kept img src hn).bind ?_
  rintro r s2 ⟨h2, hp2, hf2⟩
  have h2 : At lo o s [] s2 := ⟨h2, hp2, h1.frame.trans hf2⟩
  exact (h2.iunlock ip).bind fun _ u hu => (wpOr_pure _).mpr hu.1.done

end Transfer

/-! ## Runs -/

theorem step_of_next {w w' : World} {e : Event} (h : next w e = some w') : Step w e w' := by
  unfold next at h
  split_ifs at h with he
  refine ⟨he, ?_⟩
  cases hc : e.code w with
  | error p =>
    rw [hc] at h
    cases h
  | ok v =>
    rw [hc] at h
    cases h
    rfl

theorem Run.of_execute {sb : Fs.Superblock} {d : Disk} {init : Files.Pid} {w : World} {es : List Event}
    (h : execute next (fun _ _ => true) (World.boot sb d init) es = some w) : Run sb d init w :=
  Reach.execute (fun _ _ _ => step_of_next) (fun _ _ _ => trivial) .init h

/-- The inodes to which the rest of the kernel has references. -/
def World.holders (w : World) : List Ino := w.cwds ++ w.files.map File.ip

/-- How many references the rest of the kernel has. -/
def World.pins (w : World) : Ino → ℕ := fun ip => w.holders.count ip

/-- The invariant: the file system is sane, it counts the references, and files that can be written are no
directories. -/
structure Ok (w : World) (lo : ℕ) : Prop where
  sane : Sane w.fs lo
  pins : Pins w.pins w.fs
  files : ∀ f ∈ w.files, Fs.dinodeType w.fs.sb w.fs.disk (w.fs.inode f.ip).inum ≠ 0 ∧
    (f.writable = true → Fs.dinodeType w.fs.sb w.fs.disk (w.fs.inode f.ip).inum ≠ Fs.T_DIR)

section Steps

variable {w w' : World} {s' : State} {lo : ℕ} {o : Ino → ℕ}

theorem count_of_perm {l l' : List Ino} {ip : Ino} (h : l.Perm (ip :: l')) :
    (fun jp => l.count jp) = pin (fun jp => l'.count jp) ip := by
  funext jp
  rw [h.count_eq]
  by_cases hj : jp = ip
  · rw [hj, Fs.pin_self, List.count_cons_self]
  · rw [Fs.pin_of_ne hj, List.count_cons_of_ne (Ne.symm hj)]

theorem pins_of_cwd {cwd : Ino} (h : cwd ∈ w.cwds) :
    w.pins = pin (World.pins { w with cwds := w.cwds.erase cwd }) cwd :=
  count_of_perm ((List.perm_cons_erase h).append_right _)

theorem pins_of_file {f : File} (h : f ∈ w.files) :
    w.pins = pin (World.pins { w with files := w.files.erase f }) f.ip :=
  count_of_perm ((((List.perm_cons_erase h).map File.ip).append_left _).trans List.perm_middle)

theorem pins_pos_of_cwd {cwd : Ino} (h : cwd ∈ w.cwds) : 0 < w.pins cwd :=
  List.count_pos_iff.mpr (List.mem_append_left _ h)

theorem pins_pos_of_file {f : File} (h : f ∈ w.files) : 0 < w.pins f.ip :=
  List.count_pos_iff.mpr (List.mem_append_right _ (List.mem_map_of_mem h))

theorem Ok.keep (h : Ok w lo) {cwds : List Ino} {files : List File} (hs : Sane s' lo)
    (hp : Pins (World.pins ⟨s', cwds, files⟩) s') (hf : Frame (fun _ => True) o w.fs s')
    (hfiles : ∀ f ∈ files, f ∈ w.files ∧ 0 < o f.ip ∨
      Fs.dinodeType s'.sb s'.disk (s'.inode f.ip).inum ≠ 0 ∧
        (f.writable = true → Fs.dinodeType s'.sb s'.disk (s'.inode f.ip).inum ≠ Fs.T_DIR)) :
    Ok ⟨s', cwds, files⟩ lo := by
  refine ⟨hs, hp, fun f hmem => ?_⟩
  obtain ⟨hold, hpos⟩ | hnew := hfiles f hmem
  · obtain ⟨h0, hdir⟩ := h.files f hold
    obtain ⟨hinum, htype⟩ := hf.kept f.ip hpos
    change Fs.dinodeType s'.sb s'.disk (s'.inode f.ip).inum ≠ 0 ∧
      (f.writable = true → Fs.dinodeType s'.sb s'.disk (s'.inode f.ip).inum ≠ Fs.T_DIR)
    rw [hinum, hf.sb, htype h0]
    exact ⟨h0, hdir⟩
  · exact hnew

theorem Ok.done (h : Ok w lo) (hd : Done lo w.pins w.fs s') : Ok { w with fs := s' } lo :=
  h.keep hd.sane hd.pins hd.frame fun _ hf => .inl ⟨hf, pins_pos_of_file hf⟩

theorem World.call_cases {α : Type} {x : F α} {u : α → World → World} {P : World → Prop}
    (h : safe x w.fs fun r s' => P (u r { w with fs := s' })) :
    (∀ e, w.call x u = .error e → Fine e) ∧ ∀ w', w.call x u = .ok w' → P w' := by
  unfold World.call
  cases hr : x.run w.fs with
  | error e =>
    refine ⟨fun e' he => ?_, fun w' hw => by cases hw⟩
    cases he
    exact h.of_error hr
  | ok r =>
    refine ⟨fun e' he => (by cases he), fun w' hw => ?_⟩
    cases hw
    exact h.of_run hr

/-- A call that leaves the files and the directories in use as they are keeps the invariant. -/
theorem Ok.call_done {α : Type} {x : F α} (h : Ok w lo)
    (hx : safe x w.fs fun _ s' => Done lo w.pins w.fs s') :
    (∀ e, (w.call x fun _ w => w) = .error e → Fine e) ∧
      ∀ w', (w.call x fun _ w => w) = .ok w' → Ok w' lo :=
  World.call_cases (P := (Ok · lo)) (hx.mono fun _ _ => h.done)

/-- Every event keeps the invariant, and panics neither in `bfree` nor in `bmap`. -/
theorem Ok.step (h : Ok w lo) {e : Event} (he : e.enabled w) :
    (∀ p, e.code w = .error p → Fine p) ∧ ∀ w', e.code w = .ok w' → Ok w' lo := by
  cases e with
  | «open» cwd path omode full =>
    rw [Event.code]
    refine World.call_cases (P := (Ok · lo)) ((openCall_sane h.sane h.pins (pins_pos_of_cwd he) path omode full).mono ?_)
    rintro r s' ⟨hs, hp, hf, hr⟩
    cases r with
    | none => exact h.done ⟨hs, hp, hf⟩
    | some r =>
      obtain ⟨ip, b⟩ := r
      refine h.keep hs ?_ hf fun f hmem => ?_
      · have : World.pins ⟨s', w.cwds, openedFile omode (ip, b) :: w.files⟩ = pin w.pins ip :=
          count_of_perm List.perm_middle
        change Pins (World.pins ⟨s', w.cwds, openedFile omode (ip, b) :: w.files⟩) s'
        rw [this]
        exact hp
      · obtain rfl | hmem := List.mem_cons.mp hmem
        · exact .inr (hr ip b rfl)
        · exact .inl ⟨hmem, pins_pos_of_file hmem⟩
  | close f =>
    rw [Event.code]
    have hpins := h.pins
    rw [pins_of_file he] at hpins
    refine World.call_cases (P := (Ok · lo)) ((Fs.iput_sane h.sane hpins).mono ?_)
    rintro _ s' ⟨hs, hp, hf⟩
    refine h.keep hs hp (hf.all fun _ => le_rfl) fun g hg => .inl ⟨List.mem_of_mem_erase hg, ?_⟩
    exact pins_pos_of_file (w := { w with files := w.files.erase f }) hg
  | mknode cwd path type major minor =>
    exact h.call_done (Fs.mknode_sane h.sane h.pins (pins_pos_of_cwd he) path type major minor)
  | link cwd old new =>
    exact h.call_done (Fs.link_sane h.sane h.pins (pins_pos_of_cwd he) old new)
  | unlink cwd path =>
    exact h.call_done (Fs.unlink_sane h.sane h.pins (pins_pos_of_cwd he) path)
  | chdir cwd path =>
    rw [Event.code]
    have hpins := h.pins
    rw [pins_of_cwd he] at hpins
    refine World.call_cases (P := (Ok · lo)) ((Fs.chdir_sane h.sane hpins path).mono ?_)
    rintro r s' ⟨hs, hp, hf⟩
    refine h.keep hs ?_ hf fun f hmem => .inl ⟨hmem, ?_⟩
    · have : World.pins ⟨s', r.getD cwd :: w.cwds.erase cwd, w.files⟩ =
          pin (World.pins { w with cwds := w.cwds.erase cwd }) (r.getD cwd) := count_of_perm (.refl _)
      change Pins (World.pins ⟨s', r.getD cwd :: w.cwds.erase cwd, w.files⟩) s'
      rw [this]
      cases r with
      | none | some ip => exact hp
    · exact pins_pos_of_file (w := { w with cwds := w.cwds.erase cwd }) hmem
  | exec cwd path reads bad late =>
    refine h.call_done (Fs.exec_sane h.sane h.pins (pins_pos_of_cwd he) path _ (fun r hr => ?_) bad late)
    obtain ⟨⟨off, n⟩, -, rfl⟩ := List.mem_map.mp hr
    exact ⟨off.toNat_lt, n.toNat_lt⟩
  | fork cwd =>
    rw [Event.code]
    refine World.call_cases (P := (Ok · lo)) ((Fs.idup_sane h.sane h.pins (pins_pos_of_cwd he)).mono ?_)
    rintro _ s' ⟨-, hs, hp, hf, -⟩
    refine h.keep hs ?_ (hf.all fun _ => le_rfl) fun f hmem => .inl ⟨hmem, pins_pos_of_file hmem⟩
    have : World.pins ⟨s', cwd :: w.cwds, w.files⟩ = pin w.pins cwd := count_of_perm (.refl _)
    change Pins (World.pins ⟨s', cwd :: w.cwds, w.files⟩) s'
    rw [this]
    exact hp
  | exit cwd =>
    rw [Event.code]
    have hpins := h.pins
    rw [pins_of_cwd he] at hpins
    refine World.call_cases (P := (Ok · lo)) ((Fs.iput_sane h.sane hpins).mono ?_)
    rintro _ s' ⟨hs, hp, hf⟩
    refine h.keep hs hp (hf.all fun _ => le_rfl) fun f hmem => .inl ⟨hmem, ?_⟩
    exact pins_pos_of_file (w := { w with cwds := w.cwds.erase cwd }) hmem
  | read f off n =>
    exact h.call_done ((fileread_sane h.sane h.pins f.ip off.toNat_lt n.toNat_lt).mono fun _ _ hd => hd.1)
  | write f kept img src off n =>
    exact h.call_done (filewrite_sane h.sane h.pins ((h.files f he.1).2 he.2.2) kept img src n.toNat_lt)

end Steps

/-! ## Consistent disks -/

/-- A disk with a consistent file system: block numbers are stored once and in the data area, from `lo` on,
the bitmap is exact, files have no holes, and directories have whole entries that name inodes of the
table. -/
structure Intact (sb : Fs.Superblock) (d : Disk) (lo : ℕ) : Prop where
  cons : ∀ inode, Fs.Consistent ⟨sb, d, inode⟩ lo
  exact : ∀ inode, Fs.Exact ⟨sb, d, inode⟩ lo
  root : Fs.ROOTINO < sb.ninodes
  dirs : ∀ inode i, Fs.Live ⟨sb, d, inode⟩ i → Fs.dinodeType sb d i = Fs.T_DIR → Fs.DirOk ⟨sb, d, inode⟩ i

section Disks

variable {sb : Fs.Superblock} {d : Disk} {lo : ℕ} {init : Files.Pid} {w : World}

theorem Intact.ok (h : Intact sb d lo) (init : Files.Pid) : Ok (World.boot sb d init) lo := by
  -- One entry of the inode table is in use, for the root directory.
  obtain ⟨ip, hholders, hself, hother⟩ : ∃ ip : Ino, (World.boot sb d init).holders = [ip] ∧
      (World.boot sb d init).fs.inode ip = ⟨ROOTDEV, Fs.ROOTINO, 1, false, false, 0, 0, 0, 0, 0, fun _ => 0⟩ ∧
      ∀ jp, jp ≠ ip → (World.boot sb d init).fs.inode jp =
        ⟨0, 0, 0, false, false, 0, 0, 0, 0, 0, fun _ => 0⟩ := by
    unfold World.holders World.boot Files.World.boot
    refine ⟨⟨0, by decide⟩, ?_, ?_, fun jp hj => ?_⟩
    · simp only [update_self]
      rfl
    · simp only [update_self]
    · simp only [update_of_ne hj]
  have hused : ∀ jp, 0 < ((World.boot sb d init).fs.inode jp).ref → jp = ip := by
    intro jp hr
    by_contra hj
    rw [hother jp hj] at hr
    exact absurd hr (lt_irrefl 0)
  refine ⟨⟨h.cons _, h.exact _, h.root, h.dirs _, fun jp => ?_, fun jp hr => ?_, fun jp jp' hr hr' _ => ?_,
    fun jp hr hv => ?_⟩, fun jp => ?_, fun f hf => by cases hf⟩
  · by_cases hj : jp = ip
    · rw [hj, hself]
      exact h.root
    · rw [hother jp hj]
      exact lt_trans (by decide) h.root
  · rw [hused jp hr, hself]
  · rw [hused jp hr, hused jp' hr']
  · rw [hused jp hr, hself] at hv
    cases hv
  · unfold World.pins
    rw [hholders]
    by_cases hj : jp = ip
    · rw [hj, hself, List.count_cons_self, List.count_nil]
      rfl
    · rw [hother jp hj, List.count_cons_of_ne (Ne.symm hj), List.count_nil]
      rfl

theorem Run.ok (hr : Run sb d init w) (h : Intact sb d lo) : Ok w lo :=
  Reach.invariant (P := (Ok · lo)) (h.ok init) (fun _ _ _ hok _ hst => (hok.step hst.1).2 _ hst.2) hr

/-- `balloc` returns no block that is stored somewhere, as those are marked. -/
theorem balloc_unowned {s : State} {A : Fs.Addrs} (hg : Fs.Geometry s.sb lo) (hpos : 0 < lo)
    (hlow : ∀ b, b < lo → Fs.marked s.sb s.disk b = true)
    (hstored : ∀ i k, k < Fs.NSLOT → Fs.ptr A s.disk i k ≠ 0 →
      Fs.marked s.sb s.disk (Fs.ptr A s.disk i k) = true) :
    wp Fs.balloc s fun b _ => b = 0 ∨ lo ≤ b ∧ b < s.sb.size ∧ Fs.Unowned A s.disk b := by
  refine (Fs.balloc_spec hg hlow).mono ?_
  rintro b t (⟨hb, -⟩ | ⟨hlo, hlt, hfree, -⟩)
  · exact .inl hb
  · refine .inr ⟨hlo, hlt, fun i k hk heq => ?_⟩
    have := hstored i k hk (by omega)
    rw [heq, hfree] at this
    cases this

/-- **Block ownership.** Take any run of system calls and file transfers on a consistent disk. Every block
number that an allocated inode stores, in its addresses or in its indirect block, is in the data area, and no
block number is stored in two places. The bit of a block of the data area is set exactly when the block is
stored in one. No call panics as it frees a free block, and `balloc` returns a block of the data area that is
stored nowhere, or 0; the same holds inside a call, when an inode in memory is ahead of the disk. -/
theorem block_ownership (h : Intact sb d lo) (hr : Run sb d init w) :
    Fs.Owns w.fs.diskAddrs w.fs.disk lo w.fs.sb.size ∧
    (∀ b, lo ≤ b → b < w.fs.sb.size → (Fs.marked w.fs.sb w.fs.disk b = true ↔
      ∃ i k, k < Fs.NSLOT ∧ Fs.ptr w.fs.diskAddrs w.fs.disk i k = b)) ∧
    (∀ e : Event, e.enabled w → e.code w ≠ .error .bfree) ∧
    (wp Fs.balloc w.fs fun b _ => b = 0 ∨
      lo ≤ b ∧ b < w.fs.sb.size ∧ Fs.Unowned w.fs.diskAddrs w.fs.disk b) ∧
    ∀ s ip, Fs.Volume s ip lo → wp Fs.balloc s fun b _ => b = 0 ∨
      lo ≤ b ∧ b < s.sb.size ∧ Fs.Unowned (s.addrs ip) s.disk b := by
  have hok := hr.ok h
  have hs := hok.sane
  refine ⟨hs.cons.owns, fun b hlo hlt => ⟨hs.exact b hlo hlt, ?_⟩, fun e he herr => ?_, ?_, fun s ip hv => ?_⟩
  · rintro ⟨i, k, hk, rfl⟩
    have hpos := hs.cons.pos
    exact hs.cons.stored i k hk (by omega)
  · exact ((hok.step he).1 _ herr).1 rfl
  · exact balloc_unowned hs.cons.geom hs.cons.pos hs.cons.low hs.cons.stored
  · exact balloc_unowned hv.geom hv.pos hv.low hv.stored

/-- The first process. -/
def initproc : Files.Pid := ⟨0, Nat.succ_pos 63⟩

/-- Its current directory. -/
def rootip : Ino := ⟨0, Nat.succ_pos 49⟩

theorem intact_oneFile : Intact (Fs.oneFile Fs.T_DIR 32).sb (Fs.oneFile Fs.T_DIR 32).disk 2 := by
  refine ⟨fun inode => (Fs.consistent_oneFile (by decide) (by decide)).of_disk rfl rfl,
    fun inode b hlo hlt hm => ?_, by decide, fun inode i hl ht => ?_⟩
  · change b < 4 at hlt
    obtain rfl | rfl : b = 2 ∨ b = 3 := by omega
    · exact ⟨1, 0, by decide, (Fs.ptr_oneFile (by decide) 1 0).trans (if_pos ⟨rfl, rfl⟩)⟩
    · change Fs.marked (Fs.oneFile Fs.T_DIR 32).sb (Fs.oneFile Fs.T_DIR 32).disk 3 = true at hm
      exact absurd hm (by decide +kernel)
  · obtain rfl := (Fs.live_oneFile (by decide) i).mp hl
    have hsize : (Fs.oneFile Fs.T_DIR 32).fsize 1 = 32 := Fs.fsize_oneFile (by decide)
    constructor
    · change (Fs.oneFile Fs.T_DIR 32).fsize 1 % Fs.DIRENT = 0
      rw [hsize]
      rfl
    · intro j hj
      by_contra hge
      apply Fs.not_live_oneFile rootip j
      refine ⟨hj, fun h0 => hge ?_⟩
      change ((Fs.oneFile Fs.T_DIR 32).dir rootip).inum j < 2
      rw [h0]
      decide

theorem run_oneFile : ∃ w, Run (Fs.oneFile Fs.T_DIR 32).sb (Fs.oneFile Fs.T_DIR 32).disk initproc w ∧
    w.files = [⟨rootip, false, false⟩] := by
  have h : ((execute next (fun _ _ => true)
      (World.boot (Fs.oneFile Fs.T_DIR 32).sb (Fs.oneFile Fs.T_DIR 32).disk initproc)
      [.open rootip [] 0 false]).map World.files) = some [⟨rootip, false, false⟩] := by decide +kernel
  obtain ⟨w, hw, hfiles⟩ := Option.map_eq_some_iff.mp h
  exact ⟨w, .of_execute hw, hfiles⟩

/-- With the root directory open, every block is stored once. -/
theorem block_ownership_oneFile : ∃ w, w.files = [⟨rootip, false, false⟩] ∧
    Fs.Owns w.fs.diskAddrs w.fs.disk 2 w.fs.sb.size ∧ ∀ e : Event, e.enabled w → e.code w ≠ .error .bfree := by
  obtain ⟨w, hr, hfiles⟩ := run_oneFile
  obtain ⟨howns, -, hfree, -⟩ := block_ownership intact_oneFile hr
  exact ⟨w, hfiles, howns, hfree⟩

/-- Every file has the blocks that its size needs. -/
def NoHoles (s : State) : Prop :=
  ∀ i, Fs.Live s i → ∀ bn, bn * BSIZE < s.fsize i → Fs.ptr s.diskAddrs s.disk i (Fs.slotOf bn) ≠ 0

/-- **Files have no holes.** In every run on a consistent disk, every file has the blocks that its size
needs and is no larger than the largest file. `readi` of an inode in memory returns the bytes of the file
and changes nothing, so that it allocates nothing; a read through an open file leaves the disk alone, and
no call panics in `bmap`. -/
theorem files_have_no_holes (h : Intact sb d lo) (hr : Run sb d init w) :
    NoHoles w.fs ∧ (∀ i, Fs.Live w.fs i → w.fs.fsize i ≤ Fs.MAXFILE * BSIZE) ∧
    (∀ ip, 0 < (w.fs.inode ip).ref → (w.fs.inode ip).valid = true → ∀ off n : UInt32,
      wp (Fs.readi ip off.toNat n.toNat) w.fs fun r s' => s' = w.fs ∧
        r = if w.fs.fsize (w.fs.inode ip).inum < off.toNat ∨ 2 ^ 32 ≤ off.toNat + n.toNat then []
          else (List.range (min n.toNat (w.fs.fsize (w.fs.inode ip).inum - off.toNat))).map fun k =>
            w.fs.content (w.fs.inode ip).inum (off.toNat + k)) ∧
    (∀ f off n w', Step w (.read f off n) w' → w'.fs.disk = w.fs.disk) ∧
    ∀ e : Event, e.enabled w → e.code w ≠ .error .bmap := by
  have hok := hr.ok h
  have hs := hok.sane
  refine ⟨hs.cons.blocks, hs.cons.size, fun ip hpos hv off n => ?_, fun f off n w' hstep => ?_,
    fun e he herr => ((hok.step he).1 _ herr).2 rfl⟩
  · exact Fs.readi_spec hs.cons (hs.loaded ip hpos hv) off.toNat_lt n.toNat_lt
  · have hread := (fileread_sane hs hok.pins f.ip off.toNat_lt n.toNat_lt).mono fun _ _ h => h.2
    have hcode := hstep.2
    rw [Event.code] at hcode
    refine (World.call_cases (P := fun w' => w'.fs.disk = w.fs.disk) ?_).2 w' hcode
    exact hread

/-- With the root directory open, no file has a hole. -/
theorem files_have_no_holes_oneFile : ∃ w, w.files = [⟨rootip, false, false⟩] ∧ NoHoles w.fs ∧
    ∀ e : Event, e.enabled w → e.code w ≠ .error .bmap := by
  obtain ⟨w, hr, hfiles⟩ := run_oneFile
  obtain ⟨hholes, -, -, -, hmap⟩ := files_have_no_holes intact_oneFile hr
  exact ⟨w, hfiles, hholes, hmap⟩

end Disks

/-! ## A disk that is not consistent -/

/-- The superblock is in block 1, the log in block 2, the inodes in block 3 and the bitmap in block 4. -/
def crossedSb : Fs.Superblock := { size := 40, ninodes := 4, inodestart := 3, bmapstart := 4 }

/-- What `setDinode` stores of an inode. -/
def dinode (type nlink size : ℕ) (addrs : ℕ → ℕ) : Fs.Inode :=
  ⟨0, 0, 0, false, false, type, 0, 0, nlink, size, addrs⟩

/-- A disk without holes. The root directory, in block 5, has an entry for the file `f`, whose block is 32.
Another file of 14 blocks has the bitmap as its indirect block. The bitmap is right: the blocks up to 17
and block 32 are in use. -/
def crossed : Disk :=
  let bitmap : Block := (Bytes.fill BSIZE 0).splice 0 5 fun k => [0xff, 0xff, 3, 0, 1].getD k 0
  let entries : Block := (((Bytes.fill BSIZE 0).splice 0 3 fun k => [1, 0, 46].getD k 0).splice 16 4
    fun k => [1, 0, 46, 46].getD k 0).splice 32 3 fun k => [2, 0, 102].getD k 0
  let blank : Disk := update (update (fun _ => Bytes.fill BSIZE 0) 4 bitmap) 5 entries
  let root := Fs.setDinode crossedSb blank 1 (dinode Fs.T_DIR 1 48 fun k => if k = 0 then 5 else 0)
  let file := Fs.setDinode crossedSb root 2 (dinode Fs.T_FILE 1 1 fun k => if k = 0 then 32 else 0)
  Fs.setDinode crossedSb file 3 (dinode Fs.T_FILE 1 (14 * BSIZE) fun k => if k = Fs.NDIRECT then 4 else 6 + k)

theorem noHoles_crossed : NoHoles (World.boot crossedSb crossed initproc).fs := by
  have hall : ∀ i, i < 4 → (World.boot crossedSb crossed initproc).fs.fsize i ≤ 14 * BSIZE ∧
      ∀ bn, bn < 14 → Fs.Live (World.boot crossedSb crossed initproc).fs i →
        bn * BSIZE < (World.boot crossedSb crossed initproc).fs.fsize i →
        Fs.ptr (World.boot crossedSb crossed initproc).fs.diskAddrs
          (World.boot crossedSb crossed initproc).fs.disk i (Fs.slotOf bn) ≠ 0 := by decide +kernel
  intro i hl bn hbn
  obtain ⟨hsize, hptr⟩ := hall i hl.1
  exact hptr bn (Nat.lt_of_mul_lt_mul_right (hbn.trans_le hsize)) hl hbn

/-- `unlink("f")` drops the last link, so that `iput` frees the block of the file. This clears the second
word of the bitmap, which is the last address of the other file. -/
theorem hole_after_iput : ¬ ∀ (sb : Fs.Superblock) (d : Disk) (init : Files.Pid),
    NoHoles (World.boot sb d init).fs → ∀ w, Run sb d init w → NoHoles w.fs := by
  intro hall
  have h : ((execute next (fun _ _ => true) (World.boot crossedSb crossed initproc)
      [.unlink rootip [102]]).map fun w =>
        decide (Fs.Live w.fs 3 ∧ 13 * BSIZE < w.fs.fsize 3 ∧
          Fs.ptr w.fs.diskAddrs w.fs.disk 3 (Fs.slotOf 13) = 0)) = some true := by decide +kernel
  obtain ⟨w, hw, hhole⟩ := Option.map_eq_some_iff.mp h
  obtain ⟨hl, hsize, hptr⟩ := of_decide_eq_true hhole
  exact hall crossedSb crossed initproc noHoles_crossed w (.of_execute hw) 3 hl 13 hsize hptr

end Xv6.Storage
