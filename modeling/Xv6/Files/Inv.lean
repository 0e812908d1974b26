import Xv6.Files.Calls
import Xv6.Fs.Refs

/-!
# The references to files, pipes and inodes

Descriptors point to files, files to the ends of pipes and to inodes, and processes to their current
directories. `Inv w x y` says that the reference counts of files and inodes are the numbers of these
pointers, apart from those that the running code holds in variables of its own: `x` for files and `y`
for inodes. A count that lags behind its pointers shows as a negative number there.
-/

namespace Xv6.Files

open Function Lib
open Fs (Ino F)

/-- The files of all descriptors. -/
def World.slot (w : World) : Pid × Fd → Option Fid := fun z => (w.proc z.1).ofile z.2

/-- The current directories. -/
def World.cwd (w : World) : Pid → Option Ino := fun p => (w.proc p).cwd

/-- The inode of an open file. -/
def File.inode (x : File) : Option Ino :=
  if 0 < x.ref ∧ (x.type = .inode ∨ x.type = .device) then some x.ip else none

/-- The inodes of the open files. -/
def World.opened (w : World) : Fid → Option Ino := fun f => (w.file f).inode

/-- The end of a pipe that an open file is: the pipe, and whether it is the write end. -/
def File.pipeEnd (x : File) : Option (ℕ × Bool) :=
  if 0 < x.ref ∧ x.type = .pipe then some (x.pipe, x.writable) else none

/-- The ends of pipes that the open files are. -/
def World.ends (w : World) : Fid → Option (ℕ × Bool) := fun f => (w.file f).pipeEnd

/-- Whether an end of the pipe is open. -/
def Pipe.isOpen (pi : Pipe) (writable : Bool) : Bool := if writable then pi.writeopen else pi.readopen

/-- The references are right. -/
structure Inv (w : World) (x : Fid → ℤ) (y : Ino → ℤ) : Prop where
  refs : ∀ f, ((w.file f).ref : ℤ) = tally w.slot f + x f
  unused : ∀ f, (w.file f).ref = 0 → (w.file f).type = .none
  modes : ∀ f, (w.file f).type = .pipe → (w.file f).readable = !(w.file f).writable
  ends : ∀ a b, tally w.ends (a, b) = (w.pipe a).elim 0 fun pi => if pi.isOpen b then 1 else 0
  alive : ∀ a pi, w.pipe a = some pi → pi.readopen = true ∨ pi.writeopen = true
  freed : ∀ a, w.allocs a = w.frees a + if (w.pipe a).isSome then 1 else 0
  inodes : ∀ e, w.fs.ref e = tally w.opened e + tally w.cwd e + y e

/-- A live process has a current directory; the others have nothing. -/
structure Tidy (p : Proc) : Prop where
  live : p.life = .live → p.cwd ≠ none
  other : p.life ≠ .live → p.cwd = none ∧ ∀ fd, p.ofile fd = none

/-- The panics that can happen: those of the file system, and of the first process exiting. -/
def Allowed : Panic → Prop
  | .fs _ | .initExiting => True
  | _ => False

/-- The code does not end in another panic, and returns with `Q`. -/
abbrev post {α : Type} (c : W α) (w : World) (Q : α → World → Prop) : Prop := wpOr Allowed c w Q

section Rules

variable {α : Type} {w w' : World} {x x' : Fid → ℤ} {y y' : Ino → ℤ} {f : Fid} {p : Pid}

theorem post_fs {c : F α} {P : α → Fs.State → Prop} (h : Fs.post c w.fs P) :
    post (fs c) w fun a w' => ∃ s, w' = { w with fs := s } ∧ P a s := by
  unfold Fs.post post at *
  cases hrun : c.run w.fs with
  | error e =>
    have : (fs c).run w = .error (.fs e) := by
      change fs c w = _
      rw [fs, hrun]
    exact wpOr.intro_error this trivial
  | ok r =>
    have : (fs c).run w = .ok (r.1, { w with fs := r.2 }) := by
      change fs c w = _
      rw [fs, hrun]
    exact wpOr.intro_ok this ⟨r.2, rfl, h.of_run hrun⟩

/-- The process with descriptor `fd` set. -/
def Proc.withFd (pr : Proc) (fd : Fd) (o : Option Fid) : Proc :=
  { pr with ofile := update pr.ofile fd o }

/-- The world with a process replaced. -/
def World.withProc (w : World) (p : Pid) (pr : Proc) : World :=
  { w with proc := update w.proc p pr }

theorem slot_withFd (w : World) (p : Pid) (fd : Fd) (o : Option Fid) :
    (w.withProc p ((w.proc p).withFd fd o)).slot = update w.slot (p, fd) o := by
  funext ⟨q, fd'⟩
  by_cases hq : q = p
  · subst hq
    by_cases hfd : fd' = fd
    · subst hfd
      simp [World.slot, World.withProc, Proc.withFd]
    · simp [World.slot, World.withProc, Proc.withFd, hfd]
  · simp [World.slot, World.withProc, hq]

theorem cwd_withProc (w : World) (p : Pid) (pr : Proc) :
    (w.withProc p pr).cwd = update w.cwd p pr.cwd := by
  funext q
  by_cases hq : q = p
  · subst hq
    simp [World.cwd, World.withProc]
  · simp [World.cwd, World.withProc, hq]

theorem Inv.setFd (h : Inv w x y) (x' : Fid → ℤ) (fd : Fd) (o : Option Fid)
    (hx : ∀ f, x' f + pointsTo o f = x f + pointsTo ((w.proc p).ofile fd) f) :
    post (setFd p fd o) w fun _ w' =>
      w' = w.withProc p ((w.proc p).withFd fd o) ∧ Inv w' x' y := by
  refine (wpOr_modify _).mpr ⟨rfl, fun f => ?_, h.unused, h.modes, h.ends, h.alive, h.freed,
    fun e => ?_⟩
  · have htally := tally_update w.slot (p, fd) o f
    have hrefs := h.refs f
    have := hx f
    rw [← slot_withFd] at htally
    change tally _ f + pointsTo ((w.proc p).ofile fd) f = _ at htally
    change ((w.file f).ref : ℤ) = tally (w.withProc p ((w.proc p).withFd fd o)).slot f + _
    omega
  · have hcwd : (w.withProc p ((w.proc p).withFd fd o)).cwd = w.cwd := by
      rw [cwd_withProc]
      exact update_eq_self p w.cwd
    have := h.inodes e
    rwa [← hcwd] at this

theorem Inv.setFile (h : Inv w x y) (g : File) (pipe' : ℕ → Option Pipe)
    (allocs' frees' : ℕ → ℕ) (fs' : Fs.State) (href : (g.ref : ℤ) + x f = (w.file f).ref + x' f)
    (hother : ∀ e, e ≠ f → x' e = x e) (hnone : g.ref = 0 → g.type = .none)
    (hmodes : g.type = .pipe → g.readable = !g.writable)
    (hends : ∀ a b, tally w.ends (a, b) + pointsTo g.pipeEnd (a, b) =
      pointsTo (w.file f).pipeEnd (a, b) +
        (pipe' a).elim 0 fun pi => if pi.isOpen b then 1 else 0)
    (halive : ∀ a pi, pipe' a = some pi → pi.readopen = true ∨ pi.writeopen = true)
    (hfreed : ∀ a, allocs' a = frees' a + if (pipe' a).isSome then 1 else 0)
    (hinodes : ∀ e, fs'.ref e + pointsTo (w.file f).inode e =
      w.fs.ref e + pointsTo g.inode e - y e + y' e) :
    Inv ⟨fs', update w.file f g, pipe', w.proc, w.initproc, allocs', frees'⟩ x' y' := by
  have hendsEq : World.ends ⟨fs', update w.file f g, pipe', w.proc, w.initproc, allocs',
      frees'⟩ = update w.ends f g.pipeEnd := by
    funext e
    by_cases he : e = f <;> simp [World.ends, he]
  have hopened : World.opened ⟨fs', update w.file f g, pipe', w.proc, w.initproc, allocs',
      frees'⟩ = update w.opened f g.inode := by
    funext e
    by_cases he : e = f <;> simp [World.opened, he]
  refine ⟨fun e => ?_, fun e he => ?_, fun e he => ?_, fun a b => ?_, halive, hfreed, fun e => ?_⟩
  · have := h.refs e
    change ((update w.file f g e).ref : ℤ) = tally w.slot e + _
    rw [update_apply]
    grind
  · have := h.unused e
    simp only [update_apply] at he ⊢
    grind
  · have := h.modes e
    simp only [update_apply] at he ⊢
    grind
  · have htally := tally_update w.ends f g.pipeEnd (a, b)
    have := hends a b
    rw [hendsEq]
    change tally _ _ + pointsTo (w.file f).pipeEnd (a, b) = _ at htally
    dsimp only
    omega
  · have htally := tally_update w.opened f g.inode e
    have hrefs := h.inodes e
    have := hinodes e
    rw [hopened]
    change tally _ _ + pointsTo (w.file f).inode e = _ at htally
    change fs'.ref e = _ + (tally w.cwd e : ℤ) + _
    omega

end Rules

/-! ## Files -/

section Files

variable {w : World} {x : Fid → ℤ} {y : Ino → ℤ}

theorem File.pipeEnd_of_ref {g : File} (h : g.ref = 0) : g.pipeEnd = none := by
  simp [File.pipeEnd, h]

theorem File.inode_of_ref {g : File} (h : g.ref = 0) : g.inode = none := by
  simp [File.inode, h]

theorem Inv.setRef (h : Inv w x y) (f : Fid) (n : ℕ) (hn : n ≠ 0) (x' : Fid → ℤ)
    (hx : (n : ℤ) + x f = (w.file f).ref + x' f) (hother : ∀ e, e ≠ f → x' e = x e) :
    Inv { w with file := update w.file f { w.file f with ref := n } } x' y := by
  have hpos : 0 < n := Nat.pos_of_ne_zero hn
  have hsame : ∀ g : File, g = { w.file f with ref := n } →
      g.pipeEnd = (w.file f).pipeEnd ∧ g.inode = (w.file f).inode := by
    rintro g rfl
    by_cases hzero : (w.file f).ref = 0
    · -- A file without references has no type.
      have htype := h.unused f hzero
      simp [File.pipeEnd, File.inode, hzero, htype]
    · have : 0 < (w.file f).ref := Nat.pos_of_ne_zero hzero
      simp [File.pipeEnd, File.inode, hpos, this]
  obtain ⟨hend, hinode⟩ := hsame _ rfl
  refine h.setFile _ w.pipe w.allocs w.frees w.fs hx hother (fun h0 => absurd h0 hn) (h.modes f)
    (fun a b => ?_) h.alive h.freed fun e => ?_
  · rw [hend, h.ends a b]
    omega
  · rw [hinode]
    omega

/-- The world with a file that has just been taken. -/
def World.taken (w : World) (f : Fid) : World :=
  { w with file := update w.file f { w.file f with ref := 1 } }

/-- `filealloc`: the code has a file that was not in use. -/
theorem filealloc_spec (h : Inv w x y) : post filealloc w fun o w' =>
    o = none ∧ w' = w ∨ ∃ f, o = some f ∧ (w.file f).ref = 0 ∧ w' = w.taken f ∧
      Inv w' (x + Pi.single f 1) y := by
  refine wpOr_get_bind.mpr ?_
  split
  · exact (wpOr_pure _).mpr (.inl ⟨rfl, rfl⟩)
  · next f hfind =>
    have hzero : (w.file f).ref = 0 := by simpa using List.find?_some hfind
    refine (wpOr_modify_bind _).mpr ((wpOr_pure _).mpr (.inr ⟨f, rfl, hzero, rfl, ?_⟩))
    exact h.setRef f 1 one_ne_zero _ (by simp [hzero, add_comm]) fun e he => by simp [he]

/-- `filedup` adds a reference, which the caller holds. -/
theorem filedup_spec (h : Inv w x y) (f : Fid) (hf : 0 < (tally w.slot f : ℤ) + x f) :
    post (filedup f) w fun _ w' => w'.proc = w.proc ∧ w'.fs = w.fs ∧ w'.pipe = w.pipe ∧
      Inv w' (x + Pi.single f 1) y := by
  have hrefs := h.refs f
  refine wpOr_get_bind.mpr (.ite (fun hlt => ?_) fun _ => (wpOr_modify _).mpr
    ⟨rfl, rfl, rfl, ?_⟩)
  · omega
  · exact h.setRef f _ (Nat.succ_ne_zero _) _ (by push_cast; simp; ring) fun e he => by simp [he]

/-- Closing an end of a pipe. -/
def Pipe.close (pi : Pipe) (b : Bool) : Pipe :=
  if b then { pi with writeopen := false } else { pi with readopen := false }

theorem Pipe.isOpen_close (pi : Pipe) (b c : Bool) :
    (pi.close b).isOpen c = (pi.isOpen c && decide (c ≠ b)) := by
  cases b <;> cases c <;> simp [Pipe.isOpen, Pipe.close]

/-- What closing an end leaves of a pipe. -/
def Pipe.rest (pi : Pipe) (b : Bool) : Option Pipe :=
  if (pi.close b).readopen = false ∧ (pi.close b).writeopen = false then none else some (pi.close b)

theorem Pipe.rest_isOpen (pi : Pipe) (b c : Bool) :
    ((pi.rest b).elim 0 fun q => if q.isOpen c then 1 else 0) =
      if pi.isOpen c ∧ c ≠ b then 1 else 0 := by
  have hclose := pi.isOpen_close b c
  unfold Pipe.rest
  split_ifs with hboth hc hc
  · have : (pi.close b).isOpen c = false := by
      cases c
      · exact hboth.1
      · exact hboth.2
    rw [this] at hclose
    simp [hc.1, hc.2] at hclose
  · rfl
  · simp [hclose, hc.1, hc.2]
  · rw [Option.elim_some, if_neg]
    rw [hclose]
    simpa using hc

/-- What dropping the last reference to a file leaves. -/
def File.closed (g : File) : File := { g with ref := 0, type := .none }

theorem Inv.closePipe (h : Inv w x y) {f : Fid} {x' : Fid → ℤ} {a : ℕ} {b : Bool} {pi : Pipe}
    (hx : ((0 : ℕ) : ℤ) + x f = (w.file f).ref + x' f) (hother : ∀ e, e ≠ f → x' e = x e)
    (hend : (w.file f).pipeEnd = some (a, b)) (hinode : (w.file f).inode = none)
    (hpi : w.pipe a = some pi) :
    Inv { w with
      file := update w.file f (w.file f).closed
      pipe := update w.pipe a (pi.rest b)
      frees := if (pi.rest b).isNone then update w.frees a (w.frees a + 1) else w.frees }
      x' y := by
  have hopen : pi.isOpen b = true := by
    have hpos : 0 < tally w.ends (a, b) := tally_pos (i := f) hend
    rw [h.ends, hpi] at hpos
    by_contra hclosed
    simp [hclosed] at hpos
  refine h.setFile _ _ w.allocs _ w.fs hx hother (fun _ => rfl) (by rintro ⟨⟩) (fun a' b' => ?_)
    (fun a' q hq => ?_) (fun a' => ?_) fun e => ?_
  · rw [File.pipeEnd_of_ref rfl, pointsTo_none, hend, h.ends a' b', add_zero]
    by_cases ha : a' = a
    · subst ha
      rw [hpi, update_self, Pipe.rest_isOpen, Option.elim_some]
      by_cases hb : b' = b
      · subst hb
        simp [hopen]
      · have hne : (some (a', b) : Option (ℕ × Bool)) ≠ some (a', b') := by simp [Ne.symm hb]
        rw [pointsTo_of_ne hne]
        simp [hb]
    · have hne : (some (a, b) : Option (ℕ × Bool)) ≠ some (a', b') := by simp [Ne.symm ha]
      rw [pointsTo_of_ne hne, update_of_ne ha, zero_add]
  · have := h.alive a' q
    rw [update_apply, Pipe.rest] at hq
    grind
  · have hfreed := h.freed a'
    by_cases ha : a' = a
    · subst ha
      rw [hpi] at hfreed
      rw [update_self]
      cases hrest : pi.rest b with
      | none | some q => simpa using hfreed
    · rw [update_of_ne ha]
      split_ifs at hfreed ⊢ <;> simp_all
  · rw [hinode, File.inode_of_ref rfl]
    simp

/-- The last reference to a file is dropped, and its pipe end is closed or its inode put. -/
theorem fileclose_spec (h : Inv w x y) (f : Fid) (hf : 0 < (tally w.slot f : ℤ) + x f) :
    post (fileclose f) w fun _ w' => w'.proc = w.proc ∧ w'.fs.locked = w.fs.locked ∧
      Inv w' (x - Pi.single f 1) y := by
  have hrefs := h.refs f
  set x' : Fid → ℤ := x - Pi.single f 1 with hx'
  have hother : ∀ e, e ≠ f → x' e = x e := fun e he => by simp [hx', he]
  have hself : x' f = x f - 1 := by simp [hx']
  refine wpOr_get_bind.mpr (.ite (fun hlt => ?_) fun _ => .ite (fun hgt => ?_) fun hle => ?_)
  · omega
  · refine (wpOr_modify _).mpr ⟨rfl, rfl, ?_⟩
    exact h.setRef f _ hgt.ne' _ (by omega) hother
  have hone : (w.file f).ref = 1 := by omega
  have hx : ((0 : ℕ) : ℤ) + x f = (w.file f).ref + x' f := by omega
  refine (wpOr_modify_bind _).mpr (.ite (fun htype => ?_) fun hpipe => .ite (fun htype => ?_)
    fun hinode => ?_)
  · -- The file is an end of a pipe, which is open.
    have hend : (w.file f).pipeEnd = some ((w.file f).pipe, (w.file f).writable) := by
      simp [File.pipeEnd, hone, htype]
    have hinode : (w.file f).inode = none := by simp [File.inode, htype]
    obtain ⟨pi, hpi⟩ : ∃ pi, w.pipe (w.file f).pipe = some pi := by
      have hpos : 0 < tally w.ends ((w.file f).pipe, (w.file f).writable) :=
        tally_pos (i := f) hend
      rw [h.ends] at hpos
      cases hpi : w.pipe (w.file f).pipe with
      | none => simp [hpi] at hpos
      | some pi => exact ⟨pi, rfl⟩
    have hinv := h.closePipe hx hother hend hinode hpi
    refine wpOr_get_bind.mpr ?_
    dsimp only
    rw [hpi]
    refine .ite (fun hboth => (wpOr_modify _).mpr ⟨rfl, rfl, ?_⟩) fun hnot =>
      (wpOr_modify _).mpr ⟨rfl, rfl, ?_⟩
    · have hrest : pi.rest (w.file f).writable = none := if_pos hboth
      rw [hrest] at hinv
      exact hinv
    · have hrest : pi.rest (w.file f).writable = some (pi.close (w.file f).writable) := if_neg hnot
      rw [hrest] at hinv
      exact hinv
  · -- The file is an inode.
    have hend : (w.file f).pipeEnd = none := by
      rcases htype with ht | ht <;> simp [File.pipeEnd, ht]
    have hinode : (w.file f).inode = some (w.file f).ip := by simp [File.inode, hone, htype]
    refine (post_fs (Fs.iput_spec (w.file f).ip _)).mono ?_
    rintro _ _ ⟨s, rfl, hs⟩
    obtain ⟨hr, hl⟩ := Fs.State.of_held (s := w.fs) hs (y := -Pi.single (w.file f).ip 1) (L := w.fs.locked)
      fun j => by by_cases hj : j = (w.file f).ip <;> simp [Fs.refOf, hj]
    refine ⟨rfl, hl, h.setFile _ w.pipe w.allocs w.frees s hx hother (fun _ => rfl)
      (by rintro ⟨⟩) (fun a b => ?_) h.alive h.freed fun e => ?_⟩
    · rw [hend, File.pipeEnd_of_ref rfl, h.ends a b]
      omega
    · rw [hinode, File.inode_of_ref rfl, hr]
      by_cases he : e = (w.file f).ip
      · subst he
        simp
      · have hne : (some (w.file f).ip : Option Ino) ≠ some e := by simp [Ne.symm he]
        rw [pointsTo_of_ne hne]
        simp [he]
  · have hend : (w.file f).pipeEnd = none := by simp [File.pipeEnd, hpipe]
    have hinode' : (w.file f).inode = none := by
      rw [File.inode, if_neg]
      exact fun hc => hinode hc.2
    refine (wpOr_pure _).mpr ⟨rfl, rfl, h.setFile _ w.pipe w.allocs w.frees w.fs
      hx hother (fun _ => rfl) (by rintro ⟨⟩) (fun a b => ?_) h.alive h.freed fun e => ?_⟩
    · rw [hend, File.pipeEnd_of_ref rfl, h.ends a b]
      omega
    · rw [hinode', File.inode_of_ref rfl]
      simp

theorem Inv.pipeEnds (h : Inv w x y) {f0 f1 : Fid} {a : ℕ} (hne : f0 ≠ f1) (ha : w.pipe a = none)
    (h0 : (w.file f0).ref = 1 ∧ (w.file f0).type = .none)
    (h1 : (w.file f1).ref = 1 ∧ (w.file f1).type = .none) :
    post (pipeEnds f0 f1 a) w fun _ w' => w'.proc = w.proc ∧ w'.fs = w.fs ∧ Inv w' x y := by
  have hend : ∀ g : File, g.type = .none → g.pipeEnd = none ∧ g.inode = none := fun g hg => by
    simp [File.pipeEnd, File.inode, hg]
  have hzero : ∀ b, tally w.ends (a, b) = 0 := fun b => by rw [h.ends, ha]; rfl
  have hother : ∀ {a' : ℕ} (b b' : Bool), a' ≠ a →
      pointsTo (some (a, b) : Option (ℕ × Bool)) (a', b') = 0 := fun b b' hne =>
    pointsTo_of_ne (by simp [Ne.symm hne])
  -- The read end comes first.
  let g0 : File := { w.file f0 with type := .pipe, readable := true, writable := false, pipe := a }
  have hg0 : g0.pipeEnd = some (a, false) ∧ g0.inode = none := by
    simp [g0, File.pipeEnd, File.inode, h0.1]
  have hread : Inv ⟨w.fs, update w.file f0 g0,
      update w.pipe a (some ⟨true, false⟩), w.proc, w.initproc,
      update w.allocs a (w.allocs a + 1), w.frees⟩ x y := by
    refine h.setFile (f := f0) g0 _ _ w.frees w.fs (by rfl) (fun _ _ => rfl) (fun hr => ?_)
      (fun _ => rfl) (fun a' b => ?_) (fun a' q hq => ?_) (fun a' => ?_) fun e => ?_
    · exact absurd (hr.symm.trans h0.1) (by decide)
    · rw [hg0.1, (hend _ h0.2).1, pointsTo_none, zero_add]
      by_cases haa : a' = a
      · subst haa
        rw [hzero, update_self]
        cases b <;> simp [Pipe.isOpen, pointsTo]
      · rw [hother _ _ haa, update_of_ne haa, h.ends, add_zero]
    · have := h.alive a' q
      rw [update_apply] at hq
      grind
    · have := h.freed a'
      rw [update_apply, update_apply]
      grind
    · rw [hg0.2, (hend _ h0.2).2]
      simp
  -- Then the write end.
  let g1 : File := { w.file f1 with type := .pipe, readable := false, writable := true, pipe := a }
  have hg1 : g1.pipeEnd = some (a, true) ∧ g1.inode = none := by
    simp [g1, File.pipeEnd, File.inode, h1.1]
  have hf1 : update w.file f0 g0 f1 = w.file f1 := update_of_ne hne.symm _ _
  have hwrite : Inv ⟨w.fs, update (update w.file f0 g0) f1 g1,
      update w.pipe a (some ⟨true, true⟩), w.proc, w.initproc,
      update w.allocs a (w.allocs a + 1), w.frees⟩ x y := by
    refine hread.setFile (f := f1) g1 _ _ w.frees w.fs ?_ (fun _ _ => rfl) (fun hr => ?_)
      (fun _ => rfl) (fun a' b => ?_) (fun a' q hq => ?_) (fun a' => ?_) fun e => ?_
    · dsimp only
      rw [hf1]
    · exact absurd (hr.symm.trans h1.1) (by decide)
    · dsimp only
      rw [hg1.1, hf1, (hend _ h1.2).1, pointsTo_none, zero_add, hread.ends]
      dsimp only
      by_cases haa : a' = a
      · subst haa
        rw [update_self, update_self]
        cases b <;> simp [Pipe.isOpen, pointsTo]
      · rw [hother _ _ haa, update_of_ne haa, update_of_ne haa, add_zero]
    · have := h.alive a' q
      rw [update_apply] at hq
      grind
    · have hfreed := hread.freed a'
      simp only [update_apply] at hfreed ⊢
      grind
    · dsimp only
      rw [hg1.2, hf1, (hend _ h1.2).2]
      simp
  refine (wpOr_modify_bind _).mpr ((wpOr_modify_bind _).mpr ((wpOr_modify _).mpr
    ⟨rfl, rfl, ?_⟩))
  convert hwrite using 2
  dsimp only
  rw [hf1]

/-- Closing a file that the code has taken gives back what it had. -/
theorem closeTaken_spec {f : Fid} (h : Inv w (x + Pi.single f 1) y) (hf : 0 < (w.file f).ref) :
    post (fileclose f) w fun _ w' =>
      w'.proc = w.proc ∧ w'.fs.locked = w.fs.locked ∧ Inv w' x y := by
  have hrefs := h.refs f
  refine (fileclose_spec h f (by omega)).mono fun _ w' ⟨hp, hl, hinv⟩ => ⟨hp, hl, ?_⟩
  rwa [add_sub_cancel_right] at hinv

/-- `pipealloc`: the code has both ends of a new pipe, or nothing. -/
theorem pipealloc_spec (h : Inv w x y) (page : Option ℕ)
    (hpage : ∀ a, page = some a → w.pipe a = none) : post (pipealloc page) w fun o w' =>
      w'.proc = w.proc ∧ w'.fs.locked = w.fs.locked ∧
        Inv w' (x + o.elim 0 fun r => Pi.single r.1 1 + Pi.single r.2 1) y := by
  refine (filealloc_spec h).bind ?_
  rintro _ w1 (⟨rfl, rfl⟩ | ⟨f0, rfl, hold0, rfl, h1⟩)
  · refine (wpOr_pure _).mpr ⟨rfl, rfl, ?_⟩
    rwa [Option.elim_none, add_zero]
  have hone0 : ((w.taken f0).file f0).ref = 1 := by simp [World.taken]
  refine (filealloc_spec h1).bind ?_
  rintro _ w2 (⟨rfl, rfl⟩ | ⟨f1, rfl, hold1, rfl, h2⟩)
  · refine (closeTaken_spec h1 (by omega)).bind fun _ w' ⟨hp, hl, hinv⟩ =>
      (wpOr_pure _).mpr ⟨hp, hl, ?_⟩
    rwa [Option.elim_none, add_zero]
  have hne : f0 ≠ f1 := by
    rintro rfl
    omega
  have htype0 : (w.file f0).type = .none := h.unused f0 hold0
  have hold1' : (w.file f1).ref = 0 := by
    simpa [World.taken, hne.symm] using hold1
  have htype1 : (w.file f1).type = .none := h.unused f1 hold1'
  have hfile0 : (((w.taken f0).taken f1).file f0) = { w.file f0 with ref := 1 } := by
    simp [World.taken, hne]
  have hfile1 : (((w.taken f0).taken f1).file f1) = { w.file f1 with ref := 1 } := by
    simp [World.taken, hne.symm]
  cases page with
  | none =>
    have hswap : Inv ((w.taken f0).taken f1) (x + Pi.single f1 1 + Pi.single f0 1) y := by
      rwa [add_right_comm]
    refine (closeTaken_spec hswap (by rw [hfile0]; exact one_pos)).bind fun _ w3 ⟨hp3, hl3, h3⟩ => ?_
    have hrefs := h3.refs f1
    have hrefs' := h2.refs f1
    have hslot : w3.slot = ((w.taken f0).taken f1).slot := by
      funext z
      simp only [World.slot, hp3]
    have hpos : 0 < (w3.file f1).ref := by
      rw [hslot] at hrefs
      rw [hfile1] at hrefs'
      simp only [Pi.add_apply, Pi.single_eq_same, Pi.single_eq_of_ne hne.symm] at hrefs hrefs'
      omega
    refine (closeTaken_spec h3 hpos).bind fun _ w4 ⟨hp4, hl4, h4⟩ =>
      (wpOr_pure _).mpr ⟨hp4.trans hp3, hl4.trans hl3, ?_⟩
    rwa [Option.elim_none, add_zero]
  | some a =>
    have hpi : ((w.taken f0).taken f1).pipe a = none := hpage a rfl
    refine (h2.pipeEnds hne hpi (by rw [hfile0]; exact ⟨rfl, htype0⟩)
      (by rw [hfile1]; exact ⟨rfl, htype1⟩)).bind fun _ w3 ⟨hp3, hfs3, h3⟩ =>
      (wpOr_pure _).mpr ⟨hp3, by rw [hfs3]; rfl, ?_⟩
    rw [Option.elim_some, ← add_assoc]
    exact h3

end Files

/-! ## Descriptors -/

section Descriptors

variable {w : World} {x : Fid → ℤ} {y : Ino → ℤ} {p : Pid}

/-- `argfd` changes nothing, and returns an open descriptor. -/
theorem argfd_spec (p : Pid) (fd : ℤ) : post (argfd p fd) w fun o w' =>
    w' = w ∧ ∀ r, o = some r → (w.proc p).ofile r.1 = some r.2 := by
  refine wpOr_get_bind.mpr ?_
  split
  · refine (wpOr_pure _).mpr ⟨rfl, fun r hr => ?_⟩
    obtain ⟨f, hf, rfl⟩ := Option.map_eq_some_iff.mp hr
    exact hf
  · exact (wpOr_pure _).mpr ⟨rfl, by simp⟩

/-- `fdalloc`: a pointer of the code goes to a free descriptor. -/
theorem fdalloc_spec (h : Inv w x y) (p : Pid) (f : Fid) : post (fdalloc p f) w fun o w' =>
    o = none ∧ w' = w ∨ ∃ fd, o = some fd ∧ (w.proc p).ofile fd = none ∧
      w' = w.withProc p ((w.proc p).withFd fd (some f)) ∧ Inv w' (x - Pi.single f 1) y := by
  refine wpOr_get_bind.mpr ?_
  split
  · exact (wpOr_pure _).mpr (.inl ⟨rfl, rfl⟩)
  · next fd hfind =>
    have hfree : (w.proc p).ofile fd = none := by simpa using List.find?_some hfind
    refine (h.setFd (x - Pi.single f 1) fd (some f) fun e => ?_).bind fun _ w' ⟨hw, hinv⟩ =>
      (wpOr_pure _).mpr (.inr ⟨fd, rfl, hfree, hw, hinv⟩)
    rw [hfree]
    rw [pointsTo_some]
    simp

/-- The current directory of a live process is there. -/
theorem getCwd_spec {ip : Ino} (h : (w.proc p).cwd = some ip) :
    post (getCwd p) w fun r w' => r = ip ∧ w' = w := by
  refine wpOr_get_bind.mpr ?_
  rw [h]
  exact (wpOr_pure _).mpr ⟨rfl, rfl⟩

end Descriptors

end Xv6.Files
