import Xv6.Fs.Path

/-!
# References and locks of inodes

What each function of the file system does to the reference counts and the sleep locks of the inode
table. A function that takes references or locks and drops them again is said to keep them (`Keeps`).
The specifications are about calls that return: a call may also panic, or wait for a lock forever.
-/

namespace Xv6.Fs

open Lib

/-- The reference counts. -/
def State.ref (s : State) : Ino → ℤ := fun ip => (s.inode ip).ref

/-- The locks that are held. -/
def State.locked (s : State) : Finset Ino := Finset.univ.filter fun ip => (s.inode ip).lock = true

/-- What holds if the code returns. -/
abbrev post {α : Type} (x : F α) (s : State) (Q : α → State → Prop) : Prop :=
  wpOr (fun _ => True) x s Q

/-- The code changes no reference and no lock. -/
def Keeps {α : Type} (x : F α) : Prop :=
  ∀ s, post x s fun _ s' => s'.ref = s.ref ∧ s'.locked = s.locked

/-- What is held of an inode: its references, and its lock. -/
def Inode.held (i : Inode) : ℤ × ℤ := (i.ref, if i.lock then 1 else 0)

/-- What is held of all inodes. -/
def State.held (s : State) : Ino → ℤ × ℤ := fun ip => (s.inode ip).held

/-- The code changes what is held by `e`. -/
def Effect {α : Type} (x : F α) (e : α → Ino → ℤ × ℤ) : Prop :=
  ∀ s, post x s fun a s' => s'.held = s.held + e a

/-- A reference to the inode. -/
def refOf (ip : Ino) : Ino → ℤ × ℤ := Pi.single ip (1, 0)

/-- The lock of the inode. -/
def lockOf (ip : Ino) : Ino → ℤ × ℤ := Pi.single ip (0, 1)

section Rules

variable {α β : Type} {x y : F α} {f : α → F β} {s : State} {ip : Ino}
variable {e : α → Ino → ℤ × ℤ} {g : β → Ino → ℤ × ℤ}

@[simp] theorem State.mem_locked : ip ∈ s.locked ↔ (s.inode ip).lock = true := by
  simp [State.locked]

theorem Keeps.bind (hx : Keeps x) (hf : ∀ a, Keeps (f a)) : Keeps (x >>= f) := fun s =>
  (hx s).bind fun a t ⟨hr, hl⟩ => (hf a t).mono fun _ _ ⟨hr', hl'⟩ =>
    ⟨hr'.trans hr, hl'.trans hl⟩

theorem Keeps.pure (a : α) : Keeps (pure a : F α) := fun _ => (wpOr_pure a).mpr ⟨rfl, rfl⟩

theorem Keeps.throw (e : Panic) : Keeps (throw e : F α) := fun _ => wpOr_throw.mpr trivial

theorem Keeps.get_bind {f : State → F β} (h : ∀ s, Keeps (f s)) : Keeps (get >>= f) := fun s =>
  wpOr_get_bind.mpr (h s s)

theorem Keeps.ite {c : Prop} [Decidable c] (ht : Keeps x) (hf : Keeps y) :
    Keeps (if c then x else y) := by
  split_ifs
  · exact ht
  · exact hf

theorem State.held_eq_iff {t : State} : t.held = s.held ↔ t.ref = s.ref ∧ t.locked = s.locked := by
  simp only [funext_iff, Finset.ext_iff, State.held, Inode.held, State.ref, State.mem_locked,
    Prod.ext_iff, ← forall_and]
  refine forall_congr' fun j => and_congr_right fun _ => ?_
  cases (t.inode j).lock <;> cases (s.inode j).lock <;> simp

theorem State.of_held {t : State} {d : Ino → ℤ × ℤ} (h : t.held = s.held + d) {y : Ino → ℤ}
    {L : Finset Ino}
    (hd : ∀ j, (d j).1 = y j ∧
      (d j).2 = (if j ∈ L then 1 else 0) - if j ∈ s.locked then 1 else 0) :
    t.ref = s.ref + y ∧ t.locked = L := by
  have hj : ∀ j, (t.inode j).held = (s.inode j).held + d j := congrFun h
  refine ⟨funext fun j => ?_, Finset.ext fun j => ?_⟩
  · simpa [State.ref, (hd j).1, Inode.held] using congrArg Prod.fst (hj j)
  · have hlock := congrArg Prod.snd (hj j)
    simp only [(hd j).2, Inode.held, Prod.snd_add, State.mem_locked, add_sub_cancel] at hlock ⊢
    by_cases hmem : j ∈ L <;> simpa [hmem] using hlock

theorem Effect.congr (hx : Effect x e) {e' : α → Ino → ℤ × ℤ} (h : ∀ a, e a = e' a) : Effect x e' :=
  funext h ▸ hx

theorem Effect.keeps (hx : Effect x fun _ => 0) : Keeps x := fun s =>
  (hx s).mono fun _ _ h => State.held_eq_iff.mp (h.trans (add_zero _))

theorem Keeps.effect (hx : Keeps x) : Effect x fun _ => 0 := fun s =>
  (hx s).mono fun _ _ h => (State.held_eq_iff.mpr h).trans (add_zero _).symm

theorem Effect.bind (hx : Effect x e) (hf : ∀ a, Effect (f a) fun b => g b - e a) :
    Effect (x >>= f) g := fun s =>
  (hx s).bind fun a t ht => (hf a t).mono fun b u hu => by
    rw [hu, ht, add_assoc, add_sub_cancel]

theorem Effect.pure {a : α} (h : e a = 0) : Effect (pure a : F α) e := fun s =>
  (wpOr_pure a).mpr (by rw [h, add_zero])

theorem Effect.throw (c : Panic) : Effect (throw c : F α) e := fun _ => wpOr_throw.mpr trivial

theorem Effect.get_bind {f : State → F β} (h : ∀ s, Effect (f s) g) : Effect (get >>= f) g := fun s =>
  wpOr_get_bind.mpr (h s s)

theorem Effect.ite {c : Prop} [Decidable c] (ht : Effect x e) (hf : Effect y e) :
    Effect (if c then x else y) e := by
  split_ifs
  · exact ht
  · exact hf

theorem Keeps.andThen (hx : Keeps x) (hf : ∀ a, Effect (f a) g) : Effect (x >>= f) g := fun s =>
  (hx s).bind fun a t ht => (hf a t).mono fun b u hu => by rw [hu, State.held_eq_iff.mpr ht]

theorem Keeps.logWrite (b : ℕ) (data : Block) : Keeps (logWrite b data) := fun _ =>
  (wpOr_modify _).mpr ⟨rfl, rfl⟩

theorem Keeps.bread (b : ℕ) : Keeps (bread b) := .get_bind fun _ => .pure _

theorem State.held_update {i : Inode} {n : ℤ × ℤ} (h : i.held = (s.inode ip).held + n) :
    State.held { s with inode := Function.update s.inode ip i } = s.held + Pi.single ip n := by
  funext j
  by_cases hj : j = ip
  · subst hj
    simp [State.held, h]
  · simp [State.held, hj]

theorem Effect.setInode {u : Inode → Inode} (n : ℤ × ℤ) (h : ∀ i, (u i).held = i.held + n) :
    Effect (setInode ip u) fun _ => Pi.single ip n := fun s => by
  exact (wpOr_modify _).mpr (State.held_update (h _))

theorem Keeps.setInode {u : Inode → Inode} (h : ∀ i, (u i).ref = i.ref ∧ (u i).lock = i.lock) :
    Keeps (setInode ip u) := by
  refine Effect.keeps ((Effect.setInode 0 fun i => ?_).congr fun _ => Pi.single_zero ip)
  rw [Inode.held, (h i).1, (h i).2, add_zero, Inode.held]

theorem Effect.update {u : Inode → Inode} (h : ∀ i, (u i).ref = i.ref ∧ (u i).lock = i.lock)
    {y : F α} (hy : Effect y e) : Effect (do
      Fs.setInode ip u
      iupdate ip
      y) e :=
  (Keeps.setInode h).andThen fun _ => Keeps.andThen
    (.get_bind fun _ => .bind (.bread _) fun _ => .logWrite _ _) fun _ => hy

end Rules

/-! ## Contents -/

section Contents

variable (ip : Ino)

theorem balloc_keeps : Keeps balloc := by
  refine .get_bind fun s => ?_
  split
  · exact .pure _
  · exact .bind (.logWrite _ _) fun _ => .bind (.logWrite _ _) fun _ => .pure _

theorem bfree_keeps (b : ℕ) : Keeps (bfree b) :=
  .get_bind fun _ => .ite (.bind (.throw _) fun _ => .logWrite _ _) (.logWrite _ _)

theorem iupdate_keeps : Keeps (iupdate ip) :=
  .get_bind fun _ => .bind (.bread _) fun _ => .logWrite _ _

theorem truncDirect_keeps (ks : List ℕ) : Keeps (truncDirect ip ks) := by
  induction ks with
  | nil => exact .pure _
  | cons k ks ih =>
    refine .get_bind fun s => .ite ?_ ih
    exact .bind (bfree_keeps _) fun _ => .bind (.setInode fun _ => ⟨rfl, rfl⟩) fun _ => ih

theorem truncIndirect_keeps (a : Block) (js : List ℕ) : Keeps (truncIndirect a js) := by
  induction js with
  | nil => exact .pure _
  | cons j js ih => exact .ite (.bind (bfree_keeps _) fun _ => ih) ih

theorem itrunc_keeps : Keeps (itrunc ip) := by
  have hend : Keeps (do
      setInode ip fun i => { i with size := 0 }
      iupdate ip) := .bind (.setInode fun _ => ⟨rfl, rfl⟩) fun _ => iupdate_keeps ip
  refine .bind (truncDirect_keeps ip _) fun _ => .get_bind fun s => .ite ?_ hend
  refine .bind (.bread _) fun bp => .bind (truncIndirect_keeps bp _) fun _ => ?_
  exact .bind (bfree_keeps _) fun _ => .bind (.setInode fun _ => ⟨rfl, rfl⟩) fun _ => hend

theorem bmapAddr_keeps (k : ℕ) : Keeps (bmapAddr ip k) := by
  refine .get_bind fun s => .ite (.pure _) (.bind balloc_keeps fun addr => .ite (.pure _) ?_)
  exact .bind (.setInode fun _ => ⟨rfl, rfl⟩) fun _ => .pure _

theorem bmap_keeps (bn : ℕ) : Keeps (bmap ip bn) := by
  refine .ite (bmapAddr_keeps ip bn) (.ite (.bind (bmapAddr_keeps ip _) fun ind => ?_) (.throw _))
  refine .ite (.pure _) (.bind (.bread _) fun a => .ite (.pure _) ?_)
  exact .bind balloc_keeps fun addr => .ite (.bind (.logWrite _ _) fun _ => .pure _) (.pure _)

theorem readLoop_keeps (fuel off n : ℕ) : Keeps (readLoop ip fuel off n) := by
  induction fuel generalizing off n with
  | zero => exact .pure _
  | succ fuel ih =>
    refine .ite (.pure _) (.bind (bmap_keeps ip _) fun addr => .ite (.pure _) ?_)
    exact .bind (.bread _) fun bp => .bind (ih _ _) fun _ => .pure _

theorem readi_keeps (off n : ℕ) : Keeps (readi ip off n) :=
  .get_bind fun _ => .ite (.pure _) (readLoop_keeps ip _ _ _)

theorem writeLoop_keeps (fuel : ℕ) (src : ℕ → UInt8) (off n : ℕ) :
    Keeps (writeLoop ip fuel src off n) := by
  induction fuel generalizing src off n with
  | zero => exact .pure _
  | succ fuel ih =>
    refine .ite (.pure _) (.bind (bmap_keeps ip _) fun addr => .ite (.pure _) ?_)
    exact .bind (.bread _) fun bp => .bind (.logWrite _ _) fun _ => .bind (ih _ _ _) fun _ => .pure _

theorem writei_keeps (src : ℕ → UInt8) (off n : ℕ) : Keeps (writei ip src off n) := by
  refine .get_bind fun s => .ite (.pure _) (.ite (.pure _) (.bind (writeLoop_keeps ip _ _ _ _) ?_))
  intro tot
  have hend : Keeps (do
      iupdate ip
      return (tot : ℤ)) := .bind (iupdate_keeps ip) fun _ => .pure _
  exact .get_bind fun t => .ite (.bind (.setInode fun _ => ⟨rfl, rfl⟩) fun _ => hend) hend

end Contents

/-! ## Inodes -/

section Inodes

variable (ip : Ino)

/-- `iget` takes a reference to what it returns. -/
theorem iget_spec (dev inum : ℕ) : Effect (iget dev inum) refOf := fun s => by
  refine wpOr_get_bind.mpr ?_
  split
  · refine wpOr.bind (Effect.setInode (1, 0) (fun i => ?_) s) fun _ t ht => (wpOr_pure _).mpr ht
    simp [Inode.held]
  · split
    · exact wpOr_throw.mpr trivial
    · next ip hfind =>
      -- The entry had no references.
      have hzero : (s.inode ip).ref = 0 := by simpa using List.find?_some hfind
      refine wpOr.bind ((wpOr_modify _).mpr (State.held_update ?_)) fun _ t ht => (wpOr_pure _).mpr ht
      simp [Inode.held, hzero]

/-- `idup` takes a reference. -/
theorem idup_spec : post (idup ip) s fun r s' => r = ip ∧ s'.held = s.held + refOf ip := by
  refine wpOr.bind (Effect.setInode (1, 0) (fun i => ?_) s) fun _ t ht => (wpOr_pure _).mpr ⟨rfl, ht⟩
  simp [Inode.held]

/-- `ialloc` takes a reference, unless there is no free inode. -/
theorem ialloc_spec (dev type : ℕ) : Effect (ialloc dev type) fun o => o.elim 0 refOf := by
  refine .get_bind fun s => ?_
  split
  · exact .pure rfl
  · refine (Keeps.bread _).andThen fun bp => (Keeps.logWrite _ _).andThen fun _ => ?_
    exact (iget_spec dev _).bind fun ip => .pure (sub_self _)

/-- `acquiresleep` takes the lock: it returns if the lock is free. -/
theorem acquiresleep_spec : post (acquiresleep ip) s fun _ s' =>
    (s'.inode ip).lock = true ∧ s'.held = s.held + lockOf ip := by
  refine wpOr_get_bind.mpr (.ite (fun _ => wpOr_throw.mpr trivial) fun hfree => ?_)
  exact (wpOr_modify _).mpr ⟨by simp, State.held_update (by simp [Inode.held, hfree])⟩

/-- The lock is given up. -/
theorem releasesleep_spec (hlock : (s.inode ip).lock = true) : post (releasesleep ip) s fun _ s' =>
    s'.held = s.held - lockOf ip := by
  rw [sub_eq_add_neg, lockOf, ← Pi.single_neg]
  exact (wpOr_modify _).mpr (State.held_update (by simp [Inode.held, hlock]))

/-- `ilock` takes the lock. -/
theorem ilock_spec : Effect (ilock ip) fun _ => lockOf ip := by
  refine .get_bind fun s => .ite (.throw _) ?_
  refine Effect.bind (fun s => (acquiresleep_spec ip).mono fun _ _ h => h.2) fun _ => ?_
  refine .get_bind fun t => .ite ?_ (.pure (sub_self _))
  refine (Keeps.bread _).andThen fun _ => Keeps.andThen (.setInode fun _ => ⟨rfl, rfl⟩) fun _ => ?_
  exact .get_bind fun _ => .ite (.throw _) (.pure (sub_self _))

/-- `iunlock` gives it up. -/
theorem iunlock_spec : Effect (iunlock ip) fun _ => -lockOf ip := by
  refine fun s => wpOr_get_bind.mpr (.ite (fun _ => wpOr_throw.mpr trivial) fun hheld => ?_)
  refine (releasesleep_spec ip ?_).mono fun _ _ h => h.trans (sub_eq_add_neg _ _)
  simp only [not_or, Bool.not_eq_true', Bool.not_eq_false] at hheld
  exact hheld.1

/-- `iput` drops a reference. -/
theorem iput_spec : Effect (iput ip) fun _ => -refOf ip := by
  have hdrop : Effect (setInode ip fun i => { i with ref := i.ref - 1 }) fun _ => -refOf ip := by
    refine (Effect.setInode (-1, 0) fun i => ?_).congr fun _ => ?_
    · simp [Inode.held, sub_eq_add_neg]
    · rw [refOf, ← Pi.single_neg]
      rfl
  refine fun s => wpOr_get_bind.mpr (.ite (fun _ => ?_) fun _ => hdrop s)
  -- The inode is freed with its lock held.
  have hfree : Keeps (do
      itrunc ip
      setInode ip fun i => { i with type := 0 }
      iupdate ip
      setInode ip fun i => { i with valid := false }) :=
    .bind (itrunc_keeps ip) fun _ => .bind (.setInode fun _ => ⟨rfl, rfl⟩) fun _ =>
      .bind (iupdate_keeps ip) fun _ => .setInode fun _ => ⟨rfl, rfl⟩
  refine (acquiresleep_spec ip).bind fun _ t ⟨hlock, ht⟩ => ?_
  have hrest : post (do
      itrunc ip
      setInode ip fun i => { i with type := 0 }
      iupdate ip
      setInode ip fun i => { i with valid := false }
      releasesleep ip) t fun _ s' => s'.held = s.held := by
    have := (hfree t).bind (f := fun _ => releasesleep ip) fun _ u hu =>
      (releasesleep_spec ip (State.mem_locked.mp (hu.2 ▸ State.mem_locked.mpr hlock))).mono
        fun _ v hv => show v.held = s.held by
          rw [hv, State.held_eq_iff.mpr hu, ht, add_sub_cancel_right]
    simpa only [bind_assoc] using this
  simpa only [bind_assoc] using hrest.bind fun _ u hu => (hdrop u).mono fun _ v hv => hu ▸ hv

/-- `iunlockput` does both. -/
theorem iunlockput_spec : Effect (iunlockput ip) fun _ => -lockOf ip - refOf ip :=
  (iunlock_spec ip).bind fun _ => (iput_spec ip).congr fun _ => by abel

end Inodes

/-! ## Directories and paths -/

section Paths

theorem lookupLoop_keeps (dp : Ino) (name : Name) (fuel off : ℕ) :
    Keeps (lookupLoop dp name fuel off) := by
  induction fuel generalizing off with
  | zero => exact .pure _
  | succ fuel ih =>
    have hrest : ∀ de : List UInt8, Keeps (if direntInum de ≠ 0 ∧ nameEq name (de.drop 2) then
        Pure.pure (some (direntInum de, off)) else lookupLoop dp name fuel (off + DIRENT)) :=
      fun de => .ite (.pure _) (ih _)
    refine .get_bind fun _ => .ite (.pure _) (.bind (readi_keeps dp _ _) fun de => ?_)
    exact .ite (.bind (.throw _) fun _ => hrest de) (hrest de)

/-- `dirlookup` takes a reference to the inode it finds. -/
theorem dirlookup_spec (dp : Ino) (name : Name) :
    Effect (dirlookup dp name) fun o => o.elim 0 fun r => refOf r.1 := by
  refine .get_bind fun _ => .ite (.throw _) ((lookupLoop_keeps dp name _ _).andThen fun o => ?_)
  split
  · exact .pure rfl
  · exact (iget_spec _ _).bind fun ip => .pure (sub_self _)

theorem emptyLoop_keeps (dp : Ino) (fuel off : ℕ) : Keeps (emptyLoop dp fuel off) := by
  induction fuel generalizing off with
  | zero => exact .pure _
  | succ fuel ih =>
    have hrest : ∀ de : List UInt8, Keeps (if direntInum de = 0 then
        Pure.pure off else emptyLoop dp fuel (off + DIRENT)) := fun de => .ite (.pure _) (ih _)
    refine .get_bind fun _ => .ite (.pure _) (.bind (readi_keeps dp _ _) fun de => ?_)
    exact .ite (.bind (.throw _) fun _ => hrest de) (hrest de)

theorem dirlink_keeps (dp : Ino) (name : Name) (inum : ℕ) : Keeps (dirlink dp name inum) := by
  refine Effect.keeps ((dirlookup_spec dp name).bind fun o => ?_)
  rcases o with _ | ⟨ip, off⟩
  · refine .get_bind fun t => (emptyLoop_keeps dp _ _).andThen fun off => ?_
    exact (writei_keeps dp _ _ _).andThen fun _ => .ite (.pure (sub_self _)) (.pure (sub_self _))
  · -- The name is there: its reference is dropped again.
    exact (iput_spec ip).bind fun _ => .pure (by simp)

/-- `namex` takes a reference to what it returns, and drops the one to the inode it starts from. -/
theorem namexLoop_spec (parent : Bool) (fuel : ℕ) (path : List UInt8) (ip : Ino) (name : Name)
    (hfuel : path.length < fuel) : Effect (namexLoop parent fuel path ip name) fun o =>
      (o.elim 0 fun r => refOf r.1) - refOf ip := by
  induction fuel generalizing path ip name with
  | zero => omega
  | succ fuel ih =>
    unfold namexLoop
    split
    · -- The path is used up.
      refine .ite ((iput_spec ip).bind fun _ => .pure ?_) (.pure (sub_self _))
      simp
    · next rest elem hskip =>
      refine (ilock_spec ip).bind fun _ => .get_bind fun t => .ite ?_ (.ite ?_ ?_)
      · refine (iunlockput_spec ip).bind fun _ => .pure ?_
        simp only [Option.elim_none]
        abel
      · refine (iunlock_spec ip).bind fun _ => .pure ?_
        simp only [Option.elim_some]
        abel
      · refine (dirlookup_spec ip elem).bind fun o => ?_
        rcases o with _ | ⟨nxt, off⟩
        · refine (iunlockput_spec ip).bind fun _ => .pure ?_
          simp only [Option.elim_none]
          abel
        · refine (iunlockput_spec ip).bind fun _ => (ih rest nxt elem ?_).congr fun o => ?_
          · exact (skipelem_eq_some hskip).2.1.trans_le (Nat.lt_succ_iff.mp hfuel)
          · simp only [Option.elim_some]
            abel

/-- `namex` takes a reference to what it returns. -/
theorem namex_spec (cwd : Ino) (path : List UInt8) (parent : Bool) :
    Effect (namex cwd path parent) fun o => o.elim 0 fun r => refOf r.1 := by
  have hloop := fun ip => namexLoop_spec parent _ path ip [] (Nat.lt_succ_self _)
  unfold namex
  split_ifs
  · exact (iget_spec _ _).bind hloop
  · refine fun s => (idup_spec cwd).bind ?_
    rintro _ t ⟨rfl, ht⟩
    exact (hloop _ t).mono fun _ u hu => by rw [hu, ht, add_assoc, add_sub_cancel]

/-- `namei` takes a reference to the inode it returns. -/
theorem namei_spec (cwd : Ino) (path : List UInt8) : Effect (namei cwd path) fun o => o.elim 0 refOf :=
  (namex_spec cwd path false).bind fun o => .pure (by cases o <;> simp)

end Paths

/-! ## System calls -/

section Calls

theorem iunlockput_return {α : Type} {a : α} {e : α → Ino → ℤ × ℤ} (ip : Ino)
    (h : e a = -lockOf ip - refOf ip) : Effect (do
      iunlockput ip
      return a) e :=
  (iunlockput_spec ip).bind fun _ => .pure (sub_eq_zero.mpr h)

/-- A `create` that fails drops both inodes. -/
theorem createFail_spec (dp ip : Ino) : Effect (createFail dp ip) fun o =>
    (o.elim 0 fun i => refOf i + lockOf i) - (refOf ip + lockOf ip) - (refOf dp + lockOf dp) := by
  refine .update (by exact fun _ => ⟨rfl, rfl⟩) ((iunlockput_spec ip).bind fun _ => ?_)
  refine iunlockput_return dp ?_
  simp only [Option.elim_none]
  abel

theorem linkDots_keeps (dp ip : Ino) : Keeps (linkDots dp ip) :=
  .get_bind fun _ => .bind (dirlink_keeps _ _ _) fun _ => .ite (.pure _)
    (.get_bind fun _ => .bind (dirlink_keeps _ _ _) fun _ => .pure _)

/-- The end of `create`, with both inodes locked: the directory is put, and the inode too if that
fails. -/
theorem createEntry_spec (dp ip : Ino) (name : Name) (type : ℕ) :
    Effect (createEntry dp ip name type) fun o =>
      (o.elim 0 fun i => refOf i + lockOf i) - (refOf ip + lockOf ip) - (refOf dp + lockOf dp) := by
  refine .get_bind fun _ => (dirlink_keeps dp name _).andThen fun r => .ite (createFail_spec dp ip) ?_
  have hend : Effect (do
      iunlockput dp
      return some ip) fun o : Option Ino =>
        (o.elim 0 fun i => refOf i + lockOf i) - (refOf ip + lockOf ip) - (refOf dp + lockOf dp) := by
    refine iunlockput_return dp ?_
    simp only [Option.elim_some]
    abel
  exact .ite (.update (by exact fun _ => ⟨rfl, rfl⟩) hend) hend

/-- A new inode takes the place of the directory, which is put. -/
theorem createNew_spec (dp : Ino) (name : Name) (type major minor : ℕ) :
    Effect (createNew dp name type major minor) fun o =>
      (o.elim 0 fun i => refOf i + lockOf i) - (refOf dp + lockOf dp) := by
  refine .get_bind fun _ => (ialloc_spec _ type).bind fun o => ?_
  cases o with
  | none =>
    refine iunlockput_return dp ?_
    simp only [Option.elim_none]
    abel
  | some ip =>
    refine (ilock_spec ip).bind fun _ => .update (by exact fun _ => ⟨rfl, rfl⟩) ?_
    -- The inode is either returned or put.
    have hnew : ∀ o : Option Ino, (o.elim 0 fun i => refOf i + lockOf i) - (refOf ip + lockOf ip) -
        (refOf dp + lockOf dp) = (o.elim 0 fun i => refOf i + lockOf i) - (refOf dp + lockOf dp) -
          (some ip).elim 0 refOf - lockOf ip := fun o => by
      simp only [Option.elim_some]
      abel
    have hentry := (createEntry_spec dp ip name type).congr hnew
    exact .ite ((linkDots_keeps dp ip).andThen fun _ =>
      .ite hentry ((createFail_spec dp ip).congr hnew)) hentry

/-- The inode that `create` returns is referenced and locked. -/
theorem create_spec (cwd : Ino) (path : List UInt8) (type major minor : ℕ) :
    Effect (create cwd path type major minor) fun o => o.elim 0 fun ip => refOf ip + lockOf ip := by
  refine (namex_spec cwd path true).bind fun o => ?_
  rcases o with _ | ⟨dp, name⟩
  · exact .pure (sub_self _)
  refine (ilock_spec dp).bind fun _ => (dirlookup_spec dp name).bind fun o => ?_
  rcases o with _ | ⟨ip, off⟩
  · refine (createNew_spec dp name type major minor).congr fun o => ?_
    simp only [Option.elim_none, Option.elim_some]
    abel
  · refine (iunlockput_spec dp).bind fun _ => (ilock_spec ip).bind fun _ => .get_bind fun _ => .ite ?_ ?_
    · refine .pure ?_
      simp only [Option.elim_some]
      abel
    · refine iunlockput_return ip ?_
      simp only [Option.elim_none, Option.elim_some]
      abel

theorem mknode_keeps (cwd : Ino) (path : List UInt8) (type major minor : ℕ) :
    Keeps (mknode cwd path type major minor) := by
  refine Effect.keeps ((create_spec cwd path type major minor).bind fun o => ?_)
  cases o with
  | none => exact .pure (sub_self _)
  | some ip =>
    refine iunlockput_return ip ?_
    simp only [Option.elim_some]
    abel

/-- A `sys_link` that fails drops the inode. -/
theorem linkBad_spec (ip : Ino) : Effect (linkBad ip) fun _ => -refOf ip := by
  refine (ilock_spec ip).bind fun _ => .update (by exact fun _ => ⟨rfl, rfl⟩) (iunlockput_return ip ?_)
  abel

theorem link_keeps (cwd : Ino) (old new : List UInt8) : Keeps (link cwd old new) := by
  refine Effect.keeps ((namei_spec cwd old).bind fun o => ?_)
  cases o with
  | none => exact .pure (sub_self _)
  | some ip =>
    refine (ilock_spec ip).bind fun _ => .get_bind fun _ => .ite (iunlockput_return ip ?_) ?_
    · simp only [Option.elim_some]
      abel
    refine .update (by exact fun _ => ⟨rfl, rfl⟩) ((iunlock_spec ip).bind fun _ => ?_)
    refine (namex_spec cwd new true).bind fun o => ?_
    rcases o with _ | ⟨dp, name⟩
    · refine (linkBad_spec ip).congr fun _ => ?_
      simp only [Option.elim_none, Option.elim_some]
      abel
    -- In all cases the directory is put first, and then the inode.
    refine (ilock_spec dp).bind fun _ => .get_bind fun s => ?_
    have hbad : Effect (do
        iunlockput dp
        linkBad ip) fun _ => -lockOf dp - refOf dp - refOf ip :=
      (iunlockput_spec dp).bind fun _ => (linkBad_spec ip).congr fun _ => by abel
    have hgood : Effect (do
        iunlockput dp
        iput ip
        return (0 : ℤ)) fun _ => -lockOf dp - refOf dp - refOf ip :=
      (iunlockput_spec dp).bind fun _ => (iput_spec ip).bind fun _ => .pure (by abel)
    refine Effect.congr (.ite hbad ((dirlink_keeps dp name _).andThen fun r => .ite hbad hgood)) ?_
    intro _
    simp only [Option.elim_some]
    abel

theorem isdirempty_keeps (dp : Ino) : Keeps (isdirempty dp) := by
  have hloop : ∀ fuel off, Keeps (isdiremptyLoop dp fuel off) := by
    intro fuel
    induction fuel with
    | zero => exact fun _ => .pure _
    | succ fuel ih =>
      intro off
      have hrest : ∀ de : List UInt8, Keeps (if direntInum de ≠ 0 then
          Pure.pure false else isdiremptyLoop dp fuel (off + DIRENT)) := fun de => .ite (.pure _) (ih _)
      refine .get_bind fun _ => .ite (.pure _) (.bind (readi_keeps dp _ _) fun de => ?_)
      exact .ite (.bind (.throw _) fun _ => hrest de) (hrest de)
  exact .get_bind fun _ => hloop _ _

/-- The end of `sys_unlink` drops the directory and the inode. -/
theorem unlinkEntry_spec (dp ip : Ino) (off : ℕ) : Effect (unlinkEntry dp ip off) fun _ =>
    -lockOf dp - refOf dp - lockOf ip - refOf ip := by
  have hend : Effect (do
      iunlockput dp
      setInode ip fun i => { i with nlink := (i.nlink + (2 ^ 16 - 1)) % 2 ^ 16 }
      iupdate ip
      iunlockput ip
      return (0 : ℤ)) fun _ => -lockOf dp - refOf dp - lockOf ip - refOf ip := by
    refine (iunlockput_spec dp).bind fun _ => .update (by exact fun _ => ⟨rfl, rfl⟩) (iunlockput_return ip ?_)
    abel
  refine (writei_keeps dp _ _ _).andThen fun r => .ite (fun s => ?_) ?_
  · exact wpOr.bind (wpOr_throw.mpr trivial) fun _ _ (h : False) => h.elim
  · exact .get_bind fun _ => .ite (.update (by exact fun _ => ⟨rfl, rfl⟩) hend) hend

theorem unlink_keeps (cwd : Ino) (path : List UInt8) : Keeps (unlink cwd path) := by
  refine Effect.keeps ((namex_spec cwd path true).bind fun o => ?_)
  rcases o with _ | ⟨dp, name⟩
  · exact .pure (sub_self _)
  have hbad : Effect (unlinkBad dp) fun _ => -lockOf dp - refOf dp := iunlockput_return dp rfl
  refine (ilock_spec dp).bind fun _ => .ite (hbad.congr fun _ => ?_) ?_
  · simp only [Option.elim_some]
    abel
  refine (dirlookup_spec dp name).bind fun o => ?_
  rcases o with _ | ⟨ip, off⟩
  · refine hbad.congr fun _ => ?_
    simp only [Option.elim_none, Option.elim_some]
    abel
  have hentry := unlinkEntry_spec dp ip off
  have hfull : Effect (do
      iunlockput ip
      unlinkBad dp) fun _ => -lockOf dp - refOf dp - lockOf ip - refOf ip :=
    (iunlockput_spec ip).bind fun _ => hbad.congr fun _ => by abel
  refine (ilock_spec ip).bind fun _ => .get_bind fun _ => .ite (.throw _) (Effect.congr (.ite
    ((isdirempty_keeps ip).andThen fun _ => .ite hentry hfull) hentry) fun _ => ?_)
  simp only [Option.elim_some]
  abel

/-- `sys_chdir` trades the reference to the old directory for one to the new. -/
theorem chdir_spec (cwd : Ino) (path : List UInt8) :
    Effect (chdir cwd path) fun o => o.elim 0 fun ip => refOf ip - refOf cwd := by
  refine (namei_spec cwd path).bind fun o => ?_
  cases o with
  | none => exact .pure (sub_self _)
  | some ip =>
    refine (ilock_spec ip).bind fun _ => .get_bind fun _ => .ite (iunlockput_return ip ?_) ?_
    · simp only [Option.elim_none, Option.elim_some]
      abel
    · refine (iunlock_spec ip).bind fun _ => (iput_spec cwd).bind fun _ => .pure ?_
      simp only [Option.elim_some]
      abel

theorem execReads_keeps (ip : Ino) (reads : List (ℕ × ℕ)) : Keeps (execReads ip reads) := by
  induction reads with
  | nil => exact .pure _
  | cons r reads ih => exact .bind (readi_keeps ip _ _) fun _ => .ite (.pure _) ih

theorem exec_keeps (cwd : Ino) (path : List UInt8) (reads : List (ℕ × ℕ)) (bad late : Bool) :
    Keeps (exec cwd path reads bad late) := by
  refine Effect.keeps ((namei_spec cwd path).bind fun o => ?_)
  cases o with
  | none => exact .pure (sub_self _)
  | some ip =>
    refine (ilock_spec ip).bind fun _ => (execReads_keeps ip reads).andThen fun ok => ?_
    have hput : ∀ r : ℤ, Effect (do
        iunlockput ip
        return r) fun _ => 0 - (some ip).elim 0 refOf - lockOf ip := fun r => by
      refine iunlockput_return ip ?_
      simp only [Option.elim_some]
      abel
    exact .ite (hput _) (hput _)

end Calls

end Xv6.Fs
