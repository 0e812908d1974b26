import Xv6.Fs.Dir

/-!
# Paths

What `skipelem`, `namei` and `nameiparent` of `kernel/fs.c` compute, for every path and every state. The
components of a path are its maximal parts without a slash, cut to `DIRSIZ` bytes; `walk` looks them up
one after the other. `path_resolution` puts `skipelem`, `namei` and `nameiparent` in terms of these.
-/

namespace Xv6.Fs

open Function Lib

/-- The components of a path: the non-empty parts between slashes, in order, each cut to `DIRSIZ`
bytes. -/
def components (path : List UInt8) : List Name :=
  ((path.splitOn slash).filter (· ≠ [])).map (·.take DIRSIZ)

/-- The names that `skipelem` yields when it is applied until it returns 0. -/
inductive Elems : List UInt8 → List Name → Prop
  | done {path : List UInt8} : skipelem path = none → Elems path []
  | next {path rest : List UInt8} {name : Name} {names : List Name} :
    skipelem path = some (rest, name) → Elems rest names → Elems path (name :: names)

/-- The inode where the lookup of a path starts, with a reference: the root or the current directory. -/
def start (cwd : Ino) (path : List UInt8) : F Ino :=
  if path.head? = some slash then iget ROOTDEV ROOTINO else idup cwd

/-- One name is looked up in `ip`, whose reference is given up. -/
def lookupIn (ip : Ino) (name : Name) : F (Option Ino) := do
  let r ← dirlookup ip name
  iunlockput ip
  return r.map Prod.fst

/-- Names are looked up one after the other, from `ip` on, as long as there are directories to look them
up in. -/
def walk : List Name → Ino → F (Option Ino)
  | [], ip => return some ip
  | name :: names, ip => do
    ilock ip
    if ((← get).inode ip).type ≠ T_DIR then
      iunlockput ip
      return none
    else
      match ← lookupIn ip name with
      | none => return none
      | some next => walk names next

/-- The directory `dp` and a name in it, if `dp` is a directory. -/
def inDirectory (dp : Ino) (name : Name) : F (Option (Ino × Name)) := do
  ilock dp
  if ((← get).inode dp).type ≠ T_DIR then
    iunlockput dp
    return none
  else
    iunlock dp
    return some (dp, name)

/-- All components but the last are looked up from `ip` on, and the last is returned with the directory
that is found. -/
def walkParent (names : List Name) (ip : Ino) : F (Option (Ino × Name)) :=
  match names.getLast? with
  | none => do
    iput ip
    return none
  | some last => do
    match ← walk names.dropLast ip with
    | none => return none
    | some dp => inDirectory dp last

/-! ## `skipelem` -/

section Skipelem

variable {path rest : List UInt8} {name : Name}

theorem splitOn_slash_cons (c : UInt8) (path : List UInt8) :
    (c :: path).splitOn slash =
      if c = slash then [] :: path.splitOn slash
      else (path.splitOn slash).modifyHead (c :: ·) := by
  simp [List.splitOn, List.splitOnP_cons_eq_if_modifyHead]

theorem splitOn_slash (path : List UInt8) : path.splitOn slash =
    path.takeWhile (· ≠ slash) :: ((path.dropWhile (· ≠ slash)).splitOn slash).tail := by
  induction path with
  | nil => rfl
  | cons c path ih =>
    rw [splitOn_slash_cons]
    by_cases hc : c = slash
    · simp [hc, splitOn_slash_cons]
    · rw [if_neg hc, ih]
      simp [hc]

theorem components_slash (path : List UInt8) : components (slash :: path) = components path := by
  simp [components, splitOn_slash_cons]

theorem components_dropWhile (path : List UInt8) :
    components (path.dropWhile (· = slash)) = components path := by
  induction path with
  | nil => rfl
  | cons c path ih =>
    by_cases hc : c = slash
    · rw [List.dropWhile_cons_of_pos (by simpa using hc), ih, hc, components_slash]
    · rw [List.dropWhile_cons_of_neg (by simpa using hc)]

theorem components_cons {c : UInt8} (hc : c ≠ slash) : components (c :: path) =
    ((c :: path).takeWhile (· ≠ slash)).take DIRSIZ ::
      components ((c :: path).dropWhile (· ≠ slash)) := by
  have hhead : (c :: path).takeWhile (· ≠ slash) ≠ [] := by
    rw [List.takeWhile_cons_of_pos (by simpa using hc)]
    exact List.cons_ne_nil _ _
  -- What is left starts with a slash or is empty, so its first part is empty.
  have hleft : ((c :: path).dropWhile (· ≠ slash)).takeWhile (· ≠ slash) = [] := by
    rw [List.takeWhile_eq_nil_iff]
    intro hlen
    have := List.head_dropWhile_not (fun a => decide (a ≠ slash)) (List.ne_nil_of_length_pos hlen)
    rw [List.get_eq_getElem, ← List.head_eq_getElem_zero (List.ne_nil_of_length_pos hlen), this]
    exact Bool.false_ne_true
  have hparts := splitOn_slash ((c :: path).dropWhile (· ≠ slash))
  rw [hleft] at hparts
  unfold components
  rw [splitOn_slash (c :: path), hparts, List.tail_cons, List.filter_cons_of_pos (by simpa using hhead),
    List.filter_cons_of_neg (by simp), List.map_cons]

theorem head_ne_slash {c : UInt8} {q : List UInt8} (h : path.dropWhile (· = slash) = c :: q) :
    c ≠ slash := by
  have := List.head_dropWhile_not (fun a => decide (a = slash)) (l := path) (by rw [h]; simp)
  simpa [h] using this

theorem skipelem_eq_none (h : skipelem path = none) : components path = [] := by
  unfold skipelem at h
  split at h
  next hdrop => rw [← components_dropWhile, hdrop]; rfl
  next => cases h

theorem skipelem_eq_some (h : skipelem path = some (rest, name)) :
    components path = name :: components rest ∧ rest.length < path.length ∧
      (rest = [] ↔ components rest = []) := by
  unfold skipelem at h
  split at h
  next => cases h
  next p hp =>
    cases hdrop : path.dropWhile (· = slash) with
    | nil => exact absurd hdrop hp
    | cons c q =>
      rw [hdrop, Option.some.injEq, Prod.mk.injEq] at h
      obtain ⟨rfl, rfl⟩ := h
      have hc : c ≠ slash := head_ne_slash hdrop
      refine ⟨?_, ?_, ?_⟩
      · rw [components_dropWhile, ← components_dropWhile path, hdrop, components_cons hc]
      · have h1 := (List.dropWhile_sublist (fun a => decide (a = slash)) (l := path)).length_le
        have h2 := (List.dropWhile_sublist (fun a => decide (a ≠ slash)) (l := q)).length_le
        have h3 := (List.dropWhile_sublist (fun a => decide (a = slash))
          (l := q.dropWhile fun a => decide (a ≠ slash))).length_le
        rw [hdrop, List.length_cons] at h1
        rw [List.dropWhile_cons_of_pos (by simpa using hc)]
        omega
      · -- What is left is empty or starts with a component.
        cases hrest : ((c :: q).dropWhile (· ≠ slash)).dropWhile (· = slash) with
        | nil => simp [components]
        | cons d r => simp [components_cons (head_ne_slash hrest)]

theorem elems_components (path : List UInt8) : Elems path (components path) := by
  induction hlen : path.length using Nat.strong_induction_on generalizing path with
  | _ n ih =>
    cases h : skipelem path with
    | none =>
      rw [skipelem_eq_none h]
      exact .done h
    | some r =>
      obtain ⟨heq, hlt, -⟩ := skipelem_eq_some (show skipelem path = some (r.1, r.2) from h)
      rw [heq]
      exact .next h (ih r.1.length (hlen ▸ hlt) r.1 rfl)

theorem elems_iff (path : List UInt8) (names : List Name) :
    Elems path names ↔ names = components path := by
  constructor
  · intro h
    induction h with
    | done h => exact (skipelem_eq_none h).symm
    | next h _ ih => rw [(skipelem_eq_some h).1, ih]
  · rintro rfl
    exact elems_components path

end Skipelem

/-! ## `namex` -/

section Namex

variable {ip dp : Ino} {path : List UInt8} {name : Name} {names : List Name} {fuel : ℕ}

theorem namexLoop_namei (hfuel : path.length < fuel) :
    (do return (← namexLoop false fuel path ip name).map Prod.fst) = walk (components path) ip := by
  induction fuel generalizing path ip name with
  | zero => exact absurd hfuel (Nat.not_lt_zero _)
  | succ fuel ih =>
    rw [namexLoop]
    cases h : skipelem path with
    | none => simp [skipelem_eq_none h, walk]
    | some r =>
      obtain ⟨hcomp, hlen, -⟩ := skipelem_eq_some (show skipelem path = some (r.1, r.2) from h)
      rw [hcomp, walk]
      simp only [bind_assoc]
      refine bind_congr fun _ => bind_congr fun s => ?_
      by_cases ht : (s.inode ip).type ≠ T_DIR
      · simp [ht]
      · rw [if_neg ht, if_neg ht, if_neg (by simp)]
        unfold lookupIn
        simp only [bind_assoc]
        refine bind_congr fun l => ?_
        cases l with
        | none => simp
        | some next =>
          simp only [bind_assoc, pure_bind, Option.map_some]
          exact bind_congr fun _ => ih (by omega)

theorem namexLoop_nameiparent (hfuel : path.length < fuel) :
    namexLoop true fuel path ip name = walkParent (components path) ip := by
  induction fuel generalizing path ip name with
  | zero => exact absurd hfuel (Nat.not_lt_zero _)
  | succ fuel ih =>
    rw [namexLoop]
    cases h : skipelem path with
    | none => simp [skipelem_eq_none h, walkParent]
    | some r =>
      obtain ⟨hcomp, hlen, hlast⟩ := skipelem_eq_some (show skipelem path = some (r.1, r.2) from h)
      rw [hcomp]
      by_cases hrest : r.1 = []
      · -- The last component.
        rw [hlast.mp hrest]
        simp only [walkParent, List.getLast?_singleton, List.dropLast_singleton, walk, pure_bind,
          inDirectory]
        refine bind_congr fun _ => bind_congr fun s => ?_
        by_cases ht : (s.inode ip).type ≠ T_DIR
        · simp [ht]
        · rw [if_neg ht, if_neg ht, if_pos ⟨trivial, hrest⟩]
      · have hne : components r.1 ≠ [] := fun hnil => hrest (hlast.mpr hnil)
        unfold walkParent
        rw [List.getLast?_cons_of_ne_nil hne, List.dropLast_cons_of_ne_nil hne]
        cases hlast' : (components r.1).getLast? with
        | none => exact absurd (List.getLast?_eq_none_iff.mp hlast') hne
        | some last =>
          simp only [walk, bind_assoc]
          refine bind_congr fun _ => bind_congr fun s => ?_
          by_cases ht : (s.inode ip).type ≠ T_DIR
          · simp [ht]
          · rw [if_neg ht, if_neg ht, if_neg (by simp [hrest])]
            unfold lookupIn
            simp only [bind_assoc]
            refine bind_congr fun l => ?_
            cases l with
            | none => simp
            | some next =>
              simp only [pure_bind, Option.map_some]
              refine bind_congr fun _ => ?_
              rw [ih (by omega), walkParent, hlast']

theorem namex_eq (cwd : Ino) (path : List UInt8) (parent : Bool) :
    namex cwd path parent =
      start cwd path >>= fun ip => namexLoop parent (path.length + 1) path ip [] := by
  unfold namex start
  split_ifs <;> rfl

theorem namei_eq (cwd : Ino) (path : List UInt8) :
    namei cwd path = start cwd path >>= walk (components path) := by
  unfold namei
  rw [namex_eq, bind_assoc]
  exact bind_congr fun ip => namexLoop_namei (Nat.lt_succ_self _)

theorem nameiparent_eq (cwd : Ino) (path : List UInt8) :
    nameiparent cwd path = start cwd path >>= walkParent (components path) := by
  unfold nameiparent
  rw [namex_eq]
  exact bind_congr fun ip => namexLoop_nameiparent (Nat.lt_succ_self _)

theorem ilock_of_valid {s : State} (href : 1 ≤ (s.inode dp).ref) (hlock : (s.inode dp).lock = false)
    (hvalid : (s.inode dp).valid = true) : (ilock dp).run s = .ok ((), { s with
      inode := update s.inode dp { s.inode dp with lock := true } }) := by
  have hwp : wp (ilock dp) s fun _ a => a = { s with
      inode := update s.inode dp { s.inode dp with lock := true } } := by
    unfold ilock acquiresleep setInode
    simp [wp_bind, wp_ite, not_lt.mpr href, hlock, hvalid]
  obtain ⟨_, a, hrun, ha⟩ := hwp
  rw [hrun, ha]

theorem ilock_result (dp : Ino) (s : State) : wpOr (fun _ => True) (ilock dp) s fun _ a =>
    (a.inode dp).lock = true ∧ (a.inode dp).valid = true := by
  unfold ilock acquiresleep setInode
  refine wpOr_get_bind.mpr (.ite (fun _ => wpOr_throw.mpr trivial) fun _ => ?_)
  rw [bind_assoc]
  refine wpOr_get_bind.mpr ?_
  split_ifs
  · exact wpOr_throw.mpr trivial
  refine (wpOr_modify_bind _).mpr (wpOr_get_bind.mpr (.ite (fun _ => ?_) fun hvalid => ?_))
  · -- The inode is read from disk.
    unfold bread
    rw [bind_assoc]
    refine wpOr_get_bind.mpr ?_
    rw [pure_bind]
    refine (wpOr_modify_bind _).mpr (wpOr_get_bind.mpr (.ite (fun _ => ?_) fun _ => ?_))
    · exact wpOr_throw.mpr trivial
    · refine (wpOr_pure _).mpr ?_
      simp [getDinode]
  · refine (wpOr_pure _).mpr ?_
    simpa using hvalid

theorem iunlock_result (dp : Ino) (a : State) : wpOr (fun _ => True) (iunlock dp) a fun _ b =>
    1 ≤ (a.inode dp).ref ∧ b = { a with
      inode := update a.inode dp { a.inode dp with lock := false } } := by
  unfold iunlock releasesleep setInode
  refine wpOr_get_bind.mpr (.ite (fun _ => wpOr_throw.mpr trivial) fun hlock => ?_)
  refine (wpOr_modify _).mpr ⟨?_, rfl⟩
  rw [not_or, not_lt] at hlock
  exact hlock.2

theorem ilock_again {s a b : State} (h : (ilock dp).run s = .ok ((), a))
    (hu : (iunlock dp).run a = .ok ((), b)) : (ilock dp).run b = .ok ((), a) := by
  obtain ⟨hlock, hvalid⟩ := (ilock_result dp s).of_run h
  obtain ⟨href, rfl⟩ := (iunlock_result dp a).of_run hu
  rw [ilock_of_valid (by simpa using href) (by simp) (by simpa using hvalid)]
  simp only [update_self, update_idem]
  rw [← hlock, update_eq_self]

theorem walk_append (names1 names2 : List Name) (ip : Ino) : walk (names1 ++ names2) ip = (do
    match ← walk names1 ip with
    | none => return none
    | some next => walk names2 next) := by
  induction names1 generalizing ip with
  | nil => simp [walk]
  | cons name names1 ih =>
    rw [List.cons_append]
    simp only [walk, bind_assoc]
    refine bind_congr fun _ => bind_congr fun s => ?_
    by_cases ht : (s.inode ip).type ≠ T_DIR
    · simp [ht]
    · rw [if_neg ht, if_neg ht, bind_assoc]
      refine bind_congr fun r => ?_
      cases r with
      | none => simp
      | some next => exact ih next

theorem inDirectory_lookup {s s' : State} {dp' : Ino} {last : Name}
    (h : (inDirectory dp last).run s = .ok (some (dp', name), s')) :
    (walk [last] dp).run s = (do ilock dp'; lookupIn dp' name).run s' := by
  obtain ⟨_, a, hlock, h⟩ := run_bind_ok.mp h
  obtain ⟨_, _, ⟨⟩, h⟩ := run_bind_ok.mp h
  by_cases htype : (a.inode dp).type ≠ T_DIR
  · rw [if_pos htype] at h
    obtain ⟨-, _, -, ⟨⟩⟩ := run_bind_ok.mp h
  rw [if_neg htype] at h
  obtain ⟨_, b, hunlock, ⟨⟩⟩ := run_bind_ok.mp h
  rw [run_bind_of_ok (ilock_again hlock hunlock), walk, run_bind_of_ok hlock]
  change StateT.run (if _ then _ else _) a = _
  rw [if_neg htype]
  refine congrArg (fun x : F (Option Ino) => x.run a) ?_
  conv_rhs => rw [← bind_pure (lookupIn dp name)]
  refine bind_congr fun r => ?_
  cases r <;> rfl

/-- Where `nameiparent` finds a directory and a name, `namei` finds what is under that name in it. -/
theorem namei_of_nameiparent {s s' : State} {cwd : Ino}
    (h : (nameiparent cwd path).run s = .ok (some (dp, name), s')) :
    (namei cwd path).run s = (do ilock dp; lookupIn dp name).run s' := by
  rw [nameiparent_eq] at h
  rw [namei_eq]
  obtain ⟨ip, s1, hstart, h⟩ := run_bind_ok.mp h
  rw [run_bind_of_ok hstart]
  unfold walkParent at h
  split at h
  next =>
    obtain ⟨-, _, -, ⟨⟩⟩ := run_bind_ok.mp h
  next last hlast =>
    obtain ⟨r, s2, hwalk, h⟩ := run_bind_ok.mp h
    cases r with
    | none => cases h
    | some dp' =>
      rw [← List.dropLast_append_getLast? last hlast, walk_append, run_bind_of_ok hwalk]
      exact inDirectory_lookup h

/-- **Path resolution.** For every path, current directory and state: `skipelem` yields the components of
the path; `namei` looks them up one after the other; `nameiparent` does so for all components but the
last, which it returns, and fails if there is none; and where `nameiparent` returns a directory and a
name, `namei` is the lookup of the name in that directory. -/
theorem path_resolution (cwd : Ino) (path : List UInt8) :
    (∀ names, Elems path names ↔ names = components path) ∧
    namei cwd path = start cwd path >>= walk (components path) ∧
    nameiparent cwd path = start cwd path >>= walkParent (components path) ∧
    ∀ s s' dp name, (nameiparent cwd path).run s = .ok (some (dp, name), s') →
      (namei cwd path).run s = (do ilock dp; lookupIn dp name).run s' :=
  ⟨elems_iff path, namei_eq cwd path, nameiparent_eq cwd path,
    fun _ _ _ _ => namei_of_nameiparent⟩

end Namex

end Xv6.Fs
