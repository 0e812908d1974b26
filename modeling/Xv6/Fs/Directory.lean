import Xv6.Fs.Content
import Xv6.Fs.Dir

/-!
# A directory is a finite map

The contents of a directory are a sequence of entries; an entry with inode number 0 is free. Names are
compared up to the first zero and on their first `DIRSIZ` bytes (`nameEq_iff`). `Directory.lookup` is the
map; `dirlookup` computes it (`dirlookup_run`), `dirlink` adds one name and clearing an entry removes one
(`directory_finite_map`).
-/

namespace Xv6.Fs

open Function Lib

/-! ## Names -/

/-- What is compared of a name. -/
def key (name : Name) : Name := (name.takeWhile (· ≠ 0)).take DIRSIZ

section Names

variable {name : Name} {inum : ℕ}

theorem strneq_iff (n : ℕ) (s t : Name) :
    strneq n s t = true ↔ (s.takeWhile (· ≠ 0)).take n = (t.takeWhile (· ≠ 0)).take n := by
  induction n generalizing s t with
  | zero => simp [strneq]
  | succ n ih =>
    rw [strneq]
    cases s with
    | nil =>
      cases t with
      | nil => simp
      | cons b t =>
        by_cases hb : b = 0
        · simp [hb]
        · simp [hb, Ne.symm hb]
    | cons a s =>
      cases t with
      | nil =>
        by_cases ha : a = 0
        · simp [ha]
        · simp [ha]
      | cons b t =>
        by_cases hab : a = b
        · subst hab
          by_cases ha : a = 0
          · simp [ha]
          · simp [ha, ih s t]
        · by_cases ha : a = 0
          · subst ha
            simp [hab, Ne.symm hab]
          · by_cases hb : b = 0
            · simp [hb, ha]
            · simp [hab, ha, hb]

theorem nameEq_iff (s t : Name) : nameEq s t = true ↔ key s = key t := strneq_iff DIRSIZ s t

theorem takeWhile_padded {l : Name} (hl : ∀ b ∈ l, b ≠ 0) (n : ℕ) :
    ((List.range n).map fun k => l.getD k 0).takeWhile (· ≠ 0) = l.take n := by
  induction n generalizing l with
  | zero => simp
  | succ n ih =>
    rw [List.range_succ_eq_map, List.map_cons, List.map_map]
    cases l with
    | nil => simp
    | cons b l =>
      have hb : b ≠ 0 := hl b (by simp)
      have htail := ih (l := l) fun c hc => hl c (by simp [hc])
      rw [List.getD_cons_zero, List.takeWhile_cons_of_pos (by simpa using hb), List.take_succ_cons]
      exact congrArg (b :: ·) htail

theorem key_dirent : key (((List.range DIRENT).map (dirent inum name)).drop 2) = key name := by
  have hdrop : ((List.range DIRENT).map (dirent inum name)).drop 2 =
      (List.range DIRSIZ).map fun k => (name.takeWhile (· ≠ 0)).getD k 0 := by
    rw [← List.map_drop, show (List.range DIRENT).drop 2 = (List.range DIRSIZ).map (2 + ·) by decide,
      List.map_map]
    refine List.map_congr_left fun k _ => ?_
    rw [comp_apply, dirent, if_neg (by omega), Nat.add_sub_cancel_left]
  have hne : ∀ b ∈ name.takeWhile (· ≠ 0), b ≠ 0 := by
    intro b hb
    simpa using List.mem_takeWhile_imp hb
  rw [hdrop, key, takeWhile_padded hne, key, List.take_take, Nat.min_self]

theorem direntInum_dirent_eq_mod :
    direntInum ((List.range DIRENT).map (dirent inum name)) = inum % 2 ^ 16 := by
  have h0 : ((List.range DIRENT).map (dirent inum name)).getD 0 0 = Bytes.leByte inum 0 := rfl
  have h1 : ((List.range DIRENT).map (dirent inum name)).getD 1 0 = Bytes.leByte inum 1 := rfl
  rw [direntInum, h0, h1]
  simp only [Bytes.leByte, UInt8.toNat_ofNat']
  omega

theorem direntInum_dirent (h : inum < 2 ^ 16) :
    direntInum ((List.range DIRENT).map (dirent inum name)) = inum := by
  rw [direntInum_dirent_eq_mod, Nat.mod_eq_of_lt h]

end Names

/-! ## The map -/

/-- A directory: the number of entries, and the entries. -/
structure Directory where
  count : ℕ
  entry : ℕ → List UInt8

namespace Directory

/-- The inode number in entry `j`. -/
def inum (D : Directory) (j : ℕ) : ℕ := direntInum (D.entry j)

/-- The name in entry `j`. -/
def name (D : Directory) (j : ℕ) : Name := (D.entry j).drop 2

/-- Entry `j` is in use. -/
def Live (D : Directory) (j : ℕ) : Prop := j < D.count ∧ D.inum j ≠ 0

/-- No name is in two entries. -/
def Distinct (D : Directory) : Prop :=
  ∀ j j', D.Live j → D.Live j' → key (D.name j) = key (D.name j') → j = j'

/-- The inode number and the offset of the entry with a name. -/
def lookup (D : Directory) (n : Name) : Option (ℕ × ℕ) :=
  ((List.range D.count).find? fun j => D.inum j ≠ 0 ∧ nameEq n (D.name j)).map fun j =>
    (D.inum j, DIRENT * j)

/-- The first free entry, at the end if there is none. -/
def free (D : Directory) : ℕ := ((List.range D.count).find? fun j => D.inum j = 0).getD D.count

/-- The directory with entry `j` changed or appended. -/
def set (D : Directory) (j : ℕ) (de : List UInt8) : Directory :=
  ⟨max D.count (j + 1), update D.entry j de⟩

section Map

variable {D : Directory} {n n' : Name} {j : ℕ} {de : List UInt8}

theorem lookup_eq_none : D.lookup n = none ↔ ∀ j, D.Live j → key (D.name j) ≠ key n := by
  unfold lookup
  rw [Option.map_eq_none_iff, List.find?_eq_none]
  constructor
  · intro h j hj heq
    apply h j (List.mem_range.mpr hj.1)
    simpa [hj.2] using (nameEq_iff n (D.name j)).mpr heq.symm
  · intro h j hj hc
    obtain ⟨h0, heq⟩ := by simpa using hc
    exact h j ⟨List.mem_range.mp hj, h0⟩ ((nameEq_iff _ _).mp heq).symm

theorem exists_of_lookup {k off : ℕ} (h : D.lookup n = some (k, off)) :
    ∃ j, D.Live j ∧ key (D.name j) = key n ∧ k = D.inum j ∧ off = DIRENT * j := by
  obtain ⟨j, hj, heq⟩ := Option.map_eq_some_iff.mp h
  have hmem := List.mem_range.mp (List.mem_of_find?_eq_some hj)
  obtain ⟨h0, hname⟩ := by simpa using List.find?_some hj
  cases heq
  exact ⟨j, ⟨hmem, h0⟩, ((nameEq_iff _ _).mp hname).symm, rfl, rfl⟩

theorem lookup_eq_some (hD : D.Distinct) {k off : ℕ} : D.lookup n = some (k, off) ↔
    ∃ j, D.Live j ∧ key (D.name j) = key n ∧ k = D.inum j ∧ off = DIRENT * j := by
  constructor
  · exact exists_of_lookup
  · rintro ⟨j, hj, hname, rfl, rfl⟩
    cases h : D.lookup n with
    | none => exact absurd hname (lookup_eq_none.mp h j hj)
    | some r =>
      obtain ⟨j', hj', hname', hk, hoff⟩ := exists_of_lookup h
      obtain rfl := hD j j' hj hj' (hname.trans hname'.symm)
      exact congrArg some (Prod.ext hk hoff)

theorem lookup_congr {D' : Directory} (hD : D.Distinct) (hD' : D'.Distinct)
    (h : ∀ j, key (D'.name j) = key n ∧ D'.Live j ∨ key (D.name j) = key n ∧ D.Live j →
      D'.entry j = D.entry j ∧ (D'.Live j ↔ D.Live j)) : D'.lookup n = D.lookup n := by
  refine Option.ext fun r => ?_
  obtain ⟨k, off⟩ := r
  rw [lookup_eq_some hD', lookup_eq_some hD]
  refine exists_congr fun j => ?_
  constructor
  · rintro ⟨hlive, hname, rfl, rfl⟩
    obtain ⟨heq, hiff⟩ := h j (.inl ⟨hname, hlive⟩)
    unfold name at hname
    rw [heq] at hname
    exact ⟨hiff.mp hlive, hname, by rw [inum, inum, heq], rfl⟩
  · rintro ⟨hlive, hname, rfl, rfl⟩
    obtain ⟨heq, hiff⟩ := h j (.inr ⟨hname, hlive⟩)
    refine ⟨hiff.mpr hlive, ?_, by rw [inum, inum, heq], rfl⟩
    unfold name at hname ⊢
    rwa [heq]

/-- The free entry is not in use, and there is none before the end if it is the end. -/
theorem free_spec : D.free ≤ D.count ∧ ¬ D.Live D.free ∧ (D.free = D.count → ∀ j, j < D.count → D.Live j) := by
  unfold free
  cases h : (List.range D.count).find? fun j => D.inum j = 0 with
  | none =>
    refine ⟨le_rfl, fun hl => absurd hl.1 (lt_irrefl _), fun _ j hj => ⟨hj, ?_⟩⟩
    simpa using List.find?_eq_none.mp h j (List.mem_range.mpr hj)
  | some j =>
    have hmem := List.mem_range.mp (List.mem_of_find?_eq_some h)
    have h0 : D.inum j = 0 := by simpa using List.find?_some h
    exact ⟨hmem.le, fun hl => hl.2 h0, fun heq => absurd heq hmem.ne⟩

theorem set_entry_of_ne {i : ℕ} (hi : i ≠ j) : (D.set j de).entry i = D.entry i :=
  update_of_ne hi _ _

theorem set_live_of_ne (hj : j ≤ D.count) {i : ℕ} (hi : i ≠ j) : (D.set j de).Live i ↔ D.Live i := by
  unfold Live inum
  rw [set_entry_of_ne hi]
  refine and_congr_left fun _ => ?_
  change i < max D.count (j + 1) ↔ i < D.count
  omega

theorem set_name_of_ne {i : ℕ} (hi : i ≠ j) : (D.set j de).name i = D.name i := by
  unfold name
  rw [set_entry_of_ne hi]

theorem set_self : (D.set j de).entry j = de := update_self ..

theorem set_lookup_of_ne (hD : D.Distinct) (hD' : (D.set j de).Distinct) (hj : j ≤ D.count)
    (hold : D.Live j → key (D.name j) = key n) (hnew : direntInum de ≠ 0 → key (de.drop 2) = key n)
    (hne : key n' ≠ key n) : (D.set j de).lookup n' = D.lookup n' := by
  refine lookup_congr hD hD' fun i hi => ?_
  have hij : i ≠ j := by
    rintro rfl
    obtain ⟨hname, hlive⟩ | ⟨hname, hlive⟩ := hi
    · apply hne
      unfold Live inum at hlive
      unfold name at hname
      rw [set_self] at hlive hname
      rw [← hname, hnew hlive.2]
    · exact hne (hname.symm.trans (hold hlive))
  exact ⟨set_entry_of_ne hij, set_live_of_ne hj hij⟩

theorem set_distinct (hD : D.Distinct) (hj : j ≤ D.count)
    (hnew : direntInum de ≠ 0 → ∀ i, i ≠ j → D.Live i → key (D.name i) ≠ key (de.drop 2)) :
    (D.set j de).Distinct := by
  have hself : (D.set j de).Live j → direntInum de ≠ 0 := by
    intro hlive
    have := hlive.2
    unfold inum at this
    rwa [set_self] at this
  have hname : (D.set j de).name j = de.drop 2 := by
    unfold name
    rw [set_self]
  intro a b ha hb heq
  by_cases haj : a = j
  · by_cases hbj : b = j
    · rw [haj, hbj]
    · rw [haj] at ha heq
      rw [hname, set_name_of_ne hbj] at heq
      exact absurd heq.symm (hnew (hself ha) b hbj ((set_live_of_ne hj hbj).mp hb))
  · by_cases hbj : b = j
    · rw [hbj] at hb heq
      rw [hname, set_name_of_ne haj] at heq
      exact absurd heq (hnew (hself hb) a haj ((set_live_of_ne hj haj).mp ha))
    · rw [set_name_of_ne haj, set_name_of_ne hbj] at heq
      exact hD a b ((set_live_of_ne hj haj).mp ha) ((set_live_of_ne hj hbj).mp hb) heq

end Map

end Directory

/-! ## Directories on disk -/

/-- The directory in file `d`. -/
def State.directory (s : State) (d : ℕ) : Directory where
  count := s.fsize d / DIRENT
  entry j := if j < s.fsize d / DIRENT then (List.range DIRENT).map fun k => s.content d (DIRENT * j + k) else []

/-- A directory that is in memory, with a reference to it. -/
structure IsDir (s : State) (lo : ℕ) (dp : Ino) : Prop where
  cons : Consistent s lo
  loaded : Loaded s dp
  type : (s.inode dp).type = T_DIR
  size : s.fsize (s.inode dp).inum % DIRENT = 0
  ref : 0 < (s.inode dp).ref

section OnDisk

variable {s s' : State} {lo : ℕ} {dp : Ino} {d j fuel inum : ℕ} {name : Name} {src : ℕ → UInt8}

/-- The directory of an inode in memory. -/
def State.dir (s : State) (dp : Ino) : Directory := s.directory (s.inode dp).inum

theorem IsDir.fsize_eq (h : IsDir s lo dp) : s.fsize (s.inode dp).inum = DIRENT * (s.dir dp).count := by
  change _ = DIRENT * (s.fsize (s.inode dp).inum / DIRENT)
  rw [Nat.mul_div_cancel' (Nat.dvd_of_mod_eq_zero h.size)]

theorem IsDir.fsize_le (h : IsDir s lo dp) : DIRENT * (s.dir dp).count ≤ MAXFILE * BSIZE := by
  rw [← h.fsize_eq]
  exact h.cons.size _ h.loaded.live

theorem IsDir.readi_entry (h : IsDir s lo dp) (hj : j < (s.dir dp).count) :
    wp (readi dp (DIRENT * j) DIRENT) s fun r s' => s' = s ∧ r = (s.dir dp).entry j ∧ r.length = DIRENT := by
  have hle := h.fsize_le
  have hmax := maxfile_lt
  have hmul : DIRENT * (j + 1) ≤ DIRENT * (s.dir dp).count := Nat.mul_le_mul_left _ hj
  rw [Nat.mul_add, Nat.mul_one] at hmul
  refine (readi_spec h.cons h.loaded (by omega) (by decide)).mono ?_
  rintro r t ⟨rfl, rfl⟩
  rw [h.fsize_eq, if_neg (by omega), Nat.min_eq_left (by omega)]
  refine ⟨rfl, (if_pos hj).symm, by simp⟩

/-- The loop of `dirlookup` finds the first entry with the name. -/
theorem IsDir.lookupLoop_spec (h : IsDir s lo dp) (name : Name) (hj : j ≤ (s.dir dp).count)
    (hfuel : (s.dir dp).count - j < fuel) :
    wp (lookupLoop dp name fuel (DIRENT * j)) s fun r s' => s' = s ∧
      r = ((List.range' j ((s.dir dp).count - j)).find? fun j =>
        (s.dir dp).inum j ≠ 0 ∧ nameEq name ((s.dir dp).name j)).map fun j =>
          ((s.dir dp).inum j, DIRENT * j) := by
  induction fuel generalizing j with
  | zero => omega
  | succ fuel ih =>
    have hpos : 0 < DIRENT := by decide
    rw [lookupLoop, wp_bind, wp_get, h.loaded.size, h.fsize_eq]
    by_cases hend : (s.dir dp).count ≤ j
    · rw [if_pos (Nat.mul_le_mul_left _ hend), wp_pure, Nat.sub_eq_zero_of_le hend]
      exact ⟨rfl, rfl⟩
    have hlt : j < (s.dir dp).count := not_le.mp hend
    rw [if_neg (not_le.mpr (Nat.mul_lt_mul_of_pos_left hlt hpos))]
    refine (h.readi_entry hlt).bind ?_
    rintro de t ⟨rfl, rfl, hlen⟩
    rw [if_neg (not_not.mpr hlen), show (t.dir dp).count - j = (t.dir dp).count - (j + 1) + 1 by omega,
      List.range'_succ]
    by_cases hmatch : (t.dir dp).inum j ≠ 0 ∧ nameEq name ((t.dir dp).name j) = true
    · rw [List.find?_cons_of_pos (by simpa using hmatch)]
      refine .ite (fun _ => (wp_pure _).mpr ⟨rfl, rfl⟩) fun hno => absurd hmatch hno
    · rw [List.find?_cons_of_neg (by simpa using hmatch)]
      refine .ite (fun hyes => absurd hyes hmatch) fun _ => ?_
      exact ih hlt (by omega)

/-- The rest of `dirlookup`, once the entry is found. -/
def found (dev : ℕ) : Option (ℕ × ℕ) → F (Option (Ino × ℕ))
  | none => return none
  | some (inum, off) => return some (← iget dev inum, off)

theorem IsDir.dirlookup_run (h : IsDir s lo dp) (name : Name) :
    (dirlookup dp name).run s = (found (s.inode dp).dev ((s.dir dp).lookup name)).run s := by
  have hcount : (s.dir dp).count ≤ (s.inode dp).size := by
    rw [h.loaded.size, h.fsize_eq]
    exact Nat.le_mul_of_pos_left _ (by decide)
  obtain ⟨r, t, hrun, rfl, rfl⟩ := h.lookupLoop_spec name (Nat.zero_le _)
    (show (s.dir dp).count - 0 < (s.inode dp).size + 1 by omega)
  rw [Nat.mul_zero] at hrun
  unfold dirlookup
  rw [run_bind_of_ok (show (get : F State).run t = .ok (t, t) from rfl), if_neg (not_not.mpr h.type),
    run_bind_of_ok hrun]
  unfold Directory.lookup
  rw [Nat.sub_zero, ← List.range_eq_range']
  cases ((List.range (t.dir dp).count).find? fun j =>
    (t.dir dp).inum j ≠ 0 ∧ nameEq name ((t.dir dp).name j)).map fun j => ((t.dir dp).inum j, DIRENT * j) <;> rfl

/-- The loop of `dirlink` finds the first entry that is free, or the end. -/
theorem IsDir.emptyLoop_spec (h : IsDir s lo dp) (hj : j ≤ (s.dir dp).count)
    (hfuel : (s.dir dp).count - j < fuel) :
    wp (emptyLoop dp fuel (DIRENT * j)) s fun r s' => s' = s ∧
      r = DIRENT * ((List.range' j ((s.dir dp).count - j)).find? fun j =>
        (s.dir dp).inum j = 0).getD (s.dir dp).count := by
  induction fuel generalizing j with
  | zero => omega
  | succ fuel ih =>
    have hpos : 0 < DIRENT := by decide
    rw [emptyLoop, wp_bind, wp_get, h.loaded.size, h.fsize_eq]
    by_cases hend : (s.dir dp).count ≤ j
    · rw [if_pos (Nat.mul_le_mul_left _ hend), wp_pure, Nat.sub_eq_zero_of_le hend, le_antisymm hj hend]
      exact ⟨rfl, rfl⟩
    have hlt : j < (s.dir dp).count := not_le.mp hend
    rw [if_neg (not_le.mpr (Nat.mul_lt_mul_of_pos_left hlt hpos))]
    refine (h.readi_entry hlt).bind ?_
    rintro de t ⟨rfl, rfl, hlen⟩
    rw [if_neg (not_not.mpr hlen), show (t.dir dp).count - j = (t.dir dp).count - (j + 1) + 1 by omega,
      List.range'_succ]
    by_cases hfree : (t.dir dp).inum j = 0
    · rw [List.find?_cons_of_pos (by simpa using hfree)]
      refine .ite (fun _ => (wp_pure _).mpr ⟨rfl, rfl⟩) fun hno => absurd hfree hno
    · rw [List.find?_cons_of_neg (by simpa using hfree)]
      refine .ite (fun hyes => absurd hyes hfree) fun _ => ?_
      exact ih hlt (by omega)

theorem IsDir.written (h : IsDir s lo dp) (hj : j ≤ (s.dir dp).count) (hc : Consistent s' lo)
    (hl : Loaded s' dp) {tot : ℕ} (hw : Written dp src (DIRENT * j) tot s s') (htot : tot = 0 ∨ tot = DIRENT) :
    IsDir s' lo dp ∧ s'.dir dp =
      if tot = 0 then s.dir dp else (s.dir dp).set j ((List.range DIRENT).map src) := by
  have hself : s'.inode dp =
      { s.inode dp with size := (s'.inode dp).size, addrs := (s'.inode dp).addrs } := by
    have := congrFun hw.inode dp
    rwa [update_self] at this
  have hinum : (s'.inode dp).inum = (s.inode dp).inum := by rw [hself]
  have hpos : 0 < DIRENT := by decide
  have hsize : s'.fsize (s.inode dp).inum =
      DIRENT * (if tot = 0 then (s.dir dp).count else max (s.dir dp).count (j + 1)) := by
    have hmul := Nat.mul_le_mul_left DIRENT hj
    rw [hw.size, h.fsize_eq]
    split_ifs with h0
    · omega
    · rw [htot.resolve_left h0]
      rw [show DIRENT = 16 from rfl]
      omega
  have hle := hc.size _ hl.live
  rw [hinum, hsize] at hle
  have hD : s'.dir dp = if tot = 0 then s.dir dp else (s.dir dp).set j ((List.range DIRENT).map src) := by
    unfold State.dir
    rw [hinum]
    have hcount : s'.fsize (s.inode dp).inum / DIRENT =
        if tot = 0 then (s.dir dp).count else max (s.dir dp).count (j + 1) := by
      rw [hsize, Nat.mul_div_cancel_left _ hpos]
    -- A byte of an entry.
    have hbyte : ∀ i k, i < s'.fsize (s.inode dp).inum / DIRENT → k < DIRENT →
        s'.content (s.inode dp).inum (DIRENT * i + k) =
          if tot ≠ 0 ∧ i = j then src k else s.content (s.inode dp).inum (DIRENT * i + k) := by
      intro i k hi hk
      rw [hcount] at hi
      have hmul := Nat.mul_le_mul_left DIRENT (Nat.succ_le_of_lt hi)
      rw [Nat.succ_eq_add_one, Nat.mul_add, Nat.mul_one] at hmul
      rw [hw.bytes _ (by omega)]
      rw [show DIRENT = 16 from rfl] at hk htot ⊢
      by_cases hij : tot ≠ 0 ∧ i = j
      · obtain ⟨h0, rfl⟩ := hij
        rw [if_pos ⟨by omega, by omega⟩, if_pos ⟨h0, rfl⟩, Nat.add_sub_cancel_left]
      · rw [if_neg hij, if_neg]
        rintro ⟨h1, h2⟩
        apply hij
        omega
    split_ifs at hcount ⊢ with h0
    · unfold State.directory
      refine congrArg₂ Directory.mk hcount (funext fun i => ?_)
      rw [hcount]
      refine if_ctx_congr Iff.rfl (fun hi => List.map_congr_left fun k hk => ?_) fun _ => rfl
      rw [hbyte i k (by rw [hcount]; exact hi) (List.mem_range.mp hk), if_neg fun hc => hc.1 h0]
    · unfold State.directory Directory.set
      refine congrArg₂ Directory.mk hcount (funext fun i => ?_)
      rw [hcount]
      by_cases hij : i = j
      · subst hij
        rw [update_self, if_pos (by omega)]
        refine List.map_congr_left fun k hk => ?_
        rw [hbyte i k (by rw [hcount]; omega) (List.mem_range.mp hk), if_pos ⟨h0, rfl⟩]
      · rw [update_of_ne hij]
        change (if i < max (s.dir dp).count (j + 1) then _ else _) =
          if i < (s.dir dp).count then _ else _
        refine if_ctx_congr (by omega) (fun hi => List.map_congr_left fun k hk => ?_) fun _ => rfl
        rw [hbyte i k (by rw [hcount]; omega) (List.mem_range.mp hk), if_neg fun hc => hij hc.2]
  refine ⟨⟨hc, hl, ?_, ?_, ?_⟩, hD⟩
  · rw [hself]
    exact h.type
  · rw [hinum, hsize, Nat.mul_mod_right]
  · rw [hself]
    exact h.ref

/-- At most file `dp` has changed. -/
def Touched (dp : Ino) (lo : ℕ) (s s' : State) : Prop :=
  s' = s ∨ (Exact s lo → Exact s' lo) ∧ ∃ src off tot, Written dp src off tot s s'

/-- No block is left for the directory to grow: it has its largest size, or all blocks are in use. -/
def NoBlock (s s' : State) (dp : Ino) : Prop :=
  s.fsize (s.inode dp).inum = MAXFILE * BSIZE ∨ Full s'

theorem IsDir.writei_entry (h : IsDir s lo dp) (hj : j ≤ (s.dir dp).count) (src : ℕ → UInt8) :
    wp (writei dp src (DIRENT * j) DIRENT) s fun r s' => IsDir s' lo dp ∧ Touched dp lo s s' ∧
      (r = DIRENT ∧ s'.dir dp = (s.dir dp).set j ((List.range DIRENT).map src) ∨
        r ≠ DIRENT ∧ s'.dir dp = s.dir dp ∧ j = (s.dir dp).count ∧ NoBlock s s' dp) := by
  have hle := h.fsize_le
  have hmax := maxfile_lt
  have hmul := Nat.mul_le_mul_left DIRENT hj
  have hfsize := h.fsize_eq
  refine (writei_spec h.cons h.loaded src (by omega) (by decide)).mono ?_
  rintro r t ⟨hc, hl, he, hr⟩
  split_ifs at hr with hbad
  · -- The directory has its largest size.
    obtain ⟨rfl, rfl⟩ := hr
    have hcount : MAXFILE * BSIZE = 16 * 17152 := by decide
    rw [show DIRENT = 16 from rfl] at *
    have hend : j = (t.dir dp).count := by omega
    exact ⟨h, .inl rfl, .inr ⟨by decide, rfl, hend, .inl (by omega)⟩⟩
  · obtain ⟨tot, rfl, htot, hshort, hw⟩ := hr
    by_cases hall : tot = DIRENT
    · obtain ⟨hdir, hD⟩ := h.written hj hc hl hw (.inr hall)
      rw [if_neg (by rw [hall]; decide)] at hD
      exact ⟨hdir, .inr ⟨he, _, _, _, hw⟩, .inl ⟨by rw [hall], hD⟩⟩
    · have hs := hshort (by omega)
      have hdvd : BSIZE = 16 * 64 := by decide
      have hdiv := Nat.div_add_mod (DIRENT * j + tot) BSIZE
      -- Entries do not cross blocks.
      have h0 : tot = 0 := by
        by_contra h0
        have := hs.aligned (by omega)
        rw [show DIRENT = 16 from rfl, show BSIZE = 1024 from rfl] at *
        omega
      subst h0
      obtain ⟨hdir, hD⟩ := h.written hj hc hl hw (.inl rfl)
      rw [if_pos rfl] at hD
      refine ⟨hdir, .inr ⟨he, _, _, _, hw⟩, .inr ⟨by decide, hD, ?_, .inr hs.full⟩⟩
      have hbeyond := hs.beyond
      rw [hfsize, Nat.mul_comm _ BSIZE] at hbeyond
      rw [show DIRENT = 16 from rfl] at *
      omega

/-! ## `dirlink` -/

/-- The inode table has an entry for the inode, or a free one. -/
def Room (s : State) (dev inum : ℕ) : Prop :=
  ∃ ip, 0 < (s.inode ip).ref ∧ (s.inode ip).dev = dev ∧ (s.inode ip).inum = inum ∨ (s.inode ip).ref = 0

/-- `iget` returns an entry in use with one more reference, or an unused one that is not valid. -/
theorem iget_returns (dev k : ℕ) : wpOr (fun e => e = .iget ∧ ¬ Room s dev k) (iget dev k) s fun ip t =>
    ∃ i, t = { s with inode := update s.inode ip i } ∧
      (0 < (s.inode ip).ref ∧ i = { s.inode ip with ref := (s.inode ip).ref + 1 } ∨
        (s.inode ip).ref = 0 ∧ i = { s.inode ip with dev := dev, inum := k, ref := 1, valid := false }) := by
  unfold iget setInode
  rw [wpOr_get_bind]
  cases hin : (List.finRange NINODE).find? fun ip =>
      (s.inode ip).ref > 0 ∧ (s.inode ip).dev = dev ∧ (s.inode ip).inum = k with
  | some ip =>
    have hip := List.find?_some hin
    simp only [decide_eq_true_eq] at hip
    simp only
    rw [wpOr_modify_bind, wpOr_pure]
    exact ⟨_, rfl, .inl ⟨hip.1, rfl⟩⟩
  | none =>
    simp only
    cases hfree : (List.finRange NINODE).find? fun ip => (s.inode ip).ref = 0 with
    | some ip =>
      have hip := List.find?_some hfree
      simp only [decide_eq_true_eq] at hip
      simp only
      rw [wpOr_modify_bind, wpOr_pure]
      exact ⟨_, rfl, .inr ⟨hip, rfl⟩⟩
    | none =>
      simp only
      rw [wpOr_throw]
      refine ⟨rfl, ?_⟩
      rintro ⟨ip, hip | hip⟩
      · exact absurd hip (by simpa using List.find?_eq_none.mp hin ip (List.mem_finRange ip))
      · exact absurd hip (by simpa using List.find?_eq_none.mp hfree ip (List.mem_finRange ip))

theorem Consistent.of_disk (h : Consistent s lo) (hsb : s'.sb = s.sb) (hdisk : s'.disk = s.disk) :
    Consistent s' lo := by
  obtain ⟨sb, disk, inode⟩ := s
  obtain ⟨sb', disk', inode'⟩ := s'
  obtain rfl : sb' = sb := hsb
  obtain rfl : disk' = disk := hdisk
  exact ⟨h.geom, h.pos, h.owns, h.low, h.stored, h.size, h.blocks⟩

theorem IsDir.of_disk (h : IsDir s lo dp) (hsb : s'.sb = s.sb) (hdisk : s'.disk = s.disk)
    (hdp : s'.inode dp = s.inode dp) : IsDir s' lo dp ∧ s'.dir dp = s.dir dp := by
  have hcons := h.cons.of_disk hsb hdisk
  have hl := h.loaded
  have htype := h.type
  have hsize := h.size
  have href := h.ref
  unfold State.dir
  obtain ⟨sb, disk, inode⟩ := s
  obtain ⟨sb', disk', inode'⟩ := s'
  obtain rfl : sb' = sb := hsb
  obtain rfl : disk' = disk := hdisk
  change inode' dp = inode dp at hdp
  refine ⟨⟨hcons, ?_, ?_, ?_, ?_⟩, ?_⟩
  · obtain ⟨h1, h2, h3, h4, h5⟩ := hl
    constructor
    all_goals
      simp only [hdp]
      assumption
  · change (inode' dp).type = T_DIR
    rwa [hdp]
  · change State.fsize _ (inode' dp).inum % DIRENT = 0
    rw [hdp]
    exact hsize
  · change 0 < (inode' dp).ref
    rwa [hdp]
  · change State.directory _ (inode' dp).inum = State.directory _ (inode dp).inum
    rw [hdp]
    rfl

/-- `dirlink` of a name that is there: its reference to the inode is put back, and at most an unused entry
of the inode table changes. -/
theorem IsDir.dirlink_present (h : IsDir s lo dp) {k off : ℕ} (hfound : (s.dir dp).lookup name = some (k, off)) :
    wpOr (fun e => e = .iget ∧ ¬ Room s (s.inode dp).dev k) (dirlink dp name inum) s fun r s' =>
      r = -1 ∧ ∃ ip i, s' = { s with inode := update s.inode ip i } ∧
        (i = s.inode ip ∨ (s.inode ip).ref = 0 ∧ i.ref = 0 ∧ i.inum = k) := by
  unfold dirlink
  have hlookup : wpOr (fun e => e = .iget ∧ ¬ Room s (s.inode dp).dev k) (dirlookup dp name) s fun r t =>
      ∃ ip i, r = some (ip, off) ∧ t = { s with inode := update s.inode ip i } ∧
        (0 < (s.inode ip).ref ∧ i = { s.inode ip with ref := (s.inode ip).ref + 1 } ∨
          (s.inode ip).ref = 0 ∧
            i = { s.inode ip with dev := (s.inode dp).dev, inum := k, ref := 1, valid := false }) := by
    have hrun := h.dirlookup_run name
    rw [hfound] at hrun
    refine wpOr.of_run_eq ((iget_returns (s.inode dp).dev k).bind ?_) hrun
    rintro ip t ⟨i, ht, hi⟩
    rw [wpOr_pure]
    exact ⟨ip, i, rfl, ht, hi⟩
  refine hlookup.bind ?_
  rintro _ t ⟨ip, i, rfl, rfl, hi⟩
  simp only
  unfold iput setInode
  rw [bind_assoc, wpOr_get_bind]
  -- There is another reference, or the entry is not valid: nothing is freed.
  have hno : ¬ (i.ref = 1 ∧ i.valid = true ∧ i.nlink = 0) := by
    rintro ⟨h1, h2, -⟩
    obtain ⟨hpos, rfl⟩ | ⟨-, rfl⟩ := hi
    · change (s.inode ip).ref + 1 = 1 at h1
      omega
    · cases h2
  simp only [update_self]
  rw [if_neg hno, wpOr_modify_bind, wpOr_pure]
  refine ⟨rfl, ip, { i with ref := i.ref - 1 }, by simp only [update_self, update_idem], ?_⟩
  obtain ⟨-, rfl⟩ | ⟨hzero, rfl⟩ := hi
  · exact .inl (by simp)
  · exact .inr ⟨hzero, by simp, rfl⟩

theorem IsDir.dirlink_absent (h : IsDir s lo dp) (hnone : (s.dir dp).lookup name = none) :
    wp (dirlink dp name inum) s fun r s' => IsDir s' lo dp ∧ Touched dp lo s s' ∧
      (r = 0 ∧ s'.dir dp = (s.dir dp).set (s.dir dp).free ((List.range DIRENT).map (dirent inum name)) ∨
        r = -1 ∧ s'.dir dp = s.dir dp ∧ (∀ j, j < (s.dir dp).count → (s.dir dp).Live j) ∧
          NoBlock s s' dp) := by
  have hcount : (s.dir dp).count ≤ (s.inode dp).size := by
    rw [h.loaded.size, h.fsize_eq]
    exact Nat.le_mul_of_pos_left _ (by decide)
  obtain ⟨hle, -, hend⟩ := Directory.free_spec (D := s.dir dp)
  unfold dirlink
  have hrun := h.dirlookup_run name
  rw [hnone] at hrun
  refine wp.bind (Q := fun r t => r = none ∧ t = s) ⟨none, s, hrun, rfl, rfl⟩ ?_
  rintro _ s ⟨rfl, rfl⟩
  simp only
  rw [wp_bind, wp_get]
  have hempty := h.emptyLoop_spec (Nat.zero_le _)
    (show (s.dir dp).count - 0 < (s.inode dp).size + 1 by omega)
  rw [Nat.sub_zero, ← List.range_eq_range', Nat.mul_zero] at hempty
  refine hempty.bind ?_
  rintro _ s ⟨rfl, rfl⟩
  refine (h.writei_entry hle (dirent inum name)).bind ?_
  rintro r t ⟨hdir, htouch, ⟨rfl, hD⟩ | ⟨hr, hD, hcnt, hblock⟩⟩
  · rw [if_neg (not_not.mpr rfl), wp_pure]
    exact ⟨hdir, htouch, .inl ⟨rfl, hD⟩⟩
  · rw [if_pos hr, wp_pure]
    exact ⟨hdir, htouch, .inr ⟨rfl, hD, hend hcnt, hblock⟩⟩

/-- **A directory is a finite map.** Take a directory whose size is a multiple of 16 and whose live
entries have different names. `dirlookup` finds what the map says. `dirlink` of a name that is there
returns -1 and changes no entry, unless `iget` panics as the inode table is full. `dirlink` of a name that
is not there returns -1 and changes no entry if it finds no free entry and no block; else the name is
mapped to the inode, all other names are mapped as before, and names stay different. Clearing the entry
that `dirlookup` reports removes exactly its name. The size stays a multiple of 16 (`IsDir`). -/
theorem directory_finite_map (h : IsDir s lo dp) (hD : (s.dir dp).Distinct) (hpos : 1 ≤ inum)
    (hinum : inum ≤ 65535) (name : Name) :
    (∀ n, (dirlookup dp n).run s = (found (s.inode dp).dev ((s.dir dp).lookup n)).run s) ∧
    (∀ k off, (s.dir dp).lookup name = some (k, off) →
      wpOr (fun e => e = .iget ∧ ¬ Room s (s.inode dp).dev k) (dirlink dp name inum) s fun r s' =>
        r = -1 ∧ IsDir s' lo dp ∧ s'.dir dp = s.dir dp) ∧
    ((s.dir dp).lookup name = none → wp (dirlink dp name inum) s fun r s' => IsDir s' lo dp ∧
      (r = -1 ∧ s'.dir dp = s.dir dp ∧ (∀ j, j < (s.dir dp).count → (s.dir dp).Live j) ∧ NoBlock s s' dp ∨
        r = 0 ∧ (s'.dir dp).Distinct ∧ (∃ off, (s'.dir dp).lookup name = some (inum, off)) ∧
          ∀ n, key n ≠ key name → (s'.dir dp).lookup n = (s.dir dp).lookup n)) ∧
    (∀ k off, (s.dir dp).lookup name = some (k, off) →
      wp (writei dp (fun _ => 0) off DIRENT) s fun r s' => r = DIRENT ∧ IsDir s' lo dp ∧
        (s'.dir dp).Distinct ∧ (s'.dir dp).lookup name = none ∧
          ∀ n, key n ≠ key name → (s'.dir dp).lookup n = (s.dir dp).lookup n) := by
  refine ⟨h.dirlookup_run, fun k off hk => ?_, fun hnone => ?_, fun k off hk => ?_⟩
  · refine (h.dirlink_present hk).mono ?_
    rintro r t ⟨rfl, ip, i, rfl, hi⟩
    refine ⟨rfl, h.of_disk rfl rfl ?_⟩
    change update s.inode ip i dp = s.inode dp
    by_cases heq : dp = ip
    · subst heq
      rw [update_self]
      have href := h.ref
      obtain rfl | ⟨hzero, -⟩ := hi
      · rfl
      · omega
    · rw [update_of_ne heq]
  · refine (h.dirlink_absent hnone).mono ?_
    rintro r t ⟨hdir, -, ⟨rfl, ht⟩ | ⟨rfl, ht, hfull, hblock⟩⟩
    · refine ⟨hdir, .inr ⟨rfl, ?_⟩⟩
      obtain ⟨hle, hfree, -⟩ := Directory.free_spec (D := s.dir dp)
      have hdistinct : (t.dir dp).Distinct := by
        rw [ht]
        refine Directory.set_distinct hD hle fun _ i _ hlive => ?_
        rw [key_dirent]
        exact Directory.lookup_eq_none.mp hnone i hlive
      refine ⟨hdistinct, ⟨DIRENT * (s.dir dp).free, ?_⟩, fun n hne => ?_⟩
      · rw [Directory.lookup_eq_some hdistinct, ht]
        refine ⟨(s.dir dp).free, ⟨?_, ?_⟩, ?_, ?_, rfl⟩
        · exact lt_of_lt_of_le (Nat.lt_succ_self _) (le_max_right _ _)
        · rw [Directory.inum, Directory.set_self, direntInum_dirent (by omega)]
          omega
        · rw [Directory.name, Directory.set_self, key_dirent]
        · rw [Directory.inum, Directory.set_self, direntInum_dirent (by omega)]
      · rw [ht] at hdistinct ⊢
        exact Directory.set_lookup_of_ne hD hdistinct hle (fun hlive => absurd hlive hfree)
          (fun _ => key_dirent) hne
    · exact ⟨hdir, .inl ⟨rfl, ht, hfull, hblock⟩⟩
  · obtain ⟨j, hlive, hname, rfl, rfl⟩ := (Directory.lookup_eq_some hD).mp hk
    refine (h.writei_entry hlive.1.le fun _ => 0).mono ?_
    rintro r t ⟨hdir, -, ⟨rfl, ht⟩ | ⟨-, -, hend, -⟩⟩
    swap
    · exact absurd hend hlive.1.ne
    have hzero : direntInum ((List.range DIRENT).map fun _ => (0 : UInt8)) = 0 := by decide
    have hdistinct : (t.dir dp).Distinct := by
      rw [ht]
      exact Directory.set_distinct hD hlive.1.le fun hne => absurd hzero hne
    refine ⟨rfl, hdir, hdistinct, ?_, fun n hne => ?_⟩
    · rw [Directory.lookup_eq_none, ht]
      intro i hi heq
      by_cases hij : i = j
      · subst hij
        apply hi.2
        rw [Directory.inum, Directory.set_self]
        exact hzero
      · rw [Directory.set_name_of_ne hij] at heq
        exact hij (hD i j ((Directory.set_live_of_ne hlive.1.le hij).mp hi) hlive (heq.trans hname.symm))
    · rw [ht] at hdistinct ⊢
      exact Directory.set_lookup_of_ne hD hdistinct hlive.1.le (fun _ => hname) (fun h0 => absurd hzero h0) hne

theorem isDir_oneFile (dp : Ino) : IsDir (oneFile T_DIR 32) 2 dp where
  cons := consistent_oneFile (by decide) (by decide)
  loaded := loaded_oneFile (by decide) (by decide) (by decide) dp
  type := rfl
  size := by
    change (oneFile T_DIR 32).fsize 1 % DIRENT = 0
    rw [fsize_oneFile (by decide)]
    decide
  ref := by
    change (0 : ℤ) < 1
    decide

theorem not_live_oneFile (dp : Ino) (j : ℕ) : ¬ ((oneFile T_DIR 32).dir dp).Live j := by
  rintro ⟨hj, hne⟩
  apply hne
  have hcount : j < (oneFile T_DIR 32).fsize 1 / DIRENT := hj
  have hsize : (oneFile T_DIR 32).fsize 1 = 32 := fsize_oneFile (by decide)
  have hbyte : ∀ k, k < 2 → (((oneFile T_DIR 32).dir dp).entry j).getD k 0 = 0 := by
    intro k hk
    rw [show ((oneFile T_DIR 32).dir dp).entry j = (List.range DIRENT).map fun k =>
      (oneFile T_DIR 32).content 1 (DIRENT * j + k) from if_pos hcount]
    rw [hsize] at hcount
    rw [List.getD_eq_getElem _ _ (by simpa using hk.trans (by decide)), List.getElem_map, List.getElem_range]
    apply content_oneFile (by decide)
    rw [show DIRENT = 16 from rfl] at hcount ⊢
    rw [show BSIZE = 1024 from rfl]
    omega
  rw [Directory.inum, direntInum, hbyte 0 (by decide), hbyte 1 (by decide)]
  rfl

/-- The first name in an empty directory. -/
theorem directory_finite_map_oneFile : ∃ dp : Ino, IsDir (oneFile T_DIR 32) 2 dp ∧
    wp (dirlink dp dot 1) (oneFile T_DIR 32) fun r s' => r = 0 ∧
      ∃ off, (s'.dir dp).lookup dot = some (1, off) := by
  have dp : Ino := ⟨0, by decide⟩
  have hdir := isDir_oneFile dp
  have hD : ((oneFile T_DIR 32).dir dp).Distinct := fun j _ hj => absurd hj (not_live_oneFile dp j)
  refine ⟨dp, hdir, ?_⟩
  obtain ⟨-, -, hlink, -⟩ := directory_finite_map hdir hD (le_refl 1) (by decide) dot
  refine (hlink (Directory.lookup_eq_none.mpr fun j hj => absurd hj (not_live_oneFile dp j))).mono ?_
  rintro r t ⟨-, ⟨-, -, hfull, -⟩ | ⟨rfl, -, hfound, -⟩⟩
  · have hcount : 0 < ((oneFile T_DIR 32).dir dp).count := by
      change 0 < (oneFile T_DIR 32).fsize 1 / DIRENT
      rw [fsize_oneFile (by decide)]
      decide
    exact absurd (hfull 0 hcount) (not_live_oneFile dp 0)
  · exact ⟨rfl, hfound⟩

end OnDisk

end Xv6.Fs
