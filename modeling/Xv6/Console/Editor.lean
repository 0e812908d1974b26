import Xv6.Console.Driver

/-!
# The console driver is a line editor

The reference keeps a queue of committed characters and the line that is being edited. The driver keeps
both in one ring, the queue between `cons.r` and `cons.w`, the line between `cons.w` and `cons.e`
(`Shows`). The interrupt handler and the readers do to the ring what the reference does to its lists
(`consoleintr_shows`, `readLoop_shows`), so that in every run the reads return the same, with the same
bytes (`console_refines_editor`).
-/

namespace Xv6.Console

open Lib Function

/-! ## The reference -/

/-- The committed characters, the current line, and what was sent to the uart. -/
structure Editor where
  queue : List Byte
  line : List Byte
  uart : List Byte

/-- All characters that are not read yet. -/
def Editor.pending (t : Editor) : List Byte := t.queue ++ t.line

/-- A character is typed. -/
def Editor.type (c : Byte) (t : Editor) : Editor :=
  if c = C 'P' then t
  else if c = C 'U' then
    ⟨t.queue, [], t.uart ++ (List.replicate t.line.length backspace).flatten⟩
  else if c = C 'H' ∨ c = DEL then
    if t.line = [] then t else ⟨t.queue, t.line.dropLast, t.uart ++ backspace⟩
  else if c = 0 ∨ t.pending.length = INPUT_BUF_SIZE then t
  else
    let c := if c = CR then NL else c
    let t : Editor := ⟨t.queue, t.line ++ [c], t.uart ++ [c]⟩
    if c = NL ∨ c = C 'D' ∨ t.pending.length = INPUT_BUF_SIZE then ⟨t.pending, [], t.uart⟩ else t

/-- A read: how many bytes are still wanted, and what was read. -/
structure Wants where
  left : ℕ
  got : List Byte

/-- A reader takes characters from the queue until it has enough or a line ends. Without characters it
waits (`none`), unless it was killed. A `^D` ends the read; if something was read, it stays in the
queue. -/
def readQueue (killed : Bool) : List Byte → Wants → List Byte × Wants × Option ℤ
  | queue, ⟨0, got⟩ => (queue, ⟨0, got⟩, some got.length)
  | [], p => ([], p, if killed then some (-1) else none)
  | c :: queue, ⟨n + 1, got⟩ =>
    if c = C 'D' then (if got = [] then queue else c :: queue, ⟨n + 1, got⟩, some got.length)
    else if c = NL then (queue, ⟨n, got ++ [c]⟩, some (got ++ [c]).length)
    else readQueue killed queue ⟨n, got ++ [c]⟩

section Runs

variable {ι : Type} [DecidableEq ι]

/-- The reference with its readers. -/
structure Reference (ι : Type) where
  editor : Editor
  reads : ι → Option Wants
  log : List (ι × List Byte × ℤ)

/-- No line has been typed. -/
def Reference.init : Reference ι := ⟨⟨[], [], []⟩, fun _ => none, []⟩

/-- The process `i` reads. -/
def Reference.read (R : Reference ι) (i : ι) (killed : Bool) (p : Wants) : Reference ι :=
  match readQueue killed R.editor.queue p with
  | (queue, p, none) =>
    { R with editor := { R.editor with queue := queue }, reads := update R.reads i (some p) }
  | (queue, p, some ret) =>
    ⟨{ R.editor with queue := queue }, update R.reads i none, R.log ++ [(i, p.got, ret)]⟩

/-- A step of the reference. -/
def Reference.step (R : Reference ι) : Event ι → Reference ι
  | .intr c => { R with editor := R.editor.type c }
  | .call i n killed =>
    match R.reads i with
    | none => R.read i killed ⟨n.toInt.toNat, []⟩
    | some _ => R
  | .wake i killed =>
    match R.reads i with
    | none => R
    | some p => R.read i killed p

/-- The reference after the events `as`. -/
def Reference.run (as : List (Event ι)) : Reference ι := as.foldl Reference.step Reference.init

end Runs

/-! ## The ring -/

/-- The ring holds the queue and the line. There is no newline in the line. -/
structure Shows (s : Cons) (t : Editor) : Prop where
  entries : Entries s.buf s.r t.pending
  w : s.w = s.r + BitVec.ofNat 32 t.queue.length
  e : s.e = s.r + BitVec.ofNat 32 t.pending.length
  le : t.pending.length ≤ INPUT_BUF_SIZE
  line : ∀ c ∈ t.line, c ≠ NL
  uart : s.uart = t.uart

section Shows

variable {s : Cons} {t : Editor} {c : Byte} {queue l : List Byte} {uart : List Byte}

theorem dvd_counter : INPUT_BUF_SIZE ∣ 2 ^ 32 := by decide

theorem toNat_sub_counter (a : BitVec 32) {m : ℕ} (hm : m < 2 ^ 32) :
    (a + BitVec.ofNat 32 m - a).toNat = m := by
  rw [BitVec.add_comm, BitVec.add_sub_cancel, BitVec.toNat_ofNat, Nat.mod_eq_of_lt hm]

theorem Shows.pending_lt (h : Shows s t) : t.pending.length < 2 ^ 32 :=
  Nat.lt_of_le_of_lt h.le (by decide)

theorem Shows.queue_le (_h : Shows s t) : t.queue.length ≤ t.pending.length := by
  rw [Editor.pending, List.length_append]
  omega

theorem Shows.toNat_pending (h : Shows s t) : (s.e - s.r).toNat = t.pending.length := by
  rw [h.e, toNat_sub_counter s.r h.pending_lt]

theorem Shows.toNat_queue (h : Shows s t) : (s.w - s.r).toNat = t.queue.length := by
  rw [h.w, toNat_sub_counter s.r (Nat.lt_of_le_of_lt h.queue_le h.pending_lt)]

theorem Shows.e_eq (h : Shows s t) : s.e = s.w + BitVec.ofNat 32 t.line.length := by
  rw [h.e, h.w, Editor.pending, List.length_append, BitVec.ofNat_add, BitVec.add_assoc]

theorem Shows.toNat_line (h : Shows s t) : (s.e - s.w).toNat = t.line.length := by
  have hlt := h.pending_lt
  rw [Editor.pending, List.length_append] at hlt
  rw [h.e_eq, toNat_sub_counter s.w (by omega)]

theorem Shows.e_ne_w (h : Shows s t) : s.e ≠ s.w ↔ t.line ≠ [] := by
  have hlt := h.pending_lt
  rw [Editor.pending, List.length_append] at hlt
  rw [h.e_eq]
  exact not_congr (counter_eq_iff (l := t.line) (by omega))

theorem Shows.r_eq_w (h : Shows s t) : s.r = s.w ↔ t.queue = [] := by
  rw [eq_comm, h.w]
  exact counter_eq_iff (Nat.lt_of_le_of_lt h.queue_le h.pending_lt)

theorem Shows.e_pred (h : Shows s ⟨queue, l ++ [c], uart⟩) :
    s.e - 1 = s.r + BitVec.ofNat 32 (queue ++ l).length := by
  have hlen : (queue ++ (l ++ [c])).length = (queue ++ l).length + 1 := by
    simp only [List.length_append, List.length_singleton]
    omega
  rw [h.e, Editor.pending, hlen, BitVec.ofNat_add, ← BitVec.add_assoc]
  exact BitVec.add_sub_cancel ..

theorem Shows.last (h : Shows s ⟨queue, l ++ [c], uart⟩) :
    s.buf (place INPUT_BUF_SIZE (s.e - 1)) = c := by
  rw [h.e_pred]
  apply Entries.last
  rw [List.append_assoc]
  exact h.entries

theorem Shows.erase (h : Shows s ⟨queue, l ++ [c], uart⟩) :
    Shows s.erase ⟨queue, l, uart ++ backspace⟩ where
  entries := by
    have := h.entries
    rw [Editor.pending, ← List.append_assoc] at this
    exact this.left
  w := h.w
  e := h.e_pred
  le := by
    have := h.le
    simp only [Editor.pending, List.length_append] at this ⊢
    omega
  line c hc := h.line c (List.mem_append_left _ hc)
  uart := congrArg (· ++ backspace) h.uart

theorem killLine_shows (h : Shows s ⟨queue, l, uart⟩) :
    Shows (killLine l.length s) ⟨queue, [], uart ++ (List.replicate l.length backspace).flatten⟩ := by
  induction l using List.reverseRecOn generalizing s uart with
  | nil =>
    rw [List.length_nil, List.replicate_zero, List.flatten_nil, List.append_nil]
    exact h
  | append_singleton l c ih =>
    have hne : s.e ≠ s.w := h.e_ne_w.mpr (by simp)
    have hnl : s.buf (place INPUT_BUF_SIZE (s.e - 1)) ≠ NL := by
      rw [h.last]
      exact h.line c (by simp)
    have hrest := ih h.erase
    rw [List.append_assoc] at hrest
    rw [List.length_append, List.length_singleton, killLine, if_pos ⟨hne, hnl⟩, List.replicate_succ,
      List.flatten_cons]
    exact hrest

theorem pending_snoc (t : Editor) (c : Byte) (uart : List Byte) :
    (⟨t.queue, t.line ++ [c], uart⟩ : Editor).pending = t.pending ++ [c] :=
  (List.append_assoc ..).symm

theorem Shows.entries_store (h : Shows s t) (hlt : t.pending.length < INPUT_BUF_SIZE) (c : Byte) :
    Entries (s.store c).buf s.r (t.pending ++ [c]) := by
  change Entries (update s.buf (place INPUT_BUF_SIZE s.e) c) s.r (t.pending ++ [c])
  rw [h.e]
  exact (h.entries.write dvd_counter hlt c).push (update_self ..)

theorem Shows.e_store (h : Shows s t) (c : Byte) :
    (s.store c).e = s.r + BitVec.ofNat 32 (t.pending ++ [c]).length := by
  rw [List.length_append, BitVec.ofNat_add, ← BitVec.add_assoc, ← h.e]
  rfl

theorem Shows.store (h : Shows s t) (hlt : t.pending.length < INPUT_BUF_SIZE) (hc : c ≠ NL) :
    Shows (s.store c) ⟨t.queue, t.line ++ [c], t.uart ++ [c]⟩ where
  entries := by
    rw [pending_snoc]
    exact h.entries_store hlt c
  w := h.w
  e := by
    rw [pending_snoc]
    exact h.e_store c
  le := by
    rw [pending_snoc, List.length_append]
    exact hlt
  line d hd := by
    obtain hd | hd := List.mem_append.mp hd
    · exact h.line d hd
    · rw [List.mem_singleton.mp hd]
      exact hc
  uart := congrArg (· ++ [c]) h.uart

theorem Shows.commit (h : Shows s t) (hlt : t.pending.length < INPUT_BUF_SIZE) (c : Byte) :
    Shows { s.store c with w := (s.store c).e } ⟨t.pending ++ [c], [], t.uart ++ [c]⟩ where
  entries := by
    rw [Editor.pending, List.append_nil]
    exact h.entries_store hlt c
  w := h.e_store c
  e := by
    rw [Editor.pending, List.append_nil]
    exact h.e_store c
  le := by
    rw [Editor.pending, List.append_nil, List.length_append]
    exact hlt
  line d hd := by cases hd
  uart := congrArg (· ++ [c]) h.uart

theorem Shows.delete (h : Shows s t) :
    Shows (if s.e ≠ s.w then s.erase else s)
      (if t.line = [] then t else ⟨t.queue, t.line.dropLast, t.uart ++ backspace⟩) := by
  by_cases hnil : t.line = []
  · rw [if_neg (fun hne => h.e_ne_w.mp hne hnil), if_pos hnil]
    exact h
  · rw [if_pos (h.e_ne_w.mpr hnil), if_neg hnil]
    have hline : t.line.dropLast ++ [t.line.getLast hnil] = t.line := List.dropLast_append_getLast hnil
    apply Shows.erase (c := t.line.getLast hnil)
    rw [hline]
    exact h

theorem Shows.append (h : Shows s t) (hlt : t.pending.length < INPUT_BUF_SIZE) (c : Byte) :
    Shows
      (if c = NL ∨ c = C 'D' ∨ ((s.store c).e - (s.store c).r).toNat = INPUT_BUF_SIZE then
        { s.store c with w := (s.store c).e }
      else s.store c)
      (if c = NL ∨ c = C 'D' ∨ (t.pending ++ [c]).length = INPUT_BUF_SIZE then
        ⟨t.pending ++ [c], [], t.uart ++ [c]⟩
      else ⟨t.queue, t.line ++ [c], t.uart ++ [c]⟩) := by
  have hlen : (t.pending ++ [c]).length < 2 ^ 32 := by
    rw [List.length_append]
    exact Nat.lt_of_le_of_lt (Nat.succ_le_of_lt hlt) (by decide)
  have hcount : ((s.store c).e - (s.store c).r).toNat = (t.pending ++ [c]).length := by
    rw [h.e_store c]
    exact toNat_sub_counter s.r hlen
  rw [hcount]
  split_ifs with hend
  · exact h.commit hlt c
  · exact h.store hlt fun hc => hend (.inl hc)

theorem consoleintr_shows (h : Shows s t) (c : Byte) : Shows (consoleintr c s) (t.type c) := by
  unfold consoleintr Editor.type
  by_cases hP : c = C 'P'
  · rw [if_pos hP, if_pos hP]
    exact h
  rw [if_neg hP, if_neg hP]
  by_cases hU : c = C 'U'
  · rw [if_pos hU, if_pos hU, h.toNat_line]
    exact killLine_shows h
  rw [if_neg hU, if_neg hU]
  by_cases hH : c = C 'H' ∨ c = DEL
  · rw [if_pos hH, if_pos hH]
    exact h.delete
  rw [if_neg hH, if_neg hH, h.toNat_pending]
  have hle := h.le
  by_cases hc : c ≠ 0 ∧ t.pending.length < INPUT_BUF_SIZE
  · have hkeep : ¬(c = 0 ∨ t.pending.length = INPUT_BUF_SIZE) := not_or.mpr ⟨hc.1, hc.2.ne⟩
    rw [if_pos hc, if_neg hkeep]
    dsimp only
    rw [pending_snoc]
    exact h.append hc.2 _
  · have hdrop : c = 0 ∨ t.pending.length = INPUT_BUF_SIZE := by
      by_contra hnot
      rw [not_or] at hnot
      exact hc ⟨hnot.1, by omega⟩
    rw [if_neg hc, if_pos hdrop]
    exact h

theorem Shows.take (h : Shows s ⟨c :: queue, l, uart⟩) :
    s.buf (place INPUT_BUF_SIZE s.r) = c ∧ Shows { s with r := s.r + 1 } ⟨queue, l, uart⟩ := by
  have hadd : ∀ k, s.r + BitVec.ofNat 32 (k + 1) = s.r + 1 + BitVec.ofNat 32 k := by
    intro k
    rw [Nat.add_comm k 1, BitVec.ofNat_add, BitVec.add_assoc]
    rfl
  obtain ⟨hc, hrest⟩ := Entries.pop (l := queue ++ l) h.entries
  refine ⟨hc, hrest, ?_, ?_, ?_, h.line, h.uart⟩
  · change s.w = _
    rw [h.w]
    exact hadd _
  · change s.e = _
    rw [h.e]
    exact hadd _
  · have := h.le
    simp only [Editor.pending, List.cons_append, List.length_cons] at this ⊢
    omega

end Shows

/-! ## Readers -/

/-- A call of `consoleread` has read `got`, and wants `left` more. -/
structure Reads (p : Read) (q : Wants) : Prop where
  got : p.got = q.got
  left : p.n.toInt.toNat = q.left
  target : p.target = p.n + BitVec.ofNat 32 q.got.length
  lt : p.n.toInt + q.got.length < 2 ^ 31
  got_lt : q.got.length < 2 ^ 31

section Readers

variable {s s' : Cons} {t : Editor} {p p' : Read} {q : Wants} {killed : Bool} {k : ℕ} {r : Option ℤ}

theorem Reads.call (n : BitVec 32) : Reads ⟨n, n, []⟩ ⟨n.toInt.toNat, []⟩ where
  got := rfl
  left := rfl
  target := by simp
  lt := by
    have := BitVec.toInt_lt (x := n)
    simp only [List.length_nil]
    omega
  got_lt := by simp

theorem Reads.ret (h : Reads p q) : (p.target - p.n).toInt = q.got.length := by
  have hlt := h.got_lt
  have hnat : (BitVec.ofNat 32 q.got.length).toNat = q.got.length := by
    rw [BitVec.toNat_ofNat, Nat.mod_eq_of_lt (by omega)]
  rw [h.target, BitVec.add_comm, BitVec.add_sub_cancel, BitVec.toInt_eq_toNat_of_lt (by omega), hnat]

theorem Reads.toNat_n (h : Reads p q) (hpos : 0 < p.n.toInt) : p.n.toNat = q.left := by
  rw [← h.left]
  rw [BitVec.toInt_eq_toNat_cond] at hpos ⊢
  have := p.n.isLt
  split_ifs at hpos ⊢ <;> omega

theorem Reads.lt_target (h : Reads p q) (hpos : 0 < p.n.toInt) :
    p.n.toNat < p.target.toNat ↔ q.got ≠ [] := by
  have hn := h.toNat_n hpos
  have hlt := h.lt
  have hleft := h.left
  rw [h.target, BitVec.toNat_add, BitVec.toNat_ofNat, ← List.length_pos_iff]
  omega

theorem toInt_pred {n : BitVec 32} (hpos : 0 < n.toInt) : (n - 1).toInt = n.toInt - 1 := by
  have hone : (1 : BitVec 32).toNat = 1 := rfl
  have hlt := n.isLt
  rw [BitVec.toInt_eq_toNat_cond] at hpos ⊢
  rw [BitVec.toInt_eq_toNat_cond, BitVec.toNat_sub, hone]
  split_ifs at hpos ⊢ <;> omega

theorem Reads.next (h : Reads p q) (hpos : 0 < p.n.toInt) (c : Byte) :
    Reads ⟨p.target, p.n - 1, p.got ++ [c]⟩ ⟨q.left - 1, q.got ++ [c]⟩ where
  got := congrArg (· ++ [c]) h.got
  left := by
    have := h.left
    change (p.n - 1).toInt.toNat = q.left - 1
    rw [toInt_pred hpos]
    omega
  target := by
    change p.target = p.n - 1 + BitVec.ofNat 32 (q.got ++ [c]).length
    rw [h.target, List.length_append, Nat.add_comm, BitVec.ofNat_add, ← BitVec.add_assoc,
      List.length_singleton]
    exact congrArg (· + _) (BitVec.sub_add_cancel ..).symm
  lt := by
    have := h.lt
    rw [toInt_pred hpos, List.length_append, List.length_singleton]
    push_cast
    omega
  got_lt := by
    have := h.lt
    rw [List.length_append, List.length_singleton]
    omega

/-- A run of a reader: what it does to the queue, and what it returns. -/
structure Agrees (t : Editor) (a : Cons × Read × Option ℤ) (b : List Byte × Wants × Option ℤ) : Prop where
  shows : Shows a.1 { t with queue := b.1 }
  reads : Reads a.2.1 b.2.1
  ret : a.2.2 = b.2.2

theorem Agrees.done (hs : Shows s t) (hp : Reads p q) (hpos : ¬0 < p.n.toInt) :
    Agrees t (s, p, some (p.target - p.n).toInt) (readQueue killed t.queue q) := by
  have hleft : q.left = 0 := by
    rw [← hp.left]
    omega
  have hread : readQueue killed t.queue q = (t.queue, q, some (q.got.length : ℤ)) := by
    obtain ⟨left, got⟩ := q
    obtain rfl : left = 0 := hleft
    unfold readQueue
    rfl
  rw [hread, hp.ret]
  exact ⟨hs, hp, rfl⟩

theorem readLoop_shows (hs : Shows s t) (hp : Reads p q) (hk : 0 < p.n.toInt → k = p.n.toNat) :
    Agrees t (readLoop killed k s p) (readQueue killed t.queue q) := by
  induction k generalizing s t p q with
  | zero =>
    refine .done hs hp fun hpos => ?_
    rw [BitVec.toInt_eq_toNat_cond, ← hk hpos] at hpos
    simp at hpos
  | succ k ih =>
    rw [readLoop]
    by_cases hpos : 0 < p.n.toInt
    swap
    · rw [if_neg hpos]
      exact .done hs hp hpos
    rw [if_pos hpos]
    obtain ⟨left, got⟩ := q
    obtain rfl : left = k + 1 := (hp.toNat_n hpos).symm.trans (hk hpos).symm
    obtain ⟨queue, line, uart⟩ := t
    cases queue with
    | nil =>
      rw [if_pos (hs.r_eq_w.mpr rfl), readQueue]
      · exact ⟨hs, hp, rfl⟩
      · exact fun _ h => by cases h
    | cons c queue =>
      obtain ⟨hc, hrest⟩ := hs.take
      rw [if_neg (fun h => by cases hs.r_eq_w.mp h), readQueue]
      dsimp only
      rw [hc, hp.ret]
      split_ifs with hD htarget hgot hgot' hNL
      · exact absurd hgot ((hp.lt_target hpos).mp htarget)
      · -- The index steps back over `^D`.
        have hback : s.r + 1 - 1 = s.r := BitVec.add_sub_cancel ..
        rw [hback]
        exact ⟨hs, hp, rfl⟩
      · exact ⟨hrest, hp, rfl⟩
      · exact absurd ((hp.lt_target hpos).mpr hgot') htarget
      · have hnext := hp.next hpos c
        exact ⟨hrest, hnext, congrArg some hnext.ret⟩
      · have hnext := hp.next hpos c
        have hloop := ih hrest hnext fun hpos' => (hnext.toNat_n hpos').symm
        exact ⟨hloop.shows, hloop.reads, hloop.ret⟩

end Readers

/-! ## Runs -/

section Runs

variable {ι : Type} {M : Machine ι} {R : Reference ι} {i : ι} {p : Read} {q : Wants}

/-- The machine and the reference are at the same point: the same reads have returned, with the same
bytes, and the same reads wait. -/
structure Rel (M : Machine ι) (R : Reference ι) : Prop where
  shows : Shows M.cons R.editor
  reads : ∀ i, Option.Rel Reads (M.reads i) (R.reads i)
  log : M.log = R.log

theorem Rel.init : Rel (Machine.init : Machine ι) Reference.init where
  shows := ⟨fun k hk => absurd hk (Nat.not_lt_zero k), rfl, rfl, Nat.zero_le _, fun c hc => (by cases hc), rfl⟩
  reads _ := .none
  log := rfl

variable [DecidableEq ι]

theorem Rel.read (h : Rel M R) (killed : Bool) (i : ι) (hp : Reads p q) :
    Rel (M.read i killed p) (R.read i killed q) := by
  have hagrees : Agrees R.editor (consoleread killed M.cons p) (readQueue killed R.editor.queue q) :=
    readLoop_shows h.shows hp fun _ => rfl
  unfold Machine.read Reference.read
  generalize consoleread killed M.cons p = a at hagrees ⊢
  generalize readQueue killed R.editor.queue q = b at hagrees ⊢
  obtain ⟨cons, p', ret⟩ := a
  obtain ⟨queue, q', ret'⟩ := b
  obtain ⟨hshows, hreads, rfl⟩ := hagrees
  have hupdate : ∀ {x : Option Read} {y : Option Wants}, Option.Rel Reads x y →
      ∀ j, Option.Rel Reads (update M.reads i x j) (update R.reads i y j) := by
    intro x y hxy j
    by_cases hj : j = i
    · subst hj
      rw [update_self, update_self]
      exact hxy
    · rw [update_of_ne hj, update_of_ne hj]
      exact h.reads j
  cases ret with
  | none => exact ⟨hshows, hupdate (.some hreads), h.log⟩
  | some ret =>
    refine ⟨hshows, hupdate .none, ?_⟩
    change M.log ++ _ = R.log ++ _
    rw [h.log, hreads.got]

theorem Rel.step (h : Rel M R) (a : Event ι) : Rel (M.step a) (R.step a) := by
  cases a with
  | intr c => exact ⟨consoleintr_shows h.shows c, h.reads, h.log⟩
  | call i n killed =>
    have hi := h.reads i
    unfold Machine.step Reference.step
    dsimp only
    generalize M.reads i = x at hi ⊢
    generalize R.reads i = y at hi ⊢
    cases hi with
    | none => exact h.read killed i (.call n)
    | some _ => exact h
  | wake i killed =>
    have hi := h.reads i
    unfold Machine.step Reference.step
    dsimp only
    generalize M.reads i = x at hi ⊢
    generalize R.reads i = y at hi ⊢
    cases hi with
    | none => exact h
    | some hp => exact h.read killed i hp

theorem Rel.run (h : Rel M R) (as : List (Event ι)) :
    Rel (as.foldl Machine.step M) (as.foldl Reference.step R) := by
  induction as generalizing M R with
  | nil => exact h
  | cons a as ih => exact ih (h.step a)

end Runs

/-- **The console driver is a line editor.** In every run, with any number of readers: the indices are in
order modulo `2 ^ 32`; the reads that have returned, with their bytes and the values returned, are those
of the reference; the same reads wait, with the same bytes; and the same characters were echoed. -/
theorem console_refines_editor {ι : Type} [DecidableEq ι] (as : List (Event ι)) :
    ((Machine.run as).cons.w - (Machine.run as).cons.r).toNat ≤
      ((Machine.run as).cons.e - (Machine.run as).cons.r).toNat ∧
    ((Machine.run as).cons.e - (Machine.run as).cons.r).toNat ≤ INPUT_BUF_SIZE ∧
    (Machine.run as).log = (Reference.run as).log ∧
    (∀ i, ((Machine.run as).reads i).map Read.got = ((Reference.run as).reads i).map Wants.got) ∧
    (Machine.run as).cons.uart = (Reference.run as).editor.uart := by
  have h : Rel (Machine.run as) (Reference.run as) := Rel.init.run as
  refine ⟨?_, ?_, h.log, fun i => ?_, h.shows.uart⟩
  · rw [h.shows.toNat_queue, h.shows.toNat_pending]
    exact h.shows.queue_le
  · rw [h.shows.toNat_pending]
    exact h.shows.le
  · have hi := h.reads i
    generalize (Machine.run as).reads i = x at hi ⊢
    generalize (Reference.run as).reads i = y at hi ⊢
    cases hi with
    | none => rfl
    | some hp => exact congrArg some hp.got

end Xv6.Console
