import Xv6.Grep.Matcher

/-!
# The lines that `grep` prints

`grep` of `user/grep.c`. It reads into a buffer of 1024 bytes, the last of which is for a NUL, prints the
lines in the buffer that match, and moves what is left to the front. However the reads split the input,
it sees the lines one after the other (`grepLoop_eq`) until a line does not fit: then `read` is asked
for 0 bytes, which is what it returns at the end of the input. So a line of 1023 bytes or more, and
everything behind it, is lost (`grep_prints_iff`).
-/

namespace Xv6.Grep

/-- `sizeof(buf)` -/
def BUFSZ : ℕ := 1024

/-- `strchr(p, c)`: what is before the character, and what is behind it. -/
def strchr (c : Char) : List Char → Option (List Char × List Char)
  | [] => none
  | x :: p => if x = c then some ([], p) else (strchr c p).map fun r => (x :: r.1, r.2)

theorem strchr_some {c : Char} {p line rest : List Char} (h : strchr c p = some (line, rest)) :
    p = line ++ c :: rest ∧ c ∉ line := by
  induction p generalizing line with
  | nil => cases h
  | cons x p ih =>
    rw [strchr] at h
    split_ifs at h with hx
    · cases h
      exact ⟨by rw [hx]; rfl, List.not_mem_nil⟩
    · obtain ⟨⟨l, r⟩, hr, heq⟩ := Option.map_eq_some_iff.mp h
      cases heq
      obtain ⟨rfl, hl⟩ := ih hr
      refine ⟨rfl, fun hmem => ?_⟩
      rcases List.mem_cons.mp hmem with hc | hc
      · exact hx hc.symm
      · exact hl hc

theorem strchr_none {c : Char} {p : List Char} : strchr c p = none ↔ c ∉ p := by
  induction p with
  | nil => simp [strchr]
  | cons x p ih =>
    rw [strchr]
    split_ifs with hx
    · simp [hx]
    · rw [Option.map_eq_none_iff, ih, List.mem_cons, not_or, and_iff_right (Ne.symm hx)]

/-- The inner loop of `grep` from `p` on: what is printed, and what is left in the buffer. -/
def scan (re p : List Char) : List Char × List Char :=
  match _h : strchr '\n' p with
  | none => ([], p)
  | some (line, rest) =>
    ((if matchText re line then line ++ ['\n'] else []) ++ (scan re rest).1, (scan re rest).2)
termination_by p.length
decreasing_by all_goals
  rw [(strchr_some _h).1, List.length_append, List.length_cons]
  omega

/-- What `read` returns, if `want` bytes can be had, `request` are asked for and `left` are left: at
least one, if one is asked for and left. -/
def readLength (want request left : ℕ) : ℕ := min (max 1 want) (min request left)

/-- The loop of `grep`, with `m` bytes in the buffer. The reads are split as `want` says. -/
def grepLoop (re : List Char) (want : ℕ → ℕ) (buf input : List Char) : List Char :=
  if _h : readLength (want 0) (BUFSZ - buf.length - 1) input.length = 0 then []
  else
    let n := readLength (want 0) (BUFSZ - buf.length - 1) input.length
    let r := scan re (buf ++ input.take n)
    r.1 ++ grepLoop re (fun i => want (i + 1)) r.2 (input.drop n)
termination_by input.length
decreasing_by
  rw [List.length_drop]
  unfold readLength at _h ⊢
  omega

/-- `grep` -/
def grep (re : List Char) (want : ℕ → ℕ) (input : List Char) : List Char := grepLoop re want [] input

/-! ## Lines -/

/-- The lines of a text that end in a newline. -/
def lines : List Char → List (List Char)
  | [] => []
  | x :: p => if x = '\n' then [] :: lines p else (lines p).modifyHead (x :: ·)

/-- What is to be printed of some lines. -/
def printed (re : List Char) (ls : List (List Char)) : List Char :=
  (ls.filter (matchText re)).flatMap (· ++ ['\n'])

/-- A line fits into the buffer, with its newline and the NUL. -/
def short (line : List Char) : Bool := line.length + 1 < BUFSZ

section Lines

variable {re p q buf input : List Char} {want : ℕ → ℕ} {ls ls' : List (List Char)}

theorem lines_append (h : '\n' ∉ p) (t : List Char) : lines (p ++ t) = (lines t).modifyHead (p ++ ·) := by
  induction p with
  | nil =>
    rw [List.nil_append]
    cases lines t <;> rfl
  | cons x p ih =>
    rw [List.mem_cons, not_or] at h
    rw [List.cons_append, lines, if_neg (Ne.symm h.1), ih h.2]
    cases lines t <;> rfl

theorem lines_of_not_mem (h : '\n' ∉ p) : lines p = [] := by
  have := lines_append h []
  rwa [List.append_nil] at this

theorem lines_cons (h : '\n' ∉ p) (t : List Char) : lines (p ++ '\n' :: t) = p :: lines t := by
  rw [lines_append h, lines, if_pos rfl, List.modifyHead_cons, List.append_nil]

theorem printed_append : printed re (ls ++ ls') = printed re ls ++ printed re ls' := by
  rw [printed, List.filter_append, List.flatMap_append]
  rfl

theorem printed_eq_nil : printed re ls = [] ↔ ∀ l ∈ ls, matchText re l = false := by
  simp [printed, List.flatMap_eq_nil_iff]

/-- The lines in the buffer are printed if they match, and what is left is the beginning of the next. -/
theorem scan_spec (re p : List Char) :
    (scan re p).1 = printed re (lines p) ∧ '\n' ∉ (scan re p).2 ∧ (scan re p).2.length ≤ p.length ∧
      (∀ l ∈ lines p, l.length < p.length) ∧ ∀ t, lines (p ++ t) = lines p ++ lines ((scan re p).2 ++ t) := by
  induction p using scan.induct with
  | case1 p h =>
    have hp := strchr_none.mp h
    have hscan : scan re p = ([], p) := by
      rw [scan]
      split
      · rfl
      · simp_all
    rw [hscan, lines_of_not_mem hp]
    exact ⟨rfl, hp, le_rfl, by simp, fun t => rfl⟩
  | case2 p line rest h ih =>
    obtain ⟨rfl, hline⟩ := strchr_some h
    have hscan : scan re (line ++ '\n' :: rest) =
        ((if matchText re line then line ++ ['\n'] else []) ++ (scan re rest).1, (scan re rest).2) := by
      rw [scan]
      split
      · simp_all
      · simp_all
    obtain ⟨hout, hleft, hlen, hshort, happ⟩ := ih
    rw [hscan, lines_cons hline, List.length_append, List.length_cons]
    refine ⟨?_, hleft, by dsimp only; omega, ?_, fun t => ?_⟩
    · rw [hout]
      simp only [printed, List.filter_cons]
      split_ifs <;> rfl
    · intro l hl
      rcases List.mem_cons.mp hl with rfl | hl
      · omega
      · have := hshort l hl
        omega
    · rw [List.append_assoc, List.cons_append, lines_cons hline, happ t]
      rfl

/-- However the input is split, `grep` prints the matching lines before the first that does not fit. -/
theorem grepLoop_eq (hbuf : '\n' ∉ buf) (hlen : buf.length < BUFSZ) :
    grepLoop re want buf input = printed re ((lines (buf ++ input)).takeWhile short) := by
  induction hn : input.length using Nat.strong_induction_on generalizing want buf input with
  | _ k ih =>
  rw [grepLoop]
  split_ifs with h
  · -- Nothing is left, or the buffer is full of a line without an end.
    rw [lines_append hbuf]
    cases hl : lines input with
    | nil => rfl
    | cons l ls =>
      have hfull : ¬(buf ++ l).length + 1 < BUFSZ := by
        have : input ≠ [] := by
          rintro rfl
          cases hl
        have hpos := List.length_pos_iff.mpr this
        rw [List.length_append]
        unfold readLength at h
        omega
      rw [List.modifyHead_cons, List.takeWhile_cons, if_neg (by simpa [short] using hfull)]
      rfl
  · dsimp only
    generalize hr : readLength (want 0) (BUFSZ - buf.length - 1) input.length = n at h ⊢
    obtain ⟨hout, hleft, hle, hshort, happ⟩ := scan_spec re (buf ++ input.take n)
    have htotal : (buf ++ input.take n).length < BUFSZ := by
      rw [List.length_append, List.length_take]
      unfold readLength at hr
      omega
    have hdrop : (input.drop n).length < k := by
      rw [List.length_drop]
      unfold readLength at hr
      omega
    have hlines : lines (buf ++ input) =
        lines (buf ++ input.take n) ++ lines ((scan re (buf ++ input.take n)).2 ++ input.drop n) := by
      rw [← happ, List.append_assoc, List.take_append_drop]
    -- The lines that were seen in the buffer fit into it.
    have hall : ∀ l ∈ lines (buf ++ input.take n), short l = true := fun l hl => by
      have := hshort l hl
      simp only [short, decide_eq_true_eq]
      omega
    rw [hout, ih _ hdrop hleft (by omega) rfl, hlines, List.takeWhile_append_of_pos hall, printed_append]

end Lines

/-- **What `grep` prints.** However the reads split the input, it prints the lines that match if and only
if none of them is, or comes after, a line that does not fit into the buffer. -/
theorem grep_prints_iff (re : List Char) (want : ℕ → ℕ) (input : List Char) :
    grep re want input = printed re (lines input) ↔
      ∀ l ∈ (lines input).dropWhile short, matchText re l = false := by
  have hsplit : printed re (lines input) =
      grep re want input ++ printed re ((lines input).dropWhile short) := by
    rw [grep, grepLoop_eq List.not_mem_nil (by decide), List.nil_append, ← printed_append,
      List.takeWhile_append_dropWhile]
  rw [hsplit, ← printed_eq_nil]
  exact List.self_eq_append_right

/-- A line of 1023 characters is not printed. -/
theorem grep_loses_line : ¬∀ (re : List Char) (want : ℕ → ℕ) (input : List Char),
    grep re want input = printed re (lines input) := by
  intro h
  have hline : '\n' ∉ List.replicate 1023 'a' :=
    fun hmem => absurd (List.eq_of_mem_replicate hmem) (by decide)
  have hlines : lines (List.replicate 1023 'a' ++ ['\n']) = [List.replicate 1023 'a'] := lines_cons hline []
  have heq := h ['a'] (fun _ => 1) (List.replicate 1023 'a' ++ ['\n'])
  have hshort : short (List.replicate 1023 'a') = false := by
    rw [short, List.length_replicate]
    rfl
  rw [grep, grepLoop_eq List.not_mem_nil (by decide), List.nil_append, hlines, List.takeWhile_cons,
    hshort] at heq
  have hmatch : matchText ['a'] (List.replicate 1023 'a') = true := rfl
  rw [printed_eq_nil.mp heq.symm _ List.mem_cons_self] at hmatch
  cases hmatch

end Xv6.Grep
