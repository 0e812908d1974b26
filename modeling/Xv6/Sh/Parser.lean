import Xv6.Param

/-!
# The parser of the shell

`parsecmd` of `user/sh.c` and what it calls. A pointer into the line is the rest of the line from there
on, so that `es` is the empty string and `s < es` says that a string is not empty; the terminating NUL
is not part of a string. The recursive functions take a bound on the depth of calls and of loop
iterations, which `parsecmd` chooses so that it is never reached (`parsecmd_grammar` in the module
`Grammar`).
-/

namespace Xv6.Sh

/-! ## Tokens -/

/-- `whitespace` -/
def whitespace : List Char := [' ', '\t', '\r', '\n', '\x0b']

/-- `symbols` -/
def symbols : List Char := ['<', '|', '>', '&', ';', '(', ')']

/-- The characters of words. -/
def isWord (c : Char) : Bool := !whitespace.contains c && !symbols.contains c

/-- A word: the text from `q` to `eq`, and the string at `eq`. -/
structure Word where
  text : List Char
  eq : List Char
  deriving DecidableEq

/-- The pointer to the first character. -/
def Word.q (w : Word) : List Char := w.text ++ w.eq

/-- The tokens that `gettoken` returns, `append` for `'+'` and `word` for `'a'`. -/
inductive Tok
  | bar
  | lpar
  | rpar
  | semi
  | amp
  | lt
  | gt
  | append
  | word (w : Word)
  deriving DecidableEq

/-- Skip whitespace. -/
def skip (s : List Char) : List Char := s.dropWhile whitespace.contains

/-- The word at the beginning of a string. -/
def firstWord (s : List Char) : Word := ⟨s.takeWhile isWord, s.dropWhile isWord⟩

/-- The symbols that are tokens by themselves. -/
def symbolTok : Char → Option Tok
  | '|' => some .bar
  | '(' => some .lpar
  | ')' => some .rpar
  | ';' => some .semi
  | '&' => some .amp
  | '<' => some .lt
  | _ => none

/-- `gettoken`: the token, `none` at the end of the line, and the new `*ps`. -/
def gettoken (s : List Char) : Option Tok × List Char :=
  match skip s with
  | [] => (none, [])
  | c :: s =>
    match symbolTok c with
    | some t => (some t, skip s)
    | none =>
      if c = '>' then
        if s.head? = some '>' then (some .append, skip s.tail) else (some .gt, skip s)
      else (some (.word (firstWord (c :: s))), skip (firstWord (c :: s)).eq)

/-- `peek`: whether the next character is one of `toks`, and the new `*ps`. -/
def peek (s : List Char) (toks : List Char) : Bool × List Char :=
  match skip s with
  | [] => (false, [])
  | c :: s => (toks.contains c, c :: s)

/-! ## Commands -/

/-- `MAXARGS` -/
def MAXARGS : ℕ := 10

/-- `struct cmd` with the structures for its types. -/
inductive Cmd
  | exec (argv : List Word)
  | redir (cmd : Cmd) (file : Word) (mode fd : ℕ)
  | pipe (left right : Cmd)
  | list (left right : Cmd)
  | back (cmd : Cmd)
  deriving DecidableEq

/-- What `parseredirs` wraps around a command. -/
structure Redir where
  file : Word
  mode : ℕ
  fd : ℕ
  deriving DecidableEq

/-- Redirections around a command, the last one outermost. -/
def Cmd.wrap (cmd : Cmd) (rs : List Redir) : Cmd := rs.foldl (fun c r => .redir c r.file r.mode r.fd) cmd

/-- Why there is no command: the bound was too small, `panic(msg)`, or `panic("syntax")` after the rest
of the line has been printed. -/
inductive Err
  | fuel
  | panic (msg : String)
  | leftovers (s : List Char)

/-- A parser: what it returns, with the new `*ps`. -/
abbrev Parser (α : Type) : Type := List Char → Except Err (α × List Char)

/-! ## Parsing -/

/-- The switch of `parseredirs`. -/
def redircmd : Tok → Word → Redir
  | .lt, w => ⟨w, O_RDONLY, 0⟩
  | .gt, w => ⟨w, O_WRONLY ||| O_CREATE ||| O_TRUNC, 1⟩
  | _, w => ⟨w, O_WRONLY ||| O_CREATE, 1⟩

/-- `parseredirs`: the redirections to wrap around the command. -/
def parseredirs : ℕ → Parser (List Redir)
  | 0, _ => .error .fuel
  | n + 1, s =>
    if (peek s ['<', '>']).1 then
      match gettoken (peek s ['<', '>']).2 with
      | (some tok, s) =>
        match gettoken s with
        | (some (.word w), s) => do
          let (rs, s) ← parseredirs n s
          return (redircmd tok w :: rs, s)
        | _ => .error (.panic "missing file for redirection")
      | (none, s) => return ([], s)
    else return ([], (peek s ['<', '>']).2)

/-- The loop of `parseexec`. The `execcmd` at the bottom gets the arguments; redirections are wrapped
around it. -/
def parseargs : ℕ → List Word → List Redir → Parser Cmd
  | 0, _, _, _ => .error .fuel
  | n + 1, argv, rs, s =>
    if (peek s ['|', ')', '&', ';']).1 then
      return ((Cmd.exec argv).wrap rs, (peek s ['|', ')', '&', ';']).2)
    else
      match gettoken (peek s ['|', ')', '&', ';']).2 with
      | (none, s) => return ((Cmd.exec argv).wrap rs, s)
      | (some (.word w), s) =>
        if argv.length + 1 ≥ MAXARGS then .error (.panic "too many args")
        else do
          let (rs', s) ← parseredirs n s
          parseargs n (argv ++ [w]) (rs ++ rs') s
      | (some _, _) => .error (.panic "syntax")

/-- The loop of `parseline`. -/
def parsebacks : ℕ → Cmd → Parser Cmd
  | 0, _, _ => .error .fuel
  | n + 1, cmd, s =>
    if (peek s ['&']).1 then parsebacks n (.back cmd) (gettoken (peek s ['&']).2).2
    else return (cmd, (peek s ['&']).2)

mutual

/-- `parseline` -/
def parseline : ℕ → Parser Cmd
  | 0, _ => .error .fuel
  | n + 1, s => do
    let (cmd, s) ← parsepipe n s
    let (cmd, s) ← parsebacks n cmd s
    if (peek s [';']).1 then
      let (right, s) ← parseline n (gettoken (peek s [';']).2).2
      return (.list cmd right, s)
    else return (cmd, (peek s [';']).2)

/-- `parsepipe` -/
def parsepipe : ℕ → Parser Cmd
  | 0, _ => .error .fuel
  | n + 1, s => do
    let (cmd, s) ← parseexec n s
    if (peek s ['|']).1 then
      let (right, s) ← parsepipe n (gettoken (peek s ['|']).2).2
      return (.pipe cmd right, s)
    else return (cmd, (peek s ['|']).2)

/-- `parseblock` -/
def parseblock : ℕ → Parser Cmd
  | 0, _ => .error .fuel
  | n + 1, s =>
    if !(peek s ['(']).1 then .error (.panic "parseblock")
    else do
      let (cmd, s) ← parseline n (gettoken (peek s ['(']).2).2
      if !(peek s [')']).1 then .error (.panic "syntax - missing )")
      else
        let (rs, s) ← parseredirs n (gettoken (peek s [')']).2).2
        return (cmd.wrap rs, s)

/-- `parseexec` -/
def parseexec : ℕ → Parser Cmd
  | 0, _ => .error .fuel
  | n + 1, s =>
    if (peek s ['(']).1 then parseblock n (peek s ['(']).2
    else do
      let (rs, s) ← parseredirs n (peek s ['(']).2
      parseargs n [] rs s

end

/-- `parsecmd` up to `nulterminate`. -/
def parsecmd (s : List Char) : Except Err Cmd := do
  let (cmd, s) ← parseline (4 * s.length + 4) s
  if (peek s []).2 ≠ [] then .error (.leftovers (peek s []).2)
  else return cmd

/-- The words of a command. -/
def Cmd.words : Cmd → List Word
  | .exec argv => argv
  | .redir cmd file _ _ => cmd.words ++ [file]
  | .pipe left right | .list left right => left.words ++ right.words
  | .back cmd => cmd.words

/-- `nulterminate`: the places in the line where it puts a NUL, counted from the end. -/
def nulterminate (cmd : Cmd) : List ℕ := cmd.words.map fun w => w.eq.length

/-- The string at a pointer when there are NULs at the places `nuls`. -/
def cstring (nuls : List ℕ) : List Char → List Char
  | [] => []
  | c :: s => if s.length + 1 ∈ nuls then [] else c :: cstring nuls s

/-! ## The token sequence of a line -/

theorem length_dropWhile_le (f : Char → Bool) (s : List Char) : (s.dropWhile f).length ≤ s.length :=
  (List.dropWhile_suffix f).length_le

/-- The tokens of a line. Words are the maximal runs of characters that are neither whitespace nor
symbols, and `>>` is one token. -/
def tokens : List Char → List Tok
  | [] => []
  | c :: s =>
    if whitespace.contains c then tokens s
    else
      match symbolTok c with
      | some t => t :: tokens s
      | none =>
        if c = '>' then
          if s.head? = some '>' then .append :: tokens s.tail else .gt :: tokens s
        else .word ⟨c :: s.takeWhile isWord, s.dropWhile isWord⟩ :: tokens (s.dropWhile isWord)
termination_by s => s.length
decreasing_by
  · simp
  · simp
  · simp only [List.length_tail, List.length_cons]
    omega
  · simp
  · exact Nat.lt_succ_of_le (length_dropWhile_le isWord s)

/-- The character that `peek` sees of a token, unless it is a word. -/
def Tok.char : Tok → Option Char
  | .bar => some '|'
  | .lpar => some '('
  | .rpar => some ')'
  | .semi => some ';'
  | .amp => some '&'
  | .lt => some '<'
  | .gt | .append => some '>'
  | .word _ => none

/-- The first token is one of `toks`. -/
def starts (toks : List Char) : List Tok → Bool
  | [] => false
  | t :: _ => t.char.any toks.contains

section Tokens

variable {s r toks : List Char} {c : Char} {t : Tok}

theorem tokens_nil : tokens [] = [] := by rw [tokens]

theorem tokens_skip (s : List Char) : tokens (skip s) = tokens s := by
  induction s with
  | nil => rfl
  | cons c s ih =>
    unfold skip
    by_cases hc : whitespace.contains c = true
    · rw [List.dropWhile_cons_of_pos hc, tokens, if_pos hc]
      exact ih
    · rw [List.dropWhile_cons_of_neg hc]

theorem skip_cases (s : List Char) :
    skip s = [] ∨ ∃ c r, skip s = c :: r ∧ whitespace.contains c = false := by
  cases h : skip s with
  | nil => exact .inl rfl
  | cons c r =>
    refine .inr ⟨c, r, rfl, ?_⟩
    have := List.head_dropWhile_not (p := whitespace.contains) (l := s) (by
      change skip s ≠ []
      simp [h])
    simpa [show List.dropWhile whitespace.contains s = c :: r from h] using this

theorem symbolTok_char (h : symbolTok c = some t) : t.char = some c := by
  unfold symbolTok at h
  split at h <;> cases h <;> rfl

theorem not_symbol (h : symbolTok c = none) (hgt : c ≠ '>') : symbols.contains c = false := by
  rw [Bool.eq_false_iff]
  intro hmem
  simp only [symbols, List.contains_cons, List.contains_nil, Bool.or_false, Bool.or_eq_true,
    beq_iff_eq] at hmem
  obtain rfl | rfl | rfl | rfl | rfl | rfl | rfl := hmem
  all_goals first | exact hgt rfl | exact absurd h (by decide)

theorem isWord_of (hws : whitespace.contains c = false) (h : symbolTok c = none) (hgt : c ≠ '>') :
    isWord c = true := by
  rw [isWord, hws, not_symbol h hgt]
  rfl

theorem firstWord_cons (h : isWord c = true) :
    firstWord (c :: s) = ⟨c :: s.takeWhile isWord, s.dropWhile isWord⟩ := by
  rw [firstWord, List.takeWhile_cons_of_pos h, List.dropWhile_cons_of_pos h]

theorem tokens_eq (s : List Char) : tokens s =
    match gettoken s with
    | (none, _) => []
    | (some t, r) => t :: tokens r := by
  rw [← tokens_skip]
  unfold gettoken
  obtain hs | ⟨c, r, hs, hc⟩ := skip_cases s
  · rw [hs, tokens_nil]
  · rw [hs, tokens, hc, if_neg (by decide)]
    dsimp only
    cases hsym : symbolTok c with
    | some t => simp only [tokens_skip]
    | none =>
      dsimp only
      split_ifs with hgt hhead
      · simp only [tokens_skip]
      · simp only [tokens_skip]
      · simp only [tokens_skip, firstWord_cons (isWord_of hc hsym hgt)]

theorem gettoken_nil (h : tokens s = []) : (gettoken s).1 = none := by
  have := tokens_eq s
  rw [h] at this
  split at this
  next heq => rw [heq]
  next => cases this

theorem gettoken_cons {ts : List Tok} (h : tokens s = t :: ts) :
    (gettoken s).1 = some t ∧ tokens (gettoken s).2 = ts := by
  have := tokens_eq s
  rw [h] at this
  split at this
  next => cases this
  next heq =>
    obtain ⟨rfl, rfl⟩ := List.cons.inj this
    rw [heq]
    exact ⟨rfl, rfl⟩

theorem tokens_peek (s toks : List Char) : tokens (peek s toks).2 = tokens s := by
  rw [← tokens_skip s]
  unfold peek
  split
  next h => rw [h]
  next h => rw [h]

theorem peek_eq (h : toks.all symbols.contains = true) : (peek s toks).1 = starts toks (tokens s) := by
  rw [← tokens_skip]
  unfold peek
  obtain hs | ⟨c, r, hs, hc⟩ := skip_cases s
  · rw [hs, tokens_nil]
    rfl
  · rw [hs, tokens, hc, if_neg (by decide)]
    dsimp only
    cases hsym : symbolTok c with
    | some t => simp [starts, symbolTok_char hsym]
    | none =>
      dsimp only
      split_ifs with hgt hhead
      · simp [starts, Tok.char, hgt]
      · simp [starts, Tok.char, hgt]
      · have hnot := not_symbol hsym hgt
        have : toks.contains c = false := by
          rw [Bool.eq_false_iff]
          intro hmem
          rw [List.all_eq_true.mp h c (by simpa using hmem)] at hnot
          cases hnot
        simp only [this, starts, Tok.char, Option.any_none]

theorem peek_end : (peek s []).2 = [] ↔ tokens s = [] := by
  constructor
  · intro h
    rw [← tokens_peek s [], h, tokens_nil]
  · intro h
    have := gettoken_nil h
    unfold gettoken at this
    unfold peek
    split at this
    next => rfl
    next c r hs =>
      split at this
      · cases this
      · split_ifs at this

theorem length_tokens_le (s : List Char) : (tokens s).length ≤ s.length := by
  induction s using tokens.induct with
  | case1 => simp [tokens_nil]
  | case2 c s hc ih =>
    rw [tokens, if_pos hc]
    exact ih.trans (Nat.le_succ _)
  | case3 c s hc t ht ih =>
    rw [tokens, if_neg hc, ht]
    exact Nat.succ_le_succ ih
  | case4 s hhead hc ht ih =>
    rw [tokens, if_neg hc, ht, if_pos rfl, if_pos hhead]
    have := List.length_tail (l := s)
    simp only [List.length_cons]
    omega
  | case5 s hhead hc ht ih =>
    rw [tokens, if_neg hc, ht, if_pos rfl, if_neg hhead]
    exact Nat.succ_le_succ ih
  | case6 c s hc ht hgt ih =>
    rw [tokens, if_neg hc, ht, if_neg hgt]
    exact Nat.succ_le_succ (ih.trans (length_dropWhile_le isWord s))

end Tokens

end Xv6.Sh
