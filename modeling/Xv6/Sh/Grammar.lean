import Xv6.Sh.Parser

/-!
# The grammar of the shell

The language that the shell understands, as derivations of commands from token sequences, and that
`parsecmd` accepts exactly this language and builds the command of the derivation (`parsecmd_grammar`).
A parser that succeeds has consumed tokens with a derivation (`parse_sound`); before a token that can
follow, it consumes the tokens of any derivation (`parse_complete`); and its bound is not reached when it
is large enough for the tokens that are left (`parse_fuel`).
-/

namespace Xv6.Sh

/-- `redir*`, where `redir := ('<' | '>' | '>>') word`. -/
inductive Redirs : List Tok → List Redir → Prop
  | nil : Redirs [] []
  | input {w : Word} {ts : List Tok} {rs : List Redir} :
      Redirs ts rs → Redirs (.lt :: .word w :: ts) (⟨w, O_RDONLY, 0⟩ :: rs)
  | output {w : Word} {ts : List Tok} {rs : List Redir} :
      Redirs ts rs → Redirs (.gt :: .word w :: ts) (⟨w, O_WRONLY ||| O_CREATE ||| O_TRUNC, 1⟩ :: rs)
  | append {w : Word} {ts : List Tok} {rs : List Redir} :
      Redirs ts rs → Redirs (.append :: .word w :: ts) (⟨w, O_WRONLY ||| O_CREATE, 1⟩ :: rs)

/-- `(word redir*)*` -/
inductive Args : List Tok → List Word → List Redir → Prop
  | nil : Args [] [] []
  | cons {w : Word} {ts us : List Tok} {ws : List Word} {rs rs' : List Redir} :
      Redirs ts rs → Args us ws rs' → Args (.word w :: (ts ++ us)) (w :: ws) (rs ++ rs')

/-- The nonterminals of the grammar. -/
inductive Nonterminal
  | line
  | pipe
  | exec

/-- The derivations of the grammar

    line := pipe '&'* [';' line]
    pipe := exec ['|' pipe]
    exec := '(' line ')' redir* | redir* (word redir*)*

with at most `MAXARGS - 1` words in a command, and the commands that they build. -/
inductive Derives : Nonterminal → List Tok → Cmd → Prop
  | line {ts : List Tok} {c : Cmd} (k : ℕ) : Derives .pipe ts c →
      Derives .line (ts ++ List.replicate k .amp) (Cmd.back^[k] c)
  | list {ts us : List Tok} {c d : Cmd} (k : ℕ) : Derives .pipe ts c → Derives .line us d →
      Derives .line (ts ++ (List.replicate k .amp ++ .semi :: us)) (.list (Cmd.back^[k] c) d)
  | exec {ts : List Tok} {c : Cmd} : Derives .exec ts c → Derives .pipe ts c
  | pipe {ts us : List Tok} {c d : Cmd} : Derives .exec ts c → Derives .pipe us d →
      Derives .pipe (ts ++ .bar :: us) (.pipe c d)
  | block {ts us : List Tok} {c : Cmd} {rs : List Redir} : Derives .line ts c → Redirs us rs →
      Derives .exec (.lpar :: (ts ++ .rpar :: us)) (c.wrap rs)
  | words {ts us : List Tok} {ws : List Word} {rs rs' : List Redir} : Redirs ts rs → Args us ws rs' →
      ws.length ≤ MAXARGS - 1 → Derives .exec (ts ++ us) ((Cmd.exec ws).wrap (rs ++ rs'))

/-! ## Single steps -/

section Basic

variable {ε α β : Type} {x : Except ε α} {f : α → Except ε β} {b : β} {e : ε}

theorem bind_eq_ok : (x >>= f) = .ok b ↔ ∃ a, x = .ok a ∧ f a = .ok b := by
  cases x with
  | error e | ok a => simp [bind, Except.bind]

theorem bind_eq_error : (x >>= f) = .error e ↔ x = .error e ∨ ∃ a, x = .ok a ∧ f a = .error e := by
  cases x with
  | error e | ok a => simp [bind, Except.bind]

end Basic

section Steps

variable {s s' : List Char} {ts rest us : List Tok} {t : Tok} {n k : ℕ} {rs rs' : List Redir}
  {argv ws : List Word} {c cmd : Cmd} {w : Word}

theorem tokens_after (h : tokens s = t :: ts) (toks : List Char) :
    tokens (gettoken (peek s toks).2).2 = ts := by
  rw [← tokens_peek s toks] at h
  exact (gettoken_cons h).2

theorem Tok.char_inj {u : Tok} {ch : Char} (hu : u.char = some ch) (ht : t.char = some ch)
    (hgt : ch ≠ '>') : u = t := by
  rw [← hu] at ht
  cases u <;> cases hu <;> cases t <;>
    first | rfl | exact absurd rfl hgt | exact absurd ht (by decide) | cases ht

theorem starts_one {ch : Char} (hch : t.char = some ch) (hgt : ch ≠ '>') (h : starts [ch] ts = true) :
    ∃ us, ts = t :: us := by
  cases ts with
  | nil => cases h
  | cons u us =>
    have hu : u.char = some ch := by
      unfold starts at h
      cases hu : u.char <;> simp_all
    exact ⟨us, by rw [Tok.char_inj hu hch hgt]⟩

/-- Where `peek` sees the character of a token, the token comes next. -/
theorem peek_one {ch : Char} (hch : t.char = some ch) (hs : [ch].all symbols.contains = true)
    (hgt : ch ≠ '>') (h : (peek s [ch]).1 = true) :
    ∃ us, tokens s = t :: us ∧ (tokens s).length = us.length + 1 := by
  rw [peek_eq hs] at h
  obtain ⟨us, hus⟩ := starts_one hch hgt h
  exact ⟨us, hus, by rw [hus, List.length_cons]⟩

theorem starts_redir (h : starts ['<', '>'] ts = true) :
    ∃ t us, ts = t :: us ∧ (t = .lt ∨ t = .gt ∨ t = .append) := by
  cases ts with
  | nil => cases h
  | cons t us => cases t <;> first | exact absurd h Bool.false_ne_true | exact ⟨_, us, rfl, by simp⟩

theorem Redirs.cons (ht : t = .lt ∨ t = .gt ∨ t = .append) (h : Redirs ts rs) :
    Redirs (t :: .word w :: ts) (redircmd t w :: rs) := by
  obtain rfl | rfl | rfl := ht
  · exact h.input
  · exact h.output
  · exact h.append

/-! ## Redirections -/

theorem parseredirs_stop (h : starts ['<', '>'] (tokens s) = false) :
    parseredirs (n + 1) s = .ok ([], (peek s ['<', '>']).2) := by
  rw [parseredirs, peek_eq (by decide), if_neg (by simp [h])]
  rfl

theorem parseredirs_redir (h : tokens s = t :: .word w :: ts) (ht : t = .lt ∨ t = .gt ∨ t = .append) :
    ∃ s', tokens s' = ts ∧ parseredirs (n + 1) s =
      (parseredirs n s' >>= fun r => .ok (redircmd t w :: r.1, r.2)) := by
  have hstart : (peek s ['<', '>']).1 = true := by
    rw [peek_eq (by decide), h]
    obtain rfl | rfl | rfl := ht <;> rfl
  have h1 := h
  rw [← tokens_peek s ['<', '>']] at h1
  obtain ⟨htok, hrest⟩ := gettoken_cons h1
  obtain ⟨hword, hrest'⟩ := gettoken_cons hrest
  refine ⟨(gettoken (gettoken (peek s ['<', '>']).2).2).2, hrest', ?_⟩
  rw [parseredirs, if_pos hstart]
  generalize gettoken (peek s ['<', '>']).2 = g at htok hword
  obtain ⟨g1, g2⟩ := g
  cases htok
  dsimp only at hword ⊢
  generalize gettoken g2 = g at hword
  obtain ⟨g3, g4⟩ := g
  cases hword
  rfl

theorem parseredirs_missing (h : tokens s = t :: ts) (ht : t = .lt ∨ t = .gt ∨ t = .append)
    (hts : ∀ w us, ts ≠ .word w :: us) :
    parseredirs (n + 1) s = .error (.panic "missing file for redirection") := by
  have hstart : (peek s ['<', '>']).1 = true := by
    rw [peek_eq (by decide), h]
    obtain rfl | rfl | rfl := ht <;> rfl
  have h1 := h
  rw [← tokens_peek s ['<', '>']] at h1
  obtain ⟨htok, hrest⟩ := gettoken_cons h1
  rw [parseredirs, if_pos hstart]
  generalize gettoken (peek s ['<', '>']).2 = g at htok hrest
  obtain ⟨g1, g2⟩ := g
  cases htok
  dsimp only at hrest ⊢
  have := tokens_eq g2
  rw [hrest] at this
  split
  next w r heq =>
    rw [heq] at this
    exact absurd this (hts w _)
  next => rfl

theorem parseredirs_sound (h : parseredirs n s = .ok (rs, s')) :
    ∃ ts, tokens s = ts ++ tokens s' ∧ Redirs ts rs := by
  induction n generalizing s rs with
  | zero => cases h
  | succ n ih =>
    by_cases hstart : starts ['<', '>'] (tokens s) = true
    · obtain ⟨t, us, hs, ht⟩ := starts_redir hstart
      by_cases hword : ∃ w vs, us = .word w :: vs
      · obtain ⟨w, vs, rfl⟩ := hword
        obtain ⟨s1, hs1, heq⟩ := parseredirs_redir (n := n) hs ht
        rw [heq] at h
        obtain ⟨⟨rs1, s2⟩, hrec, hret⟩ := bind_eq_ok.mp h
        cases hret
        obtain ⟨ts, htok, hrs⟩ := ih hrec
        exact ⟨t :: .word w :: ts, by rw [hs, ← hs1, htok]; rfl, hrs.cons ht⟩
      · push Not at hword
        rw [parseredirs_missing hs ht hword] at h
        cases h
    · rw [parseredirs_stop (by simpa using hstart)] at h
      cases h
      exact ⟨[], by rw [tokens_peek]; rfl, .nil⟩

theorem parseredirs_complete (h : Redirs ts rs) (hs : tokens s = ts ++ rest)
    (hrest : starts ['<', '>'] rest = false) (hn : ts.length + 1 ≤ n) :
    ∃ s', parseredirs n s = .ok (rs, s') ∧ tokens s' = rest := by
  obtain ⟨n, rfl⟩ := Nat.exists_eq_add_of_lt (Nat.lt_of_succ_le (le_trans (Nat.le_add_left 1 _) hn))
  rw [Nat.zero_add] at hn ⊢
  have key : ∀ t w us rs, Redirs us rs → (t = .lt ∨ t = .gt ∨ t = .append) →
      (∀ s n, tokens s = us ++ rest → us.length + 1 ≤ n →
        ∃ s', parseredirs n s = .ok (rs, s') ∧ tokens s' = rest) →
      ∀ s n, tokens s = t :: .word w :: us ++ rest → us.length + 1 ≤ n →
        ∃ s', parseredirs (n + 1) s = .ok (redircmd t w :: rs, s') ∧ tokens s' = rest := by
    intro t w us rs _ ht ih s n hs hn
    obtain ⟨s1, hs1, heq⟩ := parseredirs_redir (n := n) hs ht
    obtain ⟨s2, hrec, hs2⟩ := ih s1 n hs1 hn
    exact ⟨s2, by rw [heq, hrec]; rfl, hs2⟩
  induction h generalizing s n with
  | nil =>
    rw [List.nil_append] at hs
    exact ⟨_, parseredirs_stop (by rw [hs]; exact hrest), by rw [tokens_peek, hs]⟩
  | @input w us rs h ih | @output w us rs h ih | @append w us rs h ih =>
    simp only [List.length_cons] at hn
    refine key _ w us rs h (by simp) (fun s m hs hm => ?_) s n hs (by omega)
    obtain ⟨m, rfl⟩ : ∃ k, m = k + 1 := ⟨m - 1, by omega⟩
    exact ih hs m hm

theorem parseredirs_fuel (hn : (tokens s).length + 1 ≤ n) : parseredirs n s ≠ .error .fuel := by
  induction n generalizing s with
  | zero => omega
  | succ n ih =>
    by_cases hstart : starts ['<', '>'] (tokens s) = true
    · obtain ⟨t, us, hs, ht⟩ := starts_redir hstart
      by_cases hword : ∃ w vs, us = .word w :: vs
      · obtain ⟨w, vs, rfl⟩ := hword
        obtain ⟨s1, hs1, heq⟩ := parseredirs_redir (n := n) hs ht
        rw [heq]
        intro herr
        obtain herr | ⟨r, -, hr⟩ := bind_eq_error.mp herr
        · refine ih ?_ herr
          rw [hs, List.length_cons, List.length_cons] at hn
          rw [hs1]
          omega
        · cases hr
      · push Not at hword
        rw [parseredirs_missing hs ht hword]
        simp
    · rw [parseredirs_stop (by simpa using hstart)]
      simp

/-! ## Arguments -/

theorem parseargs_stop (n : ℕ) (argv : List Word) (rs : List Redir)
    (h : tokens s = [] ∨ starts ['|', ')', '&', ';'] (tokens s) = true) :
    ∃ s', tokens s' = tokens s ∧
      parseargs (n + 1) argv rs s = .ok ((Cmd.exec argv).wrap rs, s') := by
  by_cases hstart : starts ['|', ')', '&', ';'] (tokens s) = true
  · refine ⟨(peek s ['|', ')', '&', ';']).2, tokens_peek .., ?_⟩
    rw [parseargs, peek_eq (by decide), if_pos hstart]
    rfl
  · have hnil := h.resolve_right hstart
    have hget := hnil
    rw [← tokens_peek s ['|', ')', '&', ';']] at hget
    have hrest := tokens_eq (peek s ['|', ')', '&', ';']).2
    refine ⟨(gettoken (peek s ['|', ')', '&', ';']).2).2, ?_, ?_⟩
    · rw [hnil]
      have hnone := gettoken_nil hget
      unfold gettoken at hnone ⊢
      split
      · exact tokens_nil
      next c r hs =>
        rw [hs] at hnone
        dsimp only at hnone
        split at hnone
        · cases hnone
        · split_ifs at hnone
    · rw [parseargs, peek_eq (by decide), if_neg hstart]
      have hnone := gettoken_nil hget
      generalize gettoken (peek s ['|', ')', '&', ';']).2 = g at hnone
      obtain ⟨g1, g2⟩ := g
      cases hnone
      rfl

theorem parseargs_word (n : ℕ) (argv : List Word) (rs : List Redir)
    (h : tokens s = .word w :: ts) :
    ∃ s', tokens s' = ts ∧ parseargs (n + 1) argv rs s =
      if argv.length + 1 ≥ MAXARGS then .error (.panic "too many args")
      else parseredirs n s' >>= fun r => parseargs n (argv ++ [w]) (rs ++ r.1) r.2 := by
  have hstart : ¬ starts ['|', ')', '&', ';'] (tokens s) = true := by
    rw [h]
    exact Bool.false_ne_true
  have h1 := h
  rw [← tokens_peek s ['|', ')', '&', ';']] at h1
  obtain ⟨htok, hrest⟩ := gettoken_cons h1
  refine ⟨_, hrest, ?_⟩
  rw [parseargs, peek_eq (by decide), if_neg hstart]
  generalize gettoken (peek s ['|', ')', '&', ';']).2 = g at htok
  obtain ⟨g1, g2⟩ := g
  cases htok
  rfl

theorem parseargs_other (h : tokens s = t :: ts) (ht : ∀ w, t ≠ .word w)
    (hstart : starts ['|', ')', '&', ';'] (tokens s) = false) :
    parseargs (n + 1) argv rs s = .error (.panic "syntax") := by
  have h1 := h
  rw [← tokens_peek s ['|', ')', '&', ';']] at h1
  obtain ⟨htok, -⟩ := gettoken_cons h1
  rw [parseargs, peek_eq (by decide), if_neg (by simp [hstart])]
  generalize gettoken (peek s ['|', ')', '&', ';']).2 = g at htok
  obtain ⟨g1, g2⟩ := g
  cases htok
  cases t with
  | word w => exact absurd rfl (ht w)
  | _ => rfl

theorem args_cases (ts : List Tok) : (ts = [] ∨ starts ['|', ')', '&', ';'] ts = true) ∨
    (∃ w us, ts = .word w :: us) ∨
    ∃ t us, ts = t :: us ∧ (∀ w, t ≠ .word w) ∧ starts ['|', ')', '&', ';'] ts = false := by
  cases ts with
  | nil => exact .inl (.inl rfl)
  | cons t us =>
    cases t with
    | word w => exact .inr (.inl ⟨w, us, rfl⟩)
    | bar | rpar | amp | semi => exact .inl (.inr rfl)
    | lpar | lt | gt | append => exact .inr (.inr ⟨_, us, rfl, by simp, rfl⟩)

theorem parseargs_sound (h : parseargs n argv rs s = .ok (c, s')) (hargv : argv.length < MAXARGS) :
    ∃ ts ws rs', tokens s = ts ++ tokens s' ∧ Args ts ws rs' ∧
      c = (Cmd.exec (argv ++ ws)).wrap (rs ++ rs') ∧ argv.length + ws.length < MAXARGS := by
  induction n generalizing s rs argv with
  | zero => cases h
  | succ n ih =>
    obtain hstop | ⟨w, us, hs⟩ | ⟨t, us, hs, ht, hstart⟩ := args_cases (tokens s)
    · obtain ⟨s1, hs1, heq⟩ := parseargs_stop n argv rs hstop
      rw [heq] at h
      cases h
      exact ⟨[], [], [], by rw [hs1]; rfl, .nil, by simp, hargv⟩
    · obtain ⟨s1, hs1, heq⟩ := parseargs_word n argv rs hs
      rw [heq] at h
      split_ifs at h with hmax
      obtain ⟨⟨rs1, s2⟩, hredirs, hrec⟩ := bind_eq_ok.mp h
      obtain ⟨ts1, htok1, hrs1⟩ := parseredirs_sound hredirs
      obtain ⟨ts2, ws, rs2, htok2, hargs, hc, hlen⟩ := ih hrec (by simpa using hmax)
      refine ⟨.word w :: (ts1 ++ ts2), w :: ws, rs1 ++ rs2, ?_, .cons hrs1 hargs, ?_, ?_⟩
      · rw [hs, ← hs1, htok1, htok2]
        simp
      · rw [hc]
        simp
      · simp only [List.length_append, List.length_cons, List.length_nil] at hlen ⊢
        omega
    · rw [parseargs_other hs ht hstart] at h
      cases h

theorem Args.starts_redir (h : Args ts ws rs) (hrest : starts ['<', '>'] rest = false) :
    starts ['<', '>'] (ts ++ rest) = false := by
  cases h with
  | nil => exact hrest
  | cons => rfl

theorem parseargs_complete (argv : List Word) (rs : List Redir) (h : Args ts ws rs') (hs : tokens s = ts ++ rest)
    (hrest : rest = [] ∨ starts ['|', ')', '&', ';'] rest = true)
    (hlen : argv.length + ws.length < MAXARGS) (hn : ts.length + 1 ≤ n) :
    ∃ s', parseargs n argv rs s = .ok ((Cmd.exec (argv ++ ws)).wrap (rs ++ rs'), s') ∧
      tokens s' = rest := by
  have hredir : starts ['<', '>'] rest = false := by
    obtain rfl | hrest := hrest
    · rfl
    · cases rest with
      | nil => rfl
      | cons t us => cases t <;> first | rfl | cases hrest
  induction h generalizing s n argv rs with
  | nil =>
    obtain ⟨n, rfl⟩ : ∃ k, n = k + 1 := ⟨n - 1, by omega⟩
    rw [List.nil_append] at hs
    obtain ⟨s', hs', heq⟩ := parseargs_stop n argv rs (by rw [hs]; exact hrest)
    exact ⟨s', by rw [heq]; simp, hs'.trans hs⟩
  | @cons w ts us ws rs1 rs2 hrs hargs ih =>
    simp only [List.length_cons, List.length_append] at hn hlen
    obtain ⟨n, rfl⟩ : ∃ k, n = k + 1 := ⟨n - 1, by omega⟩
    obtain ⟨s1, hs1, heq⟩ := parseargs_word n argv rs hs
    obtain ⟨s2, hredirs, hs2⟩ := parseredirs_complete hrs (hs1.trans (List.append_assoc ..)) (hargs.starts_redir hredir)
      (n := n) (by omega)
    obtain ⟨s3, hrec, hs3⟩ := ih (s := s2) (n := n) (argv ++ [w]) (rs ++ rs1) hs2
      (by simp only [List.length_append, List.length_singleton]; omega) (by omega)
    refine ⟨s3, ?_, hs3⟩
    rw [heq, if_neg (by omega), hredirs]
    refine hrec.trans ?_
    simp

theorem parseargs_fuel (hn : (tokens s).length + 1 ≤ n) : parseargs n argv rs s ≠ .error .fuel := by
  induction n generalizing s argv rs with
  | zero => omega
  | succ n ih =>
    obtain hstop | ⟨w, us, hs⟩ | ⟨t, us, hs, ht, hstart⟩ := args_cases (tokens s)
    · obtain ⟨s1, -, heq⟩ := parseargs_stop n argv rs hstop
      rw [heq]
      simp
    · obtain ⟨s1, hs1, heq⟩ := parseargs_word n argv rs hs
      rw [hs, List.length_cons] at hn
      rw [heq]
      split_ifs with hmax
      · simp
      · intro herr
        obtain herr | ⟨⟨rs1, s2⟩, hok, herr⟩ := bind_eq_error.mp herr
        · exact parseredirs_fuel (by rw [hs1]; omega) herr
        · obtain ⟨ts, htok, -⟩ := parseredirs_sound hok
          have hlen := congrArg List.length htok
          rw [hs1, List.length_append] at hlen
          exact ih (by dsimp only; omega) herr
    · rw [parseargs_other hs ht hstart]
      simp

/-! ## Background commands -/

theorem parsebacks_stop (h : starts ['&'] (tokens s) = false) :
    parsebacks (n + 1) cmd s = .ok (cmd, (peek s ['&']).2) := by
  rw [parsebacks, peek_eq (by decide), if_neg (by simp [h])]
  rfl

theorem parsebacks_amp (n : ℕ) (cmd : Cmd) (h : tokens s = .amp :: ts) :
    ∃ s', tokens s' = ts ∧ parsebacks (n + 1) cmd s = parsebacks n (.back cmd) s' := by
  refine ⟨_, tokens_after h ['&'], ?_⟩
  rw [parsebacks, peek_eq (by decide), if_pos (by rw [h]; rfl)]

theorem parsebacks_sound (h : parsebacks n cmd s = .ok (c, s')) :
    ∃ k, tokens s = List.replicate k .amp ++ tokens s' ∧ c = Cmd.back^[k] cmd := by
  induction n generalizing s cmd with
  | zero => cases h
  | succ n ih =>
    by_cases hstart : starts ['&'] (tokens s) = true
    · obtain ⟨us, hs⟩ := starts_one (t := .amp) rfl (by decide) hstart
      obtain ⟨s1, hs1, heq⟩ := parsebacks_amp n cmd hs
      rw [heq] at h
      obtain ⟨k, htok, hc⟩ := ih h
      exact ⟨k + 1, by rw [hs, ← hs1, htok]; rfl, hc⟩
    · rw [parsebacks_stop (by simpa using hstart)] at h
      cases h
      exact ⟨0, by rw [tokens_peek]; rfl, rfl⟩

theorem parsebacks_complete (cmd : Cmd) (hs : tokens s = List.replicate k .amp ++ rest)
    (hrest : starts ['&'] rest = false) (hn : k + 1 ≤ n) :
    ∃ s', parsebacks n cmd s = .ok (Cmd.back^[k] cmd, s') ∧ tokens s' = rest := by
  induction k generalizing s n cmd with
  | zero =>
    obtain ⟨n, rfl⟩ : ∃ k, n = k + 1 := ⟨n - 1, by omega⟩
    rw [List.replicate_zero, List.nil_append] at hs
    exact ⟨_, parsebacks_stop (by rw [hs]; exact hrest), by rw [tokens_peek, hs]⟩
  | succ k ih =>
    obtain ⟨n, rfl⟩ : ∃ k, n = k + 1 := ⟨n - 1, by omega⟩
    obtain ⟨s1, hs1, heq⟩ := parsebacks_amp n cmd hs
    rw [heq]
    exact ih (.back cmd) hs1 (by omega)

theorem parsebacks_fuel (hn : (tokens s).length + 1 ≤ n) : parsebacks n cmd s ≠ .error .fuel := by
  induction n generalizing s cmd with
  | zero => omega
  | succ n ih =>
    by_cases hstart : starts ['&'] (tokens s) = true
    · obtain ⟨us, hs⟩ := starts_one (t := .amp) rfl (by decide) hstart
      obtain ⟨s1, hs1, heq⟩ := parsebacks_amp n cmd hs
      rw [heq]
      refine ih ?_
      rw [hs, List.length_cons] at hn
      rw [hs1]
      omega
    · rw [parsebacks_stop (by simpa using hstart)]
      simp

end Steps

/-! ## Lines, pipes and commands -/

/-- The function for a nonterminal. -/
def parse : Nonterminal → ℕ → Parser Cmd
  | .line => parseline
  | .pipe => parsepipe
  | .exec => parseexec

/-- The symbols that can follow. -/
def Nonterminal.follow : Nonterminal → List Char
  | .line => [')']
  | .pipe => [')', '&', ';']
  | .exec => ['|', ')', '&', ';']

/-- The tokens begin with one that can follow. -/
def Follows (g : Nonterminal) (rest : List Tok) : Prop := rest = [] ∨ starts g.follow rest = true

/-- The bound that is large enough for `N` tokens. -/
def need (g : Nonterminal) (N : ℕ) : ℕ :=
  match g with
  | .line => 4 * N + 4
  | .pipe => 4 * N + 3
  | .exec => 4 * N + 2

section Parse

variable {s s' : List Char} {ts rest : List Tok} {n : ℕ} {c : Cmd} {g : Nonterminal}

theorem starts_of_follows {l : List Char} (h : Follows g rest)
    (htoks : g.follow.all (fun ch => !l.contains ch) = true) : starts l rest = false := by
  obtain rfl | h := h
  · rfl
  · cases rest with
    | nil => rfl
    | cons t us =>
      change t.char.any g.follow.contains = true at h
      change t.char.any l.contains = false
      cases hch : t.char with
      | none => rfl
      | some ch =>
        rw [hch, Option.any_some] at h
        rw [Option.any_some]
        simpa using List.all_eq_true.mp htoks ch (by simpa using h)

theorem Follows.mono {g' : Nonterminal} (h : Follows g rest)
    (hsub : g.follow.all g'.follow.contains = true) : Follows g' rest := by
  refine h.imp id fun h => ?_
  cases rest with
  | nil => cases h
  | cons t us =>
    change t.char.any g.follow.contains = true at h
    change t.char.any g'.follow.contains = true
    cases hch : t.char with
    | none =>
      rw [hch] at h
      cases h
    | some ch =>
      rw [hch, Option.any_some] at h
      exact List.all_eq_true.mp hsub ch (by simpa using h)

theorem parse_sound (h : parse g n s = .ok (c, s')) :
    ∃ ts, tokens s = ts ++ tokens s' ∧ Derives g ts c := by
  induction n using Nat.strong_induction_on generalizing g s c s' with
  | _ n ih =>
    cases g with
    | line =>
      cases n with
      | zero => cases h
      | succ n =>
        change parseline (n + 1) s = _ at h
        rw [parseline] at h
        obtain ⟨⟨c1, s1⟩, h1, h⟩ := bind_eq_ok.mp h
        obtain ⟨⟨c2, s2⟩, h2, h⟩ := bind_eq_ok.mp h
        obtain ⟨ts, hts, hd⟩ := ih n (by omega) (g := .pipe) h1
        obtain ⟨k, hk, rfl⟩ := parsebacks_sound h2
        dsimp only at h
        split_ifs at h with hsemi
        · obtain ⟨us, hus, -⟩ := peek_one (t := .semi) rfl (by decide) (by decide) hsemi
          obtain ⟨⟨d, s3⟩, h3, h⟩ := bind_eq_ok.mp h
          cases h
          obtain ⟨vs, hvs, hd'⟩ := ih n (by omega) (g := .line) h3
          rw [tokens_after hus] at hvs
          exact ⟨_, by rw [hts, hk, hus, hvs]; simp, hd.list k hd'⟩
        · cases h
          exact ⟨_, by rw [hts, hk, tokens_peek]; simp, hd.line k⟩
    | pipe =>
      cases n with
      | zero => cases h
      | succ n =>
        change parsepipe (n + 1) s = _ at h
        rw [parsepipe] at h
        obtain ⟨⟨c1, s1⟩, h1, h⟩ := bind_eq_ok.mp h
        obtain ⟨ts, hts, hd⟩ := ih n (by omega) (g := .exec) h1
        dsimp only at h
        split_ifs at h with hbar
        · obtain ⟨us, hus, -⟩ := peek_one (t := .bar) rfl (by decide) (by decide) hbar
          obtain ⟨⟨d, s3⟩, h3, h⟩ := bind_eq_ok.mp h
          cases h
          obtain ⟨vs, hvs, hd'⟩ := ih n (by omega) (g := .pipe) h3
          rw [tokens_after hus] at hvs
          exact ⟨_, by rw [hts, hus, hvs]; simp, hd.pipe hd'⟩
        · cases h
          exact ⟨ts, by rw [hts, tokens_peek], hd.exec⟩
    | exec =>
      cases n with
      | zero => cases h
      | succ n =>
        change parseexec (n + 1) s = _ at h
        rw [parseexec] at h
        split_ifs at h with hpar
        · obtain ⟨us, hus, -⟩ := peek_one (t := .lpar) rfl (by decide) (by decide) hpar
          rw [← tokens_peek s ['(']] at hus
          cases n with
          | zero => cases h
          | succ n =>
            rw [parseblock] at h
            split_ifs at h
            obtain ⟨⟨c1, s1⟩, h1, h⟩ := bind_eq_ok.mp h
            obtain ⟨ts, hts, hd⟩ := ih n (by omega) (g := .line) h1
            rw [tokens_after hus] at hts
            dsimp only at h
            split_ifs at h with hclose
            rw [Bool.not_eq_true, Bool.not_eq_false'] at hclose
            obtain ⟨vs, hvs, -⟩ := peek_one (t := .rpar) rfl (by decide) (by decide) hclose
            obtain ⟨⟨rs, s2⟩, h2, h⟩ := bind_eq_ok.mp h
            cases h
            obtain ⟨ws, hws, hrs⟩ := parseredirs_sound h2
            rw [tokens_after hvs] at hws
            refine ⟨_, ?_, hd.block hrs⟩
            rw [← tokens_peek s ['('], hus, hts, hvs, hws]
            simp
        · obtain ⟨⟨rs, s1⟩, h1, h⟩ := bind_eq_ok.mp h
          obtain ⟨ts, hts, hrs⟩ := parseredirs_sound h1
          obtain ⟨us, ws, rs', hus, hargs, rfl, hlen⟩ := parseargs_sound h (by decide)
          refine ⟨ts ++ us, ?_, ?_⟩
          · rw [← tokens_peek s ['('], hts, hus]
            simp
          · rw [List.length_nil, Nat.zero_add] at hlen
            exact .words hrs hargs (Nat.le_pred_of_lt hlen)

theorem parse_length (h : parse g n s = .ok (c, s')) : (tokens s').length ≤ (tokens s).length := by
  obtain ⟨ts, hts, -⟩ := parse_sound h
  rw [hts, List.length_append]
  omega

theorem parse_complete (h : Derives g ts c) (hs : tokens s = ts ++ rest) (hrest : Follows g rest)
    (hn : need g ts.length ≤ n) : ∃ s', parse g n s = .ok (c, s') ∧ tokens s' = rest := by
  induction h generalizing s rest n with
  | @line ts c k h ih =>
    simp only [need, List.length_append, List.length_replicate] at hn
    obtain ⟨n, rfl⟩ : ∃ m, n = m + 1 := ⟨n - 1, by omega⟩
    rw [List.append_assoc] at hs
    have hfollow : Follows .pipe (List.replicate k .amp ++ rest) := by
      cases k with
      | zero => exact hrest.mono (by decide)
      | succ k => exact .inr rfl
    obtain ⟨s1, h1, hs1⟩ := ih hs hfollow (n := n) (by simp only [need]; omega)
    obtain ⟨s2, h2, hs2⟩ := parsebacks_complete c hs1
      (starts_of_follows hrest (by decide)) (n := n) (by omega)
    refine ⟨(peek s2 [';']).2, ?_, by rw [tokens_peek, hs2]⟩
    change parseline (n + 1) s = _
    rw [parseline, show parsepipe n s = _ from h1]
    change (parsebacks n c s1 >>= _) = _
    rw [h2]
    change (if (peek s2 [';']).1 = true then _ else _) = _
    rw [peek_eq (by decide), hs2, if_neg (by simp [starts_of_follows hrest (l := [';']) (by decide)])]
    rfl
  | @list ts us c d k h h' ih ih' =>
    simp only [need, List.length_append, List.length_replicate, List.length_cons] at hn
    obtain ⟨n, rfl⟩ : ∃ m, n = m + 1 := ⟨n - 1, by omega⟩
    rw [List.append_assoc, List.append_assoc] at hs
    have hfollow : Follows .pipe (List.replicate k .amp ++ (.semi :: us ++ rest)) := by
      cases k <;> exact .inr rfl
    obtain ⟨s1, h1, hs1⟩ := ih hs hfollow (n := n) (by simp only [need]; omega)
    obtain ⟨s2, h2, hs2⟩ := parsebacks_complete c hs1 rfl (n := n) (by omega)
    obtain ⟨s3, h3, hs3⟩ := ih' (s := (gettoken (peek s2 [';']).2).2) (tokens_after hs2 [';']) hrest
      (n := n) (by simp only [need]; omega)
    refine ⟨s3, ?_, hs3⟩
    change parseline (n + 1) s = _
    rw [parseline, show parsepipe n s = _ from h1]
    change (parsebacks n c s1 >>= _) = _
    rw [h2]
    change (if (peek s2 [';']).1 = true then _ else _) = _
    rw [peek_eq (by decide), hs2, if_pos (show starts _ (_ :: _ ++ _) = true from rfl), show parseline n _ = _ from h3]
    rfl
  | @exec ts c h ih =>
    simp only [need] at hn
    obtain ⟨n, rfl⟩ : ∃ m, n = m + 1 := ⟨n - 1, by omega⟩
    obtain ⟨s1, h1, hs1⟩ := ih hs (hrest.mono (by decide)) (n := n) (by simp only [need]; omega)
    refine ⟨(peek s1 ['|']).2, ?_, by rw [tokens_peek, hs1]⟩
    change parsepipe (n + 1) s = _
    rw [parsepipe, show parseexec n s = _ from h1]
    change (if (peek s1 ['|']).1 = true then _ else _) = _
    rw [peek_eq (by decide), hs1, if_neg (by simp [starts_of_follows hrest (l := ['|']) (by decide)])]
    rfl
  | @pipe ts us c d h h' ih ih' =>
    simp only [need, List.length_append, List.length_cons] at hn
    obtain ⟨n, rfl⟩ : ∃ m, n = m + 1 := ⟨n - 1, by omega⟩
    rw [List.append_assoc] at hs
    obtain ⟨s1, h1, hs1⟩ := ih hs (.inr rfl) (n := n) (by simp only [need]; omega)
    obtain ⟨s2, h2, hs2⟩ := ih' (s := (gettoken (peek s1 ['|']).2).2) (tokens_after hs1 ['|']) hrest
      (n := n) (by simp only [need]; omega)
    refine ⟨s2, ?_, hs2⟩
    change parsepipe (n + 1) s = _
    rw [parsepipe, show parseexec n s = _ from h1]
    change (if (peek s1 ['|']).1 = true then _ else _) = _
    rw [peek_eq (by decide), hs1, if_pos (show starts _ (_ :: _ ++ _) = true from rfl), show parsepipe n _ = _ from h2]
    rfl
  | @block ts us c rs h hrs ih =>
    simp only [need, List.length_append, List.length_cons] at hn
    obtain ⟨n, rfl⟩ : ∃ m, n = m + 2 := ⟨n - 2, by omega⟩
    rw [List.cons_append, List.append_assoc] at hs
    have hs0 := hs
    rw [← tokens_peek s ['(']] at hs0
    obtain ⟨s1, h1, hs1⟩ := ih (s := (gettoken (peek (peek s ['(']).2 ['(']).2).2)
      (tokens_after hs0 ['(']) (.inr rfl) (n := n) (by simp only [need]; omega)
    obtain ⟨s2, h2, hs2⟩ := parseredirs_complete hrs (tokens_after hs1 [')'])
      (starts_of_follows hrest (by decide)) (n := n) (by omega)
    refine ⟨s2, ?_, hs2⟩
    change parseexec (n + 2) s = _
    rw [parseexec, peek_eq (by decide), hs, if_pos (show starts _ (_ :: _) = true from rfl), parseblock,
      peek_eq (by decide), hs0, if_neg (show ¬ (!starts ['('] (.lpar :: _)) = true from Bool.false_ne_true),
      show parseline n _ = _ from h1]
    change (if (!(peek s1 [')']).1) = true then _ else _) = _
    rw [peek_eq (by decide), hs1,
      if_neg (show ¬ (!starts [')'] (.rpar :: us ++ rest)) = true from Bool.false_ne_true), h2]
    rfl
  | @words ts us ws rs rs' hrs hargs hlen =>
    simp only [need, List.length_append] at hn
    obtain ⟨n, rfl⟩ : ∃ m, n = m + 1 := ⟨n - 1, by omega⟩
    rw [List.append_assoc] at hs
    have hpar : starts ['('] (tokens s) = false := by
      rw [hs]
      cases hrs with
      | nil =>
        cases hargs with
        | nil => exact starts_of_follows hrest (by decide)
        | cons => rfl
      | _ => rfl
    have hs0 := hs
    rw [← tokens_peek s ['(']] at hs0
    obtain ⟨s1, h1, hs1⟩ := parseredirs_complete hrs hs0
      (hargs.starts_redir (starts_of_follows hrest (by decide))) (n := n) (by omega)
    obtain ⟨s2, h2, hs2⟩ := parseargs_complete [] rs hargs hs1 hrest
      (by rw [List.length_nil, Nat.zero_add]; exact Nat.lt_of_le_pred (by decide) hlen) (n := n)
      (by omega)
    refine ⟨s2, ?_, hs2⟩
    change parseexec (n + 1) s = _
    rw [parseexec, peek_eq (by decide), if_neg (by simp [hpar]), h1]
    exact h2

theorem parse_fuel (hn : need g (tokens s).length ≤ n) : parse g n s ≠ .error .fuel := by
  induction n using Nat.strong_induction_on generalizing g s with
  | _ n ih =>
    cases g with
    | line =>
      simp only [need] at hn
      obtain ⟨n, rfl⟩ : ∃ m, n = m + 1 := ⟨n - 1, by omega⟩
      intro h
      change parseline (n + 1) s = _ at h
      rw [parseline] at h
      obtain h | ⟨⟨c1, s1⟩, h1, h⟩ := bind_eq_error.mp h
      · exact ih n (by omega) (g := .pipe) (by simp only [need]; omega) h
      have hlen1 := parse_length (g := .pipe) h1
      obtain h | ⟨⟨c2, s2⟩, h2, h⟩ := bind_eq_error.mp h
      · exact parsebacks_fuel (by omega) h
      obtain ⟨k, hk, -⟩ := parsebacks_sound h2
      have hlen2 := congrArg List.length hk
      rw [List.length_append] at hlen2
      dsimp only at h
      split_ifs at h with hsemi
      · obtain ⟨us, hus, hlen⟩ := peek_one (t := .semi) rfl (by decide) (by decide) hsemi
        obtain h | ⟨r, -, h⟩ := bind_eq_error.mp h
        · refine ih n (by omega) (g := .line) ?_ h
          rw [tokens_after hus]
          simp only [need]
          omega
        · cases h
      · cases h
    | pipe =>
      simp only [need] at hn
      obtain ⟨n, rfl⟩ : ∃ m, n = m + 1 := ⟨n - 1, by omega⟩
      intro h
      change parsepipe (n + 1) s = _ at h
      rw [parsepipe] at h
      obtain h | ⟨⟨c1, s1⟩, h1, h⟩ := bind_eq_error.mp h
      · exact ih n (by omega) (g := .exec) (by simp only [need]; omega) h
      have hlen1 := parse_length (g := .exec) h1
      dsimp only at h
      split_ifs at h with hbar
      · obtain ⟨us, hus, hlen⟩ := peek_one (t := .bar) rfl (by decide) (by decide) hbar
        obtain h | ⟨r, -, h⟩ := bind_eq_error.mp h
        · refine ih n (by omega) (g := .pipe) ?_ h
          rw [tokens_after hus]
          simp only [need]
          omega
        · cases h
      · cases h
    | exec =>
      simp only [need] at hn
      obtain ⟨n, rfl⟩ : ∃ m, n = m + 2 := ⟨n - 2, by omega⟩
      intro h
      change parseexec (n + 2) s = _ at h
      rw [parseexec] at h
      split_ifs at h with hpar
      · obtain ⟨us, hus, hlen⟩ := peek_one (t := .lpar) rfl (by decide) (by decide) hpar
        rw [← tokens_peek s ['(']] at hus
        rw [parseblock] at h
        split_ifs at h
        · cases h
        obtain h | ⟨⟨c1, s1⟩, h1, h⟩ := bind_eq_error.mp h
        · refine ih n (by omega) (g := .line) ?_ h
          rw [tokens_after hus]
          simp only [need]
          omega
        have hlen1 := parse_length (g := .line) h1
        rw [tokens_after hus] at hlen1
        dsimp only at h
        split_ifs at h with hclose
        · cases h
        rw [Bool.not_eq_true, Bool.not_eq_false'] at hclose
        obtain ⟨vs, hvs, hlen2⟩ := peek_one (t := .rpar) rfl (by decide) (by decide) hclose
        obtain h | ⟨r, -, h⟩ := bind_eq_error.mp h
        · refine parseredirs_fuel ?_ h
          rw [tokens_after hvs]
          omega
        · cases h
      · obtain h | ⟨⟨rs, s1⟩, h1, h⟩ := bind_eq_error.mp h
        · refine parseredirs_fuel ?_ h
          rw [tokens_peek]
          omega
        · obtain ⟨ts, hts, -⟩ := parseredirs_sound h1
          have hlen := congrArg List.length hts
          rw [tokens_peek, List.length_append] at hlen
          exact parseargs_fuel (by omega) h

end Parse

/-! ## Words -/

section Words

variable {s : List Char} {ts : List Tok} {c : Cmd} {rs : List Redir} {ws : List Word} {w : Word}
  {g : Nonterminal}

theorem Cmd.words_wrap (c : Cmd) (rs : List Redir) :
    (c.wrap rs).words = c.words ++ rs.map Redir.file := by
  induction rs generalizing c with
  | nil => simp [Cmd.wrap]
  | cons r rs ih =>
    have := ih (.redir c r.file r.mode r.fd)
    rw [Cmd.words] at this
    rw [Cmd.wrap, List.foldl_cons]
    rw [Cmd.wrap] at this
    rw [this]
    simp

theorem Cmd.words_backs (c : Cmd) (k : ℕ) : (Cmd.back^[k] c).words = c.words := by
  induction k generalizing c with
  | zero => rfl
  | succ k ih =>
    rw [Function.iterate_succ_apply, ih]
    rfl

theorem Redirs.mem (h : Redirs ts rs) (hw : w ∈ rs.map Redir.file) : .word w ∈ ts := by
  induction h with
  | nil => cases hw
  | input _ ih | output _ ih | append _ ih =>
    obtain rfl | hw := List.mem_cons.mp hw
    · simp
    · simp [ih hw]

theorem Args.mem (h : Args ts ws rs) (hw : w ∈ ws ++ rs.map Redir.file) : .word w ∈ ts := by
  induction h with
  | nil => cases hw
  | cons hrs _ ih =>
    simp only [List.map_append, List.mem_append, List.mem_cons] at hw ih ⊢
    obtain (rfl | hw) | hw | hw := hw
    · exact .inl rfl
    · exact .inr (.inr (ih (.inl hw)))
    · exact .inr (.inl (hrs.mem hw))
    · exact .inr (.inr (ih (.inr hw)))

theorem Derives.mem (h : Derives g ts c) (hw : w ∈ c.words) : .word w ∈ ts := by
  induction h with
  | line k _ ih =>
    rw [Cmd.words_backs] at hw
    exact List.mem_append_left _ (ih hw)
  | list k _ _ ih ih' =>
    rw [Cmd.words, Cmd.words_backs, List.mem_append] at hw
    obtain hw | hw := hw
    · exact List.mem_append_left _ (ih hw)
    · exact List.mem_append_right _ (List.mem_append_right _ (List.mem_cons_of_mem _ (ih' hw)))
  | exec _ ih => exact ih hw
  | pipe _ _ ih ih' =>
    obtain hw | hw := List.mem_append.mp hw
    · exact List.mem_append_left _ (ih hw)
    · exact List.mem_append_right _ (List.mem_cons_of_mem _ (ih' hw))
  | block _ hrs ih =>
    rw [Cmd.words_wrap, List.mem_append] at hw
    refine List.mem_cons_of_mem _ ?_
    obtain hw | hw := hw
    · exact List.mem_append_left _ (ih hw)
    · exact List.mem_append_right _ (List.mem_cons_of_mem _ (hrs.mem hw))
  | words hrs hargs _ =>
    rw [Cmd.words_wrap, Cmd.words, List.map_append, List.mem_append, List.mem_append] at hw
    obtain hw | hw | hw := hw
    · exact List.mem_append_right _ (hargs.mem (List.mem_append_left _ hw))
    · exact List.mem_append_left _ (hrs.mem hw)
    · exact List.mem_append_right _ (hargs.mem (List.mem_append_right _ hw))

/-- A word of a line: a run of characters of words, which ends there. -/
structure Word.In (w : Word) (s : List Char) : Prop where
  suffix : w.q <:+ s
  text : ∀ c ∈ w.text, isWord c = true
  stop : ∀ c r, w.eq = c :: r → isWord c = false

theorem Word.In.trans {r : List Char} (h : w.In r) (hr : r <:+ s) : w.In s :=
  ⟨h.suffix.trans hr, h.text, h.stop⟩

theorem word_in (s : List Char) (hw : .word w ∈ tokens s) : w.In s := by
  induction s using tokens.induct with
  | case1 =>
    rw [tokens_nil] at hw
    cases hw
  | case2 c s hc ih =>
    rw [tokens, if_pos hc] at hw
    exact (ih hw).trans (List.suffix_cons c s)
  | case3 c s hc t ht ih =>
    rw [tokens, if_neg hc, ht] at hw
    obtain rfl | hw := List.mem_cons.mp hw
    · cases symbolTok_char ht
    · exact (ih hw).trans (List.suffix_cons c s)
  | case4 s hhead hc ht ih =>
    rw [tokens, if_neg hc, ht, if_pos rfl, if_pos hhead] at hw
    obtain hw | hw := List.mem_cons.mp hw
    · cases hw
    · exact (ih hw).trans ((List.tail_suffix s).trans (List.suffix_cons _ s))
  | case5 s hhead hc ht ih =>
    rw [tokens, if_neg hc, ht, if_pos rfl, if_neg hhead] at hw
    obtain hw | hw := List.mem_cons.mp hw
    · cases hw
    · exact (ih hw).trans (List.suffix_cons _ s)
  | case6 c s hc ht hgt ih =>
    rw [tokens, if_neg hc, ht, if_neg hgt] at hw
    obtain hw | hw := List.mem_cons.mp hw
    · obtain rfl := Tok.word.inj hw
      refine ⟨?_, fun ch hch => ?_, fun ch r heq => ?_⟩
      · rw [Word.q, List.cons_append, List.takeWhile_append_dropWhile]
      · obtain rfl | hch := List.mem_cons.mp hch
        · exact isWord_of (by simpa using hc) ht hgt
        · exact List.all_eq_true.mp List.all_takeWhile ch hch
      · have := List.head_dropWhile_not (p := isWord) (l := s) (by rw [show s.dropWhile isWord = _ from heq]; simp)
        simpa [show s.dropWhile isWord = ch :: r from heq] using this
    · exact (ih hw).trans ((List.dropWhile_suffix isWord).trans (List.suffix_cons c s))

theorem cstring_eq (h : ∀ w ∈ c.words, w.In s) (hw : w ∈ c.words) :
    cstring (nulterminate c) w.q = w.text := by
  have hin := h w hw
  -- A NUL inside the text would be where another word ends.
  have htext : ∀ t, t ++ w.eq <:+ s → (∀ ch ∈ t, isWord ch = true) →
      cstring (nulterminate c) (t ++ w.eq) = t := by
    intro t hsuffix ht
    induction t with
    | nil =>
      cases heq : w.eq with
      | nil => rfl
      | cons ch r =>
        rw [List.nil_append, cstring, if_pos]
        exact List.mem_map.mpr ⟨w, hw, by rw [heq]; rfl⟩
    | cons ch t ih =>
      rw [List.cons_append, cstring, if_neg, ih ((List.suffix_cons ch _).trans hsuffix)
        fun d hd => ht d (List.mem_cons_of_mem _ hd)]
      intro hmem
      obtain ⟨v, hv, hlen⟩ := List.mem_map.mp hmem
      have hvs : v.eq <:+ s := (List.suffix_append v.text v.eq).trans (h v hv).suffix
      have heq : v.eq = ch :: (t ++ w.eq) := by
        refine List.IsSuffix.eq_of_length (List.suffix_of_suffix_length_le hvs hsuffix ?_) ?_
        · rw [hlen]
          simp
        · rw [hlen]
          simp
      have hstop := (h v hv).stop ch _ heq
      rw [ht ch List.mem_cons_self] at hstop
      cases hstop
  exact htext w.text hin.suffix hin.text

end Words

/-! ## The parser -/

/-- **The parser of the shell accepts exactly its grammar.** `parsecmd` terminates on every line. It
returns a command exactly if the tokens of the line have a derivation of it, and otherwise it panics.
After `nulterminate` the strings of the command are the words of the line. -/
theorem parsecmd_grammar (s : List Char) :
    (∀ c, parsecmd s = .ok c ↔ Derives .line (tokens s) c) ∧
    (∀ e, parsecmd s = .error e → (∃ msg, e = .panic msg) ∨ ∃ r, e = .leftovers r) ∧
    ∀ c, parsecmd s = .ok c → ∀ w ∈ c.words, cstring (nulterminate c) w.q = w.text := by
  have hsound : ∀ c, parsecmd s = .ok c → Derives .line (tokens s) c := by
    intro c h
    rw [parsecmd] at h
    obtain ⟨⟨c', s'⟩, hparse, h⟩ := bind_eq_ok.mp h
    change parse .line (4 * s.length + 4) s = _ at hparse
    dsimp only at h
    split_ifs at h with hend
    cases h
    obtain ⟨ts, hts, hd⟩ := parse_sound hparse
    rw [peek_end.mp (not_not.mp hend), List.append_nil] at hts
    rwa [hts]
  refine ⟨fun c => ⟨hsound c, fun h => ?_⟩, fun e h => ?_, fun c h w hw => ?_⟩
  · have hn : need .line (tokens s).length ≤ 4 * s.length + 4 := by
      have := length_tokens_le s
      simp only [need]
      omega
    obtain ⟨s', hparse, hs'⟩ := parse_complete h (List.append_nil _).symm (.inl rfl) hn
    rw [parsecmd, show parseline _ s = _ from hparse]
    change (if (peek s' []).2 ≠ [] then _ else _) = _
    rw [if_neg (not_not.mpr (peek_end.mpr hs'))]
    rfl
  · rw [parsecmd] at h
    obtain h | ⟨⟨c', s'⟩, -, h⟩ := bind_eq_error.mp h
    · cases e with
      | fuel =>
        change parse .line (4 * s.length + 4) s = _ at h
        refine absurd h (parse_fuel ?_)
        have := length_tokens_le s
        simp only [need]
        omega
      | panic msg => exact .inl ⟨msg, rfl⟩
      | leftovers r => exact .inr ⟨r, rfl⟩
    · dsimp only at h
      split_ifs at h
      · cases h
        exact .inr ⟨_, rfl⟩
      · cases h
  · exact cstring_eq (fun v hv => word_in s ((hsound c h).mem hv)) hw

end Xv6.Sh
