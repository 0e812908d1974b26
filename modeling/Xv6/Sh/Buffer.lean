import Xv6.Sh.Grammar

/-!
# The words of a command in the line's buffer

`nulterminate` of `user/sh.c` on the memory in which the line stands. The words of a command are pieces
of the line; `nulterminate` writes a NUL behind each of them, in the order of the tree. It puts the NULs
where the module `Parser` counts them from the end of the line (`nulterminate_eq`), so that the string at
a pointer is the one that the module `Grammar` reads off the line (`cstring_read`).
-/

namespace Xv6.Sh

open Function

/-- `'\0'` -/
def NUL : Char := '\x00'

/-- The memory of the shell, and the addresses that were written to, the last one first. -/
structure Buffer where
  mem : ℕ → Char
  writes : List ℕ

/-- `*p = 0` -/
def Buffer.cut (b : Buffer) (p : ℕ) : Buffer := ⟨update b.mem p NUL, p :: b.writes⟩

/-- The C string at an address. -/
def CString (mem : ℕ → Char) : ℕ → List Char → Prop
  | p, [] => mem p = NUL
  | p, c :: t => mem p = c ∧ c ≠ NUL ∧ CString mem (p + 1) t

/-- The address of a pointer into the line `s`, which starts at `line`. -/
def addr (line : ℕ) (s r : List Char) : ℕ := line + (s.length - r.length)

/-- `nulterminate`, where `pos` gives the addresses of pointers into the line. The loop over the
arguments ends at the null pointer behind them. -/
def Cmd.nulterminate (pos : List Char → ℕ) : Cmd → Buffer → Buffer
  | .exec argv, b => argv.foldl (fun b w => b.cut (pos w.eq)) b
  | .redir cmd file _ _, b => (cmd.nulterminate pos b).cut (pos file.eq)
  | .pipe left right, b | .list left right, b => right.nulterminate pos (left.nulterminate pos b)
  | .back cmd, b => cmd.nulterminate pos b

/-- `parsecmd` with `nulterminate`, for the line `s` at address `line`. -/
def parsecmdIn (line : ℕ) (s : List Char) (b : Buffer) : Except Err (Cmd × Buffer) := do
  let cmd ← parsecmd s
  return (cmd, cmd.nulterminate (addr line s) b)

section Cut

variable {mem : ℕ → Char} {line : ℕ} {s r : List Char} {c : Cmd} {b : Buffer} {pos : List Char → ℕ}

theorem parsecmdIn_ok (line : ℕ) (b : Buffer) (h : parsecmd s = .ok c) :
    parsecmdIn line s b = .ok (c, c.nulterminate (addr line s) b) := by
  rw [parsecmdIn, h]
  rfl

theorem nulterminate_eq (pos : List Char → ℕ) (c : Cmd) (b : Buffer) :
    c.nulterminate pos b = c.words.foldl (fun b w => b.cut (pos w.eq)) b := by
  induction c generalizing b with
  | exec argv => rfl
  | redir cmd file mode fd ih =>
    rw [Cmd.nulterminate, Cmd.words, List.foldl_append, ih]
    rfl
  | pipe left right ihl ihr | list left right ihl ihr =>
    rw [Cmd.nulterminate, Cmd.words, List.foldl_append, ihl, ihr]
  | back cmd ih => exact ih b

theorem writes_cut (ws : List Word) (b : Buffer) :
    (ws.foldl (fun b w => b.cut (pos w.eq)) b).writes = (ws.map fun w => pos w.eq).reverse ++ b.writes := by
  induction ws generalizing b with
  | nil => rfl
  | cons w ws ih =>
    rw [List.foldl_cons, ih, List.map_cons, List.reverse_cons, List.append_assoc]
    rfl

theorem mem_cut (ws : List Word) (b : Buffer) (a : ℕ) :
    (ws.foldl (fun b w => b.cut (pos w.eq)) b).mem a =
      if a ∈ ws.map fun w => pos w.eq then NUL else b.mem a := by
  induction ws generalizing b with
  | nil => rfl
  | cons w ws ih =>
    rw [List.foldl_cons, ih, List.map_cons]
    by_cases hws : a ∈ ws.map fun w => pos w.eq
    · rw [if_pos hws, if_pos (List.mem_cons_of_mem _ hws)]
    · rw [if_neg hws]
      by_cases ha : a = pos w.eq
      · rw [if_pos (by simp [ha]), ha]
        exact update_self ..
      · rw [if_neg (by simp only [List.mem_cons, not_or]; exact ⟨ha, hws⟩)]
        exact update_of_ne ha ..

theorem CString.at (h : CString mem line s) (hr : r <:+ s) : CString mem (addr line s r) r := by
  obtain ⟨t, rfl⟩ := hr
  have hlen : (t ++ r).length - r.length = t.length := by simp
  rw [addr, hlen]
  clear hlen
  induction t generalizing line with
  | nil => exact h
  | cons c t ih =>
    have := ih h.2.2
    rwa [Nat.add_assoc, Nat.add_comm 1] at this

theorem cstring_read (hmem : CString b.mem line s) (hin : ∀ w ∈ c.words, w.In s) (hr : r <:+ s) :
    CString (c.nulterminate (addr line s) b).mem (addr line s r) (cstring (nulterminate c) r) := by
  rw [nulterminate_eq]
  induction r with
  | nil =>
    -- The terminator of the line is a NUL, whether it is written again or not.
    rw [cstring, CString, mem_cut]
    split_ifs with hcut
    · rfl
    · exact hmem.at hr
  | cons ch r ih =>
    have hr' : r <:+ s := (List.suffix_cons ch r).trans hr
    obtain ⟨hch, hne, -⟩ := hmem.at hr
    -- The address is one of those written to if the length is one of the places.
    have hiff : addr line s (ch :: r) ∈ c.words.map (fun w => addr line s w.eq) ↔
        r.length + 1 ∈ nulterminate c := by
      have hlen := hr.length_le
      simp only [nulterminate, List.mem_map, addr, List.length_cons] at hlen ⊢
      refine exists_congr fun w => and_congr_right fun hw => ?_
      have hweq := ((List.suffix_append w.text w.eq).trans (hin w hw).suffix).length_le
      omega
    rw [cstring]
    split_ifs with hnul
    · rw [CString, mem_cut, if_pos (hiff.mpr hnul)]
    · refine ⟨?_, hne, ?_⟩
      · rw [mem_cut, if_neg (fun h => hnul (hiff.mp h))]
        exact hch
      · have hnext : addr line s (ch :: r) + 1 = addr line s r := by
          have hlen := hr.length_le
          simp only [addr, List.length_cons] at hlen ⊢
          omega
        rw [hnext]
        exact ih hr'

end Cut

/-- **`nulterminate` cuts every word exactly.** For every line on which `parsecmd` returns: each word of
the command is a word of the line, the C string at its pointer is its text, and nothing outside the line
and its terminator was written to. -/
theorem nulterminate_cuts_words (mem : ℕ → Char) (line : ℕ) (s : List Char) (c : Cmd) (b : Buffer)
    (hs : CString mem line s) (hparse : parsecmdIn line s ⟨mem, []⟩ = .ok (c, b)) :
    (∀ w ∈ c.words, .word w ∈ tokens s ∧ w.q <:+ s ∧ CString b.mem (addr line s w.q) w.text) ∧
    (∀ p ∈ b.writes, line ≤ p ∧ p ≤ line + s.length) ∧
    ∀ p, p ∉ b.writes → b.mem p = mem p := by
  obtain ⟨c', hc, heq⟩ := bind_eq_ok.mp hparse
  cases heq
  have hmem : ∀ w ∈ c.words, .word w ∈ tokens s := by
    obtain ⟨⟨c', s'⟩, hline, hend⟩ := bind_eq_ok.mp hc
    dsimp only at hend
    split_ifs at hend with hrest
    cases hend
    change parse .line (4 * s.length + 4) s = _ at hline
    obtain ⟨ts, hts, hd⟩ := parse_sound hline
    intro w hw
    rw [hts]
    exact List.mem_append_left _ (hd.mem hw)
  have hin : ∀ w ∈ c.words, w.In s := fun w hw => word_in s (hmem w hw)
  have hwrites : (c.nulterminate (addr line s) ⟨mem, []⟩).writes =
      (c.words.map fun w => addr line s w.eq).reverse := by
    rw [nulterminate_eq, writes_cut, List.append_nil]
  refine ⟨fun w hw => ⟨hmem w hw, (hin w hw).suffix, ?_⟩, fun p hp => ?_, fun p hp => ?_⟩
  · have hread := cstring_read (b := ⟨mem, []⟩) hs hin (hin w hw).suffix
    rwa [cstring_eq hin hw] at hread
  · rw [hwrites, List.mem_reverse] at hp
    obtain ⟨w, hw, rfl⟩ := List.mem_map.mp hp
    unfold addr
    omega
  · rw [hwrites, List.mem_reverse] at hp
    rw [nulterminate_eq, mem_cut, if_neg hp]

/-- The line `a>b<c|d`, in which words and symbols adjoin each other. -/
theorem nulterminate_cuts_words_adjoined : ∃ c b,
    parsecmdIn 100 ['a', '>', 'b', '<', 'c', '|', 'd']
      ⟨fun p => ['a', '>', 'b', '<', 'c', '|', 'd'].getD (p - 100) NUL, []⟩ = .ok (c, b) ∧
    CString b.mem 100 ['a'] ∧ CString b.mem 102 ['b'] ∧ CString b.mem 104 ['c'] ∧ CString b.mem 106 ['d'] := by
  have hs : CString (fun p => ['a', '>', 'b', '<', 'c', '|', 'd'].getD (p - 100) NUL) 100
      ['a', '>', 'b', '<', 'c', '|', 'd'] := by
    simp [CString, NUL]
  have heval : (parsecmd ['a', '>', 'b', '<', 'c', '|', 'd']).toOption =
      some (.pipe (.redir (.redir (.exec [⟨['a'], ['>', 'b', '<', 'c', '|', 'd']⟩])
        ⟨['b'], ['<', 'c', '|', 'd']⟩ (O_WRONLY ||| O_CREATE ||| O_TRUNC) 1)
        ⟨['c'], ['|', 'd']⟩ O_RDONLY 0) (.exec [⟨['d'], []⟩])) := by
    decide +kernel
  cases hparse : parsecmd ['a', '>', 'b', '<', 'c', '|', 'd'] with
  | error e =>
    rw [hparse] at heval
    cases heval
  | ok c =>
    rw [hparse] at heval
    cases heval
    have hin := parsecmdIn_ok 100 ⟨fun p => ['a', '>', 'b', '<', 'c', '|', 'd'].getD (p - 100) NUL, []⟩ hparse
    obtain ⟨hwords, -, -⟩ := nulterminate_cuts_words _ 100 _ _ _ hs hin
    exact ⟨_, _, hin, (hwords ⟨['a'], ['>', 'b', '<', 'c', '|', 'd']⟩ (by decide)).2.2,
      (hwords ⟨['b'], ['<', 'c', '|', 'd']⟩ (by decide)).2.2,
      (hwords ⟨['c'], ['|', 'd']⟩ (by decide)).2.2, (hwords ⟨['d'], []⟩ (by decide)).2.2⟩

end Xv6.Sh
