import Mathlib

/-!
# The matcher of `grep`

`match`, `matchhere` and `matchstar` of `user/grep.c`. A pointer into a string is the rest of the string
from there on, and the terminating NUL is not part of it. A pattern means a language: `parse` reads off
its items and its anchors. `matchhere` looks for a prefix of the text in that language (`matchhere_iff`,
by induction on the pattern), with `matchstar` for the repetitions (`matchstar_iff`, by induction on the
text), and `match` tries every suffix (`search_iff`).
-/

namespace Xv6.Grep

/-- `matchstar(c, re, text)`, where `here` is `matchhere(re, ·)`. -/
def matchstar (c : Char) (here : List Char → Bool) : List Char → Bool
  | [] => here []
  | x :: text => here (x :: text) || ((x = c || c = '.') && matchstar c here text)

/-- `matchhere` -/
def matchhere : List Char → List Char → Bool
  | [], _ => true
  | c :: '*' :: re, text => matchstar c (matchhere re) text
  | ['$'], text => text.isEmpty
  | c :: re, x :: text => (c = '.' || c = x) && matchhere re text
  | _ :: _, [] => false

/-- The loop of `match`. -/
def search (re : List Char) : List Char → Bool
  | [] => matchhere re []
  | x :: text => matchhere re (x :: text) || search re text

/-- `match` -/
def matchText : List Char → List Char → Bool
  | '^' :: re, text => matchhere re text
  | re, text => search re text

/-! ## What a pattern means -/

/-- A character of a pattern, or its repetition. -/
inductive Item
  | one (c : Char)
  | star (c : Char)
  deriving DecidableEq

/-- A pattern: whether it has to match from the start of the text on, what it matches, and whether up to
its end. -/
structure Pattern where
  start : Bool
  items : List Item
  finish : Bool
  deriving DecidableEq

/-- The items of a pattern behind the first `^`, and whether it ends in `$`. -/
def parseItems : List Char → List Item × Bool
  | [] => ([], false)
  | c :: '*' :: re => (.star c :: (parseItems re).1, (parseItems re).2)
  | ['$'] => ([], true)
  | c :: re => (.one c :: (parseItems re).1, (parseItems re).2)

/-- The pattern that an expression stands for. -/
def parse : List Char → Pattern
  | '^' :: re => ⟨true, (parseItems re).1, (parseItems re).2⟩
  | re => ⟨false, (parseItems re).1, (parseItems re).2⟩

/-- The one-letter words that a character of a pattern matches. -/
def letter (c : Char) : Language Char := {w | ∃ x, w = [x] ∧ (c = '.' ∨ c = x)}

/-- The words that an item matches. -/
def Item.lang : Item → Language Char
  | .one c => letter c
  | .star c => KStar.kstar (letter c)

/-- The words that items match one after the other. -/
def lang (items : List Item) : Language Char := (items.map Item.lang).prod

/-- A prefix of the text is in the language, or the whole of it if the pattern ends in `$`. -/
def Here (p : List Item × Bool) (text : List Char) : Prop :=
  ∃ w ∈ lang p.1, w <+: text ∧ (p.2 = true → w = text)

/-- The pattern matches the text: some suffix of it, or the text itself if it starts with `^`. -/
def Pattern.Matches (p : Pattern) (text : List Char) : Prop :=
  ∃ s, s <:+ text ∧ (p.start = true → s = text) ∧ Here (p.items, p.finish) s

section Correct

variable {c x : Char} {re text w : List Char} {items : List Item} {b : Bool}

theorem mem_lang_cons {i : Item} : w ∈ lang (i :: items) ↔ ∃ u ∈ i.lang, ∃ v ∈ lang items, u ++ v = w := by
  rw [lang, List.map_cons, List.prod_cons]
  exact Language.mem_mul

theorem here_nil (b : Bool) (text : List Char) : Here ([], b) text ↔ (b = true → text = []) := by
  constructor
  · rintro ⟨w, hw, -, heq⟩ hb
    rw [← heq hb]
    exact hw
  · intro h
    exact ⟨[], rfl, List.nil_prefix, fun hb => (h hb).symm⟩

theorem here_one : Here (.one c :: items, b) text ↔
    ∃ x t, text = x :: t ∧ (c = '.' ∨ c = x) ∧ Here (items, b) t := by
  constructor
  · rintro ⟨w, hw, hpre, heq⟩
    obtain ⟨u, ⟨x, rfl, hx⟩, v, hv, rfl⟩ := mem_lang_cons.mp hw
    obtain ⟨t, rfl⟩ := hpre
    exact ⟨x, v ++ t, rfl, hx, v, hv, List.prefix_append .., fun hb => by simpa using heq hb⟩
  · rintro ⟨x, t, rfl, hx, v, hv, hpre, heq⟩
    refine ⟨x :: v, mem_lang_cons.mpr ⟨[x], ⟨x, rfl, hx⟩, v, hv, rfl⟩, ?_, fun hb => by rw [heq hb]⟩
    exact List.cons_prefix_cons.mpr ⟨rfl, hpre⟩

theorem here_star (text : List Char) : Here (.star c :: items, b) text ↔ Here (items, b) text ∨
    ∃ x t, text = x :: t ∧ (c = '.' ∨ c = x) ∧ Here (.star c :: items, b) t := by
  have hstar : lang (.star c :: items) = lang items + letter c * lang (.star c :: items) := by
    have h : KStar.kstar (letter c) = 1 + letter c * KStar.kstar (letter c) :=
      (Language.one_add_self_mul_kstar_eq_kstar (letter c)).symm
    calc lang (.star c :: items)
        = KStar.kstar (letter c) * lang items := by rw [lang, List.map_cons, List.prod_cons]; rfl
      _ = (1 + letter c * KStar.kstar (letter c)) * lang items := by rw [← h]
      _ = lang items + letter c * (KStar.kstar (letter c) * lang items) := by
          rw [add_mul, one_mul, mul_assoc]
      _ = lang items + letter c * lang (.star c :: items) := by
          rw [lang, lang, List.map_cons, List.prod_cons]; rfl
  have hone : Here (.one c :: .star c :: items, b) text ↔
      ∃ w ∈ letter c * lang (.star c :: items), w <+: text ∧ (b = true → w = text) := by
    rw [Here, lang, List.map_cons, List.prod_cons]
    rfl
  rw [← here_one, hone]
  conv_lhs => rw [Here, hstar]
  simp only [Here, Language.mem_add, or_and_right, exists_or]

theorem exists_cons_iff {P : Char → Prop} {Q : List Char → Prop} {t : List Char} :
    (∃ y s, x :: t = y :: s ∧ P y ∧ Q s) ↔ P x ∧ Q t := by
  constructor
  · rintro ⟨y, s, heq, h⟩
    cases heq
    exact h
  · intro h
    exact ⟨x, t, rfl, h⟩

theorem matchstar_iff (h : ∀ t, matchhere re t = true ↔ Here (parseItems re) t) (c : Char)
    (text : List Char) :
    matchstar c (matchhere re) text = true ↔ Here (.star c :: (parseItems re).1, (parseItems re).2) text := by
  induction text with
  | nil =>
    rw [matchstar, h, here_star]
    simp
  | cons x t ih =>
    have hx : (x = c || c = '.') = true ↔ c = '.' ∨ c = x := by
      rw [Bool.or_eq_true, decide_eq_true_eq, decide_eq_true_eq, or_comm, eq_comm (a := x)]
    rw [matchstar, Bool.or_eq_true, h, Bool.and_eq_true, ih, hx, here_star (x :: t), exists_cons_iff]

/-- `matchhere` looks for a prefix of the text in the language of the pattern. -/
theorem matchhere_iff (re text : List Char) : matchhere re text = true ↔ Here (parseItems re) text := by
  induction re using parseItems.induct generalizing text with
  | case1 | case3 =>
    rw [matchhere, parseItems, here_nil]
    simp
  | case2 c re ih =>
    rw [matchhere, parseItems]
    exact matchstar_iff ih c text
  | case4 c re hstar hdollar ih =>
    rw [parseItems.eq_4 c re hstar hdollar, here_one]
    cases text with
    | nil =>
      rw [matchhere.eq_5 c re hstar hdollar]
      simp
    | cons x t =>
      have hx : (c = '.' || c = x) = true ↔ c = '.' ∨ c = x := by
        rw [Bool.or_eq_true, decide_eq_true_eq, decide_eq_true_eq]
      rw [matchhere.eq_4 c re x t hstar hdollar, Bool.and_eq_true, ih, hx, exists_cons_iff]

theorem search_iff (re text : List Char) :
    search re text = true ↔ ∃ s, s <:+ text ∧ Here (parseItems re) s := by
  induction text with
  | nil =>
    rw [search, matchhere_iff]
    simp
  | cons x t ih =>
    rw [search, Bool.or_eq_true, matchhere_iff, ih]
    simp only [List.suffix_cons_iff, or_and_right, exists_or, exists_eq_left]

end Correct

/-- **The matcher is correct.** -/
theorem matchText_iff (re text : List Char) : matchText re text = true ↔ (parse re).Matches text := by
  unfold matchText parse Pattern.Matches
  split
  · rw [matchhere_iff]
    constructor
    · intro h
      exact ⟨text, List.suffix_rfl, fun _ => rfl, h⟩
    · rintro ⟨s, -, hs, h⟩
      exact hs rfl ▸ h
  · rw [search_iff]
    simp

end Xv6.Grep
