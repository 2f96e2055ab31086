import Mathlib.Data.List.Basic

/-!
# The pattern matcher of `grep`

`match` looks for a pattern in a line by trying all places and, at a star, all splits.  What a
pattern means is said first, without a search: a pattern is a list of items, each of which
stands for some words, and a line matches if the words of its items stand in it one after
the other.

## Main definitions

* `matchhere`, `matchstar`, `match'` — the functions of `user/grep.c`.
* `Item`, `items` — a pattern, read from left to right.
* `Item.Matches`, `Matches` — the words items stand for.

## Main results

* `matchhere_iff` — the search at one place is sound and complete.
* `match_iff` — so is the search in a line.
-/

namespace Xv6.Grep

def caret : UInt8 := 94 -- '^'
def dollar : UInt8 := 36 -- '$'
def period : UInt8 := 46 -- '.'
def star : UInt8 := 42 -- '*'

/-! ### The code -/

/-- The loop of `matchstar`, where `here` is `matchhere` of the pattern after the star. -/
def starLoop (c : UInt8) (here : List UInt8 → Bool) : List UInt8 → Bool
  | [] => here []
  | t :: text => here (t :: text) || ((t == c || c == period) && starLoop c here text)

/-- `matchhere`.  A string ends where its list does: the pattern `re` is over if it is empty,
and `re[1]` is a star if the second character is. -/
def matchhere : List UInt8 → List UInt8 → Bool
  | [], _ => true
  | [c], text =>
    if c = dollar then text.isEmpty
    else
      match text with
      | [] => false
      | t :: rest => (c == period || c == t) && matchhere [] rest
  | c :: s :: re, text =>
    if s = star then starLoop c (matchhere re) text
    else
      match text with
      | [] => false
      | t :: rest => (c == period || c == t) && matchhere (s :: re) rest

/-- `matchstar`. -/
def matchstar (c : UInt8) (re text : List UInt8) : Bool := starLoop c (matchhere re) text

/-- At a star `matchhere` calls `matchstar`; the definition has the loop in its place, so that
the recursion is on the pattern. -/
theorem matchhere_star (c : UInt8) (re text : List UInt8) :
    matchhere (c :: star :: re) text = matchstar c re text := by
  rw [matchhere.eq_def]
  exact if_pos rfl

/-- The loop of `match`: every place of the text, the end included. -/
def matchLoop (re : List UInt8) : List UInt8 → Bool
  | [] => matchhere re []
  | t :: text => matchhere re (t :: text) || matchLoop re text

/-- `match`. -/
def match' (re text : List UInt8) : Bool :=
  match re with
  | [] => matchLoop [] text
  | c :: re => if c = caret then matchhere re text else matchLoop (c :: re) text

/-! ### What a pattern means -/

/-- The items of a pattern. -/
inductive Item
  | one (c : UInt8) -- a character, or any character
  | many (c : UInt8) -- zero or more of them
  | eol -- the end of the text
  deriving DecidableEq

/-- A pattern, read from left to right: whether a star follows is looked at first, and a
dollar is special only as the last character. -/
def items : List UInt8 → List Item
  | [] => []
  | [c] => if c = dollar then [.eol] else [.one c]
  | c :: s :: re => if s = star then .many c :: items re else .one c :: items (s :: re)

/-- A character of a pattern stands for a character of the text. -/
def Stands (c t : UInt8) : Prop := c = period ∨ t = c

/-- An item matches the word `w` before the rest of the text. -/
def Item.Matches : Item → List UInt8 → List UInt8 → Prop
  | .one c, w, _ => ∃ t, w = [t] ∧ Stands c t
  | .many c, w, _ => ∀ t ∈ w, Stands c t
  | .eol, w, rest => w = [] ∧ rest = []

/-- Items match the word `w` before the rest of the text: their words stand one after the
other. -/
def Matches : List Item → List UInt8 → List UInt8 → Prop
  | [], w, _ => w = []
  | i :: is, w, rest => ∃ u v, w = u ++ v ∧ i.Matches u (v ++ rest) ∧ Matches is v rest

/-! ### The search at one place -/

variable {c t : UInt8} {re text : List UInt8}

theorem stands_iff : (t == c || c == period) = true ↔ Stands c t := by
  rw [Bool.or_eq_true, beq_iff_eq, beq_iff_eq, Stands, or_comm]

/-- Some words at the start of the text match. -/
def MatchesHere (is : List Item) (text : List UInt8) : Prop :=
  ∃ w rest, text = w ++ rest ∧ Matches is w rest

theorem matchesHere_one {is : List Item} :
    MatchesHere (.one c :: is) text ↔
      ∃ t rest, text = t :: rest ∧ Stands c t ∧ MatchesHere is rest := by
  constructor
  · rintro ⟨w, rest, rfl, u, v, rfl, ⟨t, rfl, ht⟩, hv⟩
    exact ⟨t, v ++ rest, rfl, ht, v, rest, rfl, hv⟩
  · rintro ⟨t, -, rfl, ht, v, rest, rfl, hv⟩
    exact ⟨t :: v, rest, rfl, [t], v, rfl, ⟨t, rfl, ht⟩, hv⟩

theorem matchesHere_eol : MatchesHere [.eol] text ↔ text = [] := by
  constructor
  · rintro ⟨w, rest, rfl, u, v, rfl, ⟨rfl, hrest⟩, hv⟩
    rw [show v = [] from hv] at hrest ⊢
    exact hrest
  · rintro rfl
    exact ⟨[], [], rfl, [], [], rfl, ⟨rfl, rfl⟩, rfl⟩

/-- The words of a star are none, or a character and then the words of a star. -/
theorem matchesHere_many {is : List Item} : MatchesHere (.many c :: is) text ↔
    MatchesHere is text ∨
      ∃ t rest, text = t :: rest ∧ Stands c t ∧ MatchesHere (.many c :: is) rest := by
  constructor
  · rintro ⟨w, rest, rfl, u, v, rfl, hu, hv⟩
    -- the first character of the word, if it has one, is the step
    cases u with
    | nil => exact .inl ⟨v, rest, rfl, hv⟩
    | cons t u =>
      refine .inr ⟨t, u ++ v ++ rest, rfl, hu t List.mem_cons_self, u ++ v, rest, rfl, ?_⟩
      exact ⟨u, v, rfl, fun x hx => hu x (List.mem_cons_of_mem t hx), hv⟩
  · rintro (⟨v, rest, rfl, hv⟩ | ⟨t, -, rfl, ht, -, rest, rfl, u, v, rfl, hu, hv⟩)
    · exact ⟨v, rest, rfl, [], v, rfl, nofun, hv⟩
    · refine ⟨t :: (u ++ v), rest, rfl, t :: u, v, rfl, fun x hx => ?_, hv⟩
      obtain rfl | hx := List.mem_cons.mp hx
      · exact ht
      · exact hu x hx

/-- The loop of `matchstar` tries the words of a star from the shortest on. -/
theorem starLoop_iff {here : List UInt8 → Bool} {is : List Item}
    (hhere : ∀ text, here text = true ↔ MatchesHere is text) :
    starLoop c here text = true ↔ MatchesHere (.many c :: is) text := by
  -- on the text: each iteration takes one character for the star
  induction text with
  | nil =>
    rw [starLoop, hhere, matchesHere_many]
    exact ⟨.inl, fun h => h.resolve_right fun ⟨_, _, hnil, _⟩ => nomatch hnil⟩
  | cons t text ih =>
    rw [starLoop, Bool.or_eq_true, Bool.and_eq_true, hhere, stands_iff, ih,
      @matchesHere_many c (t :: text)]
    refine or_congr_right ⟨fun h => ⟨t, text, rfl, h⟩, ?_⟩
    rintro ⟨t', text', heq, h⟩
    obtain ⟨rfl, rfl⟩ := List.cons.inj heq
    exact h

/-- A step over one character of the text, in front of a search for the other items. -/
theorem matchhere_one_iff {is : List Item} {here : List UInt8 → Bool}
    (hhere : ∀ text, here text = true ↔ MatchesHere is text) :
    (match text with
      | [] => false
      | t :: rest => (c == period || c == t) && here rest) = true ↔
      MatchesHere (.one c :: is) text := by
  rw [matchesHere_one]
  cases text with
  | nil => exact ⟨nofun, fun ⟨_, _, hnil, _⟩ => nomatch hnil⟩
  | cons t rest =>
    dsimp only
    rw [Bool.and_eq_true, Bool.or_comm, BEq.comm, stands_iff, hhere]
    constructor
    · exact fun h => ⟨t, rest, rfl, h⟩
    · rintro ⟨t', rest', heq, h⟩
      obtain ⟨rfl, rfl⟩ := List.cons.inj heq
      exact h

/-- **The search at one place is sound and complete.** -/
theorem matchhere_iff (re text : List UInt8) :
    matchhere re text = true ↔ MatchesHere (items re) text := by
  have hnil : ∀ text, matchhere [] text = true ↔ MatchesHere [] text := fun text =>
    ⟨fun _ => ⟨[], text, rfl, rfl⟩, fun _ => by rw [matchhere]⟩
  induction re using items.induct generalizing text with
  | case1 => exact hnil text
  | case2 =>
    -- a dollar at the end
    rw [matchhere.eq_def, items, if_pos rfl, matchesHere_eol, ← List.isEmpty_iff]
    dsimp only
    rw [if_pos rfl]
  | case3 c hc =>
    -- any other last character
    rw [matchhere.eq_def, items, if_neg hc]
    dsimp only
    rw [if_neg hc]
    exact matchhere_one_iff hnil
  | case4 c re ih =>
    rw [matchhere_star, matchstar, items, if_pos rfl]
    exact starLoop_iff ih
  | case5 c s re hs ih =>
    -- a character with no star behind it
    rw [matchhere.eq_def, items, if_neg hs]
    dsimp only
    rw [if_neg hs]
    exact matchhere_one_iff ih

/-! ### The search in a line -/

theorem matchLoop_iff : matchLoop re text = true ↔
    ∃ before w rest, text = before ++ w ++ rest ∧ Matches (items re) w rest := by
  induction text with
  | nil =>
    rw [matchLoop, matchhere_iff]
    constructor
    · rintro ⟨w, rest, hsplit, hw⟩
      exact ⟨[], w, rest, hsplit, hw⟩
    · rintro ⟨before, w, rest, hsplit, hw⟩
      obtain ⟨hleft, rfl⟩ := List.append_eq_nil_iff.mp hsplit.symm
      obtain ⟨-, rfl⟩ := List.append_eq_nil_iff.mp hleft
      exact ⟨[], [], rfl, hw⟩
  | cons t text ih =>
    rw [matchLoop, Bool.or_eq_true, matchhere_iff, ih]
    constructor
    · rintro (⟨w, rest, hsplit, hw⟩ | ⟨before, w, rest, rfl, hw⟩)
      · exact ⟨[], w, rest, hsplit, hw⟩
      · exact ⟨t :: before, w, rest, rfl, hw⟩
    rintro ⟨before, w, rest, hsplit, hw⟩
    -- a match further on is one in the rest of the text
    cases before with
    | nil => exact .inl ⟨w, rest, hsplit, hw⟩
    | cons x before =>
      obtain ⟨-, rfl⟩ := List.cons.inj hsplit
      exact .inr ⟨before, w, rest, rfl, hw⟩

/-- **The matcher of `grep` is sound and complete.**  `match` returns 1 exactly if some part of
the text, at its start if the pattern begins with a caret, is matched by the pattern. -/
theorem match_iff (re text : List UInt8) : match' re text = true ↔
    if re.head? = some caret then ∃ w rest, text = w ++ rest ∧ Matches (items re.tail) w rest
    else ∃ before w rest, text = before ++ w ++ rest ∧ Matches (items re) w rest := by
  unfold match'
  cases re with
  | nil =>
    rw [if_neg nofun]
    exact matchLoop_iff
  | cons c re =>
    by_cases hc : c = caret
    · -- the pattern is tried at the start only
      have heq : (c :: re).head? = some caret := congrArg some hc
      rw [if_pos heq]
      dsimp only
      rw [if_pos hc]
      exact matchhere_iff re text
    · have hne : ¬ (c :: re).head? = some caret := fun h => hc (Option.some.inj h)
      rw [if_neg hne]
      dsimp only
      rw [if_neg hc]
      exact matchLoop_iff

end Xv6.Grep
