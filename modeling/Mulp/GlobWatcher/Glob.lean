import Mathlib.Data.List.Infix
import Mathlib.Data.List.TakeDrop

/-! Matching a glob without braces (`glob-watcher/glob.mbt`), and the relation that it computes.

The loops over indices are told by what is left of the pattern and of the path. -/
namespace Mulp.GlobWatch

/-! ## The code -/

/-- The loop of `match_char_class`, and what is left of the pattern after the `]`. -/
def classLoop (ch : Char) (found : Bool) : List Char → Bool × List Char
  | [] => (found, [])
  | ']' :: rest => (found, rest)
  | c :: '-' :: last :: more =>
      if last ≠ ']' then classLoop ch (found || (c ≤ ch && ch ≤ last)) more
      else classLoop ch (found || ch = c) ('-' :: last :: more)
  | c :: rest => classLoop ch (found || ch = c) rest

/-- `match_char_class`, where there is a character of the path to match. -/
def matchCharClass (ch : Char) (pat : List Char) : Bool × List Char :=
  match pat with
  | '^' :: rest =>
      let (found, next) := classLoop ch false rest
      (!found, next)
  | _ => classLoop ch false pat

/-- The places that a `*` tries, one after the other. -/
def starPlaces : List Char → List (List Char)
  | [] => [[]]
  | c :: rest => if c = '/' then [c :: rest] else (c :: rest) :: starPlaces rest

/-- The places after a slash, that a `**` tries. -/
def slashPlaces : List Char → List (List Char)
  | [] => []
  | c :: rest => if c = '/' then rest :: slashPlaces rest else slashPlaces rest

/-- The pattern after a `**`. -/
def afterStars : List Char → List Char
  | '/' :: rest => rest
  | rest => rest

theorem length_classLoop (ch : Char) (found : Bool) (pat : List Char) :
    (classLoop ch found pat).2.length ≤ pat.length := by
  fun_induction classLoop ch found pat <;> grind

theorem length_matchCharClass (ch : Char) (pat : List Char) :
    (matchCharClass ch pat).2.length ≤ pat.length := by
  unfold matchCharClass
  split
  · have h := length_classLoop ch false ‹_›
    simp only [List.length_cons]
    omega
  · exact length_classLoop ch false pat

theorem length_afterStars (pat : List Char) : (afterStars pat).length ≤ pat.length := by
  unfold afterStars
  split <;> simp

def globGo : List Char → List Char → Bool
  | [], pth => pth.isEmpty
  | '*' :: '*' :: rest, pth =>
      globGo (afterStars rest) pth || (slashPlaces pth).any (globGo (afterStars rest)) ||
        globGo (afterStars rest) []
  | '*' :: rest, pth => (starPlaces pth).any (globGo rest)
  | '?' :: rest, pth =>
      match pth with
      | c :: more => if c ≠ '/' then globGo rest more else false
      | [] => false
  | '[' :: rest, pth =>
      match pth with
      | c :: more =>
          if (matchCharClass c rest).1 then globGo (matchCharClass c rest).2 more else false
      | [] => false
  | p :: rest, pth =>
      match pth with
      | c :: more => if p = c then globGo rest more else false
      | [] => false
termination_by pat => pat.length
decreasing_by
  all_goals simp only [List.length_cons]
  all_goals first
    | omega
    | (have h := length_afterStars rest; omega)
    | (have h := length_matchCharClass c rest; omega)

/-! ## The relation -/

inductive Token where
  | stars
  | star
  | question
  | charClass (negate : Bool) (ranges : List (Char × Char))
  | literal (c : Char)
  deriving DecidableEq

/-- The ranges of a class, a character being one of its own, and the pattern after it. -/
def readRanges : List Char → List (Char × Char) × List Char
  | [] => ([], [])
  | ']' :: rest => ([], rest)
  | c :: '-' :: last :: more =>
      if last ≠ ']' then ((c, last) :: (readRanges more).1, (readRanges more).2)
      else ((c, c) :: (readRanges ('-' :: last :: more)).1, (readRanges ('-' :: last :: more)).2)
  | c :: rest => ((c, c) :: (readRanges rest).1, (readRanges rest).2)

def readClass : List Char → Token × List Char
  | '^' :: rest => (.charClass true (readRanges rest).1, (readRanges rest).2)
  | pat => (.charClass false (readRanges pat).1, (readRanges pat).2)

/-- The character is in one of the ranges. -/
def inRanges (ch : Char) (ranges : List (Char × Char)) : Bool :=
  ranges.any fun range => range.1 ≤ ch && ch ≤ range.2

theorem inRanges_self (ch c : Char) (ranges : List (Char × Char)) :
    inRanges ch ((c, c) :: ranges) = (decide (ch = c) || inRanges ch ranges) := by
  have hsame : (decide (c ≤ ch) && decide (ch ≤ c)) = decide (ch = c) := by
    rw [Bool.eq_iff_iff, Bool.and_eq_true, decide_eq_true_eq, decide_eq_true_eq, decide_eq_true_eq]
    constructor
    · rintro ⟨hle, hge⟩
      exact Char.le_antisymm hge hle
    · rintro rfl
      exact ⟨Char.le_refl ch, Char.le_refl ch⟩
  rw [inRanges, List.any_cons, hsame]
  rfl

/-- The loop reads the ranges, and looks for the character in them. -/
theorem classLoop_eq (ch : Char) (found : Bool) (pat : List Char) :
    classLoop ch found pat = (found || inRanges ch (readRanges pat).1, (readRanges pat).2) := by
  fun_induction classLoop ch found pat with
  | case1 found => simp [readRanges, inRanges]
  | case2 found rest => simp [readRanges, inRanges]
  | case3 found c last more hc hlast ih =>
      rw [ih, readRanges, if_pos hlast]
      · simp [inRanges, Bool.or_assoc]
      · exact hc
  | case4 found c last more hc hlast ih =>
      rw [ih, readRanges, if_neg hlast]
      · rw [inRanges_self, Bool.or_assoc]
      · exact hc
  | case5 found c rest hc hrange ih =>
      rw [ih, readRanges]
      · rw [inRanges_self, Bool.or_assoc]
      · exact hc
      · exact hrange

theorem matchCharClass_eq (ch : Char) (pat : List Char) :
    ∃ negate ranges, readClass pat = (.charClass negate ranges, (matchCharClass ch pat).2) ∧
      (matchCharClass ch pat).1 = (negate != inRanges ch ranges) := by
  unfold matchCharClass readClass
  split
  · exact ⟨true, _, by rw [classLoop_eq], by simp [classLoop_eq]⟩
  · exact ⟨false, _, by rw [classLoop_eq], by simp [classLoop_eq]⟩

theorem length_readClass (pat : List Char) : (readClass pat).2.length ≤ pat.length := by
  obtain ⟨negate, ranges, hread, -⟩ := matchCharClass_eq 'a' pat
  rw [hread]
  exact length_matchCharClass 'a' pat

/-- The pattern, read: stars, question marks, classes and characters. A class without an end is read
to the end of the pattern. -/
def tokens : List Char → List Token
  | [] => []
  | '*' :: '*' :: rest => .stars :: tokens (afterStars rest)
  | '*' :: rest => .star :: tokens rest
  | '?' :: rest => .question :: tokens rest
  | '[' :: rest => (readClass rest).1 :: tokens (readClass rest).2
  | c :: rest => .literal c :: tokens rest
termination_by pat => pat.length
decreasing_by
  all_goals simp only [List.length_cons]
  all_goals first
    | omega
    | (have h := length_afterStars rest; omega)
    | (have h := length_readClass rest; omega)

/-- A token covers a part of a path, of which some is left. Two stars cover whole segments, or all
that is left; only they and a class cover a slash. -/
def Token.Covers (part rest : List Char) : Token → Prop
  | .stars => part = [] ∨ part.getLast? = some '/' ∨ rest = []
  | .star => '/' ∉ part
  | .question => ∃ c, part = [c] ∧ c ≠ '/'
  | .charClass negate ranges => ∃ c, part = [c] ∧ (negate != inRanges c ranges) = true
  | .literal c => part = [c]

/-- The path can be split into parts that the tokens cover one after the other. -/
def Matches : List Token → List Char → Prop
  | [], path => path = []
  | token :: tokens, path =>
      ∃ part rest, part ++ rest = path ∧ token.Covers part rest ∧ Matches tokens rest

theorem mem_starPlaces {place path : List Char} :
    place ∈ starPlaces path ↔ ∃ part, part ++ place = path ∧ '/' ∉ part := by
  induction path with
  | nil =>
      rw [starPlaces, List.mem_singleton]
      constructor
      · rintro rfl
        exact ⟨[], rfl, List.not_mem_nil⟩
      · rintro ⟨part, h, -⟩
        exact (List.append_eq_nil_iff.mp h).2
  | cons c path ih =>
      unfold starPlaces
      split_ifs with hc
      · -- a star does not pass a slash
        rw [List.mem_singleton]
        constructor
        · rintro rfl
          exact ⟨[], rfl, List.not_mem_nil⟩
        · rintro ⟨part, h, hpart⟩
          cases part with
          | nil => exact h
          | cons d part =>
              obtain ⟨rfl, -⟩ := List.cons.inj h
              exact absurd (hc ▸ List.mem_cons_self) hpart
      · rw [List.mem_cons, ih]
        constructor
        · rintro (rfl | ⟨part, rfl, hpart⟩)
          · exact ⟨[], rfl, List.not_mem_nil⟩
          · exact ⟨c :: part, rfl, by simp [hpart, Ne.symm hc]⟩
        · rintro ⟨part, h, hpart⟩
          cases part with
          | nil => exact .inl h
          | cons d part =>
              obtain ⟨-, h⟩ := List.cons.inj h
              exact .inr ⟨part, h, fun hmem => hpart (List.mem_cons_of_mem d hmem)⟩

theorem mem_slashPlaces {place path : List Char} :
    place ∈ slashPlaces path ↔ ∃ part, part ++ place = path ∧ part.getLast? = some '/' := by
  induction path with
  | nil =>
      simp only [slashPlaces, List.not_mem_nil, List.append_eq_nil_iff, false_iff, not_exists]
      rintro part ⟨⟨rfl, -⟩, h⟩
      cases h
  | cons c path ih =>
      have hcons : (∃ part, part ++ place = c :: path ∧ part.getLast? = some '/') ↔
          c = '/' ∧ place = path ∨ place ∈ slashPlaces path := by
        rw [ih]
        constructor
        · rintro ⟨part, h, hlast⟩
          cases part with
          | nil => cases hlast
          | cons d part =>
              obtain ⟨rfl, rfl⟩ := List.cons.inj h
              cases part with
              | nil => exact .inl ⟨Option.some.inj hlast, rfl⟩
              | cons e part => exact .inr ⟨e :: part, rfl, hlast⟩
        · rintro (⟨rfl, rfl⟩ | ⟨part, rfl, hlast⟩)
          · exact ⟨['/'], rfl, rfl⟩
          · refine ⟨c :: part, rfl, ?_⟩
            cases part with
            | nil => cases hlast
            | cons e part => exact hlast
      rw [hcons, slashPlaces]
      split_ifs with hc
      · simp [hc]
      · simp [hc]

/-- A token that covers one character. -/
theorem matches_one {token : Token} {P : Char → Prop} {tokens : List Token} {path : List Char}
    (h : ∀ part rest, token.Covers part rest ↔ ∃ c, part = [c] ∧ P c) :
    Matches (token :: tokens) path ↔ ∃ c more, path = c :: more ∧ P c ∧ Matches tokens more := by
  constructor
  · rintro ⟨part, rest, rfl, hcovers, hrest⟩
    obtain ⟨c, rfl, hc⟩ := (h part rest).mp hcovers
    exact ⟨c, rest, rfl, hc, hrest⟩
  · rintro ⟨c, more, rfl, hc, hrest⟩
    exact ⟨[c], more, rfl, (h [c] more).mpr ⟨c, rfl, hc⟩, hrest⟩

theorem matches_cons_of_one {token : Token} {P : Char → Prop} {tokens : List Token} {c : Char}
    {more : List Char} (h : ∀ part rest, token.Covers part rest ↔ ∃ c, part = [c] ∧ P c) :
    Matches (token :: tokens) (c :: more) ↔ P c ∧ Matches tokens more := by
  rw [matches_one h]
  constructor
  · rintro ⟨d, rest, hcons, hd, hrest⟩
    obtain ⟨rfl, rfl⟩ := List.cons.inj hcons
    exact ⟨hd, hrest⟩
  · exact fun hboth => ⟨c, more, rfl, hboth⟩

theorem not_matches_nil_of_one {token : Token} {P : Char → Prop} {tokens : List Token}
    (h : ∀ part rest, token.Covers part rest ↔ ∃ c, part = [c] ∧ P c) :
    ¬ Matches (token :: tokens) [] := by
  rw [matches_one h]
  rintro ⟨c, more, hcons, -⟩
  cases hcons

theorem covers_question (part rest : List Char) :
    Token.question.Covers part rest ↔ ∃ c, part = [c] ∧ c ≠ '/' := Iff.rfl

theorem covers_charClass (negate : Bool) (ranges : List (Char × Char)) (part rest : List Char) :
    (Token.charClass negate ranges).Covers part rest ↔
      ∃ c, part = [c] ∧ (negate != inRanges c ranges) = true := Iff.rfl

theorem covers_literal (c : Char) (part rest : List Char) :
    (Token.literal c).Covers part rest ↔ ∃ d, part = [d] ∧ d = c := by
  constructor
  · exact fun h => ⟨c, h, rfl⟩
  · rintro ⟨d, h, rfl⟩
    exact h

theorem matches_stars {tokens : List Token} {path : List Char} :
    Matches (.stars :: tokens) path ↔ Matches tokens path ∨
      (∃ place ∈ slashPlaces path, Matches tokens place) ∨ Matches tokens [] := by
  constructor
  · rintro ⟨part, rest, rfl, rfl | hlast | rfl, hrest⟩
    · exact .inl hrest
    · exact .inr (.inl ⟨rest, mem_slashPlaces.mpr ⟨part, rfl, hlast⟩, hrest⟩)
    · exact .inr (.inr hrest)
  · rintro (hrest | ⟨place, hplace, hrest⟩ | hrest)
    · exact ⟨[], path, rfl, .inl rfl, hrest⟩
    · obtain ⟨part, hpart, hlast⟩ := mem_slashPlaces.mp hplace
      exact ⟨part, place, hpart, .inr (.inl hlast), hrest⟩
    · exact ⟨path, [], List.append_nil path, .inr (.inr rfl), hrest⟩

theorem matches_star {tokens : List Token} {path : List Char} :
    Matches (.star :: tokens) path ↔ ∃ place ∈ starPlaces path, Matches tokens place := by
  constructor
  · rintro ⟨part, rest, hpart, hcovers, hrest⟩
    exact ⟨rest, mem_starPlaces.mpr ⟨part, hpart, hcovers⟩, hrest⟩
  · rintro ⟨place, hplace, hrest⟩
    obtain ⟨part, hpart, hcovers⟩ := mem_starPlaces.mp hplace
    exact ⟨part, place, hpart, hcovers, hrest⟩

theorem tokens_class (pat : List Char) :
    tokens ('[' :: pat) = (readClass pat).1 :: tokens (readClass pat).2 := by
  rw [tokens]

/-- What `glob_go` tries, one after the other, is all the ways to split the path. -/
theorem globGo_iff (pat path : List Char) : globGo pat path = true ↔ Matches (tokens pat) path := by
  fun_induction globGo pat path with
  | case1 path => rw [tokens, Matches, List.isEmpty_iff]
  | case2 rest path ihHere ihPlace ihEnd =>
      rw [tokens, matches_stars, Bool.or_eq_true, Bool.or_eq_true, List.any_eq_true, ihHere, ihEnd, or_assoc]
      simp only [ihPlace]
  | case3 rest path hstar ih =>
      rw [tokens, matches_star, List.any_eq_true]
      · simp only [ih]
      · exact hstar
  | case4 rest c more hc ih => rw [tokens, matches_cons_of_one covers_question, and_iff_right hc, ih]
  | case5 rest c more hc =>
      rw [tokens, matches_cons_of_one covers_question]
      exact ⟨nofun, fun h => absurd h.1 hc⟩
  | case6 rest =>
      rw [tokens]
      exact ⟨nofun, fun h => absurd h (not_matches_nil_of_one covers_question)⟩
  | case7 rest c more hc ih =>
      obtain ⟨negate, ranges, hread, hmatched⟩ := matchCharClass_eq c rest
      rw [tokens_class, hread, matches_cons_of_one (covers_charClass negate ranges), ← hmatched,
        and_iff_right hc, ih]
  | case8 rest c more hc =>
      obtain ⟨negate, ranges, hread, hmatched⟩ := matchCharClass_eq c rest
      rw [tokens_class, hread, matches_cons_of_one (covers_charClass negate ranges), ← hmatched]
      exact ⟨nofun, fun h => absurd h.1 hc⟩
  | case9 rest =>
      obtain ⟨negate, ranges, hread, -⟩ := matchCharClass_eq 'a' rest
      rw [tokens_class, hread]
      exact ⟨nofun, fun h => absurd h (not_matches_nil_of_one (covers_charClass negate ranges))⟩
  | case10 rest c more hstars hstar hquestion hclass ih =>
      rw [tokens, matches_cons_of_one (covers_literal c), and_iff_right rfl, ih]
      · exact hstars
      · exact hstar
      · exact hquestion
      · exact hclass
  | case11 p rest hstars hstar hquestion hclass c more hc =>
      rw [tokens, matches_cons_of_one (covers_literal p)]
      · exact ⟨nofun, fun h => absurd h.1.symm hc⟩
      · exact hstars
      · exact hstar
      · exact hquestion
      · exact hclass
  | case12 p rest hstars hstar hquestion hclass =>
      rw [tokens]
      · exact ⟨nofun, fun h => absurd h (not_matches_nil_of_one (covers_literal p))⟩
      · exact hstars
      · exact hstar
      · exact hquestion
      · exact hclass

end Mulp.GlobWatch
