import Mathlib.Data.List.Infix
import Mulp.Lib.Split
import Mulp.Platform.Sliced

/-! The relation that `glob_matches` computes (`platform/glob.mbt`).

A match is a way to split the path among the parts of the glob, first by segments and
then by characters. Both levels are one notion of a library, with another relation of
what a part covers. -/
namespace Mulp.Platform

open Mulp.Text Split

/-! ## The relation -/

/-- Within a segment a star covers any characters, and another character itself. -/
def CoversChars (c : Char) (part : List Char) : Prop := if c = '*' then True else part = [c]

/-- Two stars cover any segments, and another segment of a pattern one segment. -/
def CoversSegments (part : String) (segments : List String) : Prop :=
  if part = "**" then True
  else ∃ segment, segments = [segment] ∧ Splits CoversChars part.toList segment.toList

/-- The glob matches the path: the segments of the path can be split among those of the glob. Empty
segments on either side do not count, so a slash more or less makes no difference. -/
def Globs (pattern path : String) : Prop :=
  Splits CoversSegments (nonEmptySegments pattern) (nonEmptySegments path)

theorem coversChars_star (part : List Char) : CoversChars '*' part := trivial

theorem coversChars_iff {c : Char} (hc : c ≠ '*') (part : List Char) :
    CoversChars c part ↔ ∃ d, part = [d] ∧ c = d := by
  rw [CoversChars, if_neg hc]
  exact ⟨fun h => ⟨c, h, rfl⟩, fun ⟨_, h, hd⟩ => hd ▸ h⟩

theorem coversSegments_stars (segments : List String) : CoversSegments "**" segments := by
  rw [CoversSegments, if_pos rfl]
  trivial

theorem coversSegments_iff {part : String} (hpart : part ≠ "**") (segments : List String) :
    CoversSegments part segments ↔
      ∃ segment, segments = [segment] ∧ Splits CoversChars part.toList segment.toList := by
  rw [CoversSegments, if_neg hpart]

theorem segmentMatches_iff (pattern value : List Char) :
    segmentMatches pattern value = true ↔ Splits CoversChars pattern value := by
  induction pattern generalizing value with
  | nil => rw [segmentMatches, splits_nil, List.isEmpty_iff]
  | cons c pattern ih =>
      by_cases hc : c = '*'
      · rw [hc, segmentMatches, splits_any coversChars_star, List.any_eq_true]
        simp only [List.mem_tails, ih]
      · rw [splits_one (coversChars_iff hc)]
        cases value with
        | nil => simp [segmentMatches_nil pattern hc]
        | cons d value =>
            rw [segmentMatches_cons pattern hc, Bool.and_eq_true, decide_eq_true_eq, ih]
            constructor
            · rintro ⟨hd, hrest⟩
              exact ⟨d, value, rfl, hd, hrest⟩
            · rintro ⟨_, _, hcons, hd, hrest⟩
              cases hcons
              exact ⟨hd, hrest⟩

theorem pathSegmentsMatch_iff (pattern path : List String) :
    pathSegmentsMatch pattern path = true ↔ Splits CoversSegments pattern path := by
  induction pattern generalizing path with
  | nil => rw [pathSegmentsMatch, splits_nil, List.isEmpty_iff]
  | cons part pattern ih =>
      by_cases hpart : part = "**"
      · rw [hpart, Sliced.pathSegmentsMatch_stars, splits_any coversSegments_stars,
          List.any_eq_true]
        simp only [List.mem_tails, ih]
      · rw [splits_one (coversSegments_iff hpart)]
        cases path with
        | nil => simp [pathSegmentsMatch, hpart]
        | cons segment path =>
            rw [pathSegmentsMatch, if_neg hpart, Bool.and_eq_true, segmentMatches_iff, ih]
            constructor
            · rintro ⟨hsegment, hrest⟩
              exact ⟨segment, path, rfl, hsegment, hrest⟩
            · rintro ⟨_, _, hcons, hsegment, hrest⟩
              cases hcons
              exact ⟨hsegment, hrest⟩

/-! ## Spellings -/

/-- The texts differ in slashes that are repeated, or at an end. -/
inductive Respelled : String → String → Prop where
  | refl (value : String) : Respelled value value
  | leading (value : String) : Respelled ("/" ++ value) value
  | trailing (value : String) : Respelled (value ++ "/") value
  | repeated (front back : String) : Respelled (front ++ "//" ++ back) (front ++ "/" ++ back)
  | symm {value other : String} : Respelled value other → Respelled other value
  | trans {value other third : String} : Respelled value other → Respelled other third → Respelled value third

theorem Respelled.segments {value other : String} (h : Respelled value other) :
    nonEmptySegments value = nonEmptySegments other := by
  have hempty : nonEmptySegments "" = [] := rfl
  induction h with
  | refl value => rfl
  | leading value => exact nonEmptySegments_slash value
  | trailing value =>
      have hslash := nonEmptySegments_append value ""
      rwa [String.append_empty, hempty, List.append_nil] at hslash
  | repeated front back =>
      have hslashes : front ++ "//" ++ back = front ++ "/" ++ ("" ++ "/" ++ back) := by
        rw [← String.toList_inj]
        simp
      rw [hslashes, nonEmptySegments_append, nonEmptySegments_append, nonEmptySegments_append,
        hempty, List.nil_append]
  | symm _ ih => exact ih.symm
  | trans _ _ ih ih' => exact ih.trans ih'

/-! ## Repeated stars -/

/-- The second pattern has another segment `**` beside one. -/
def StarsInserted (pattern longer : String) : Prop :=
  ∃ front back, nonEmptySegments pattern = front ++ "**" :: back ∧
    nonEmptySegments longer = front ++ "**" :: "**" :: back

/-- The second pattern has another star beside one in the segment. -/
def StarInserted (pattern longer segment : String) : Prop :=
  ∃ front back before after, segment = before ++ "*" ++ after ∧ nonEmptySegments pattern = front ++ segment :: back ∧
    nonEmptySegments longer = front ++ (before ++ "**" ++ after) :: back

section Stars

variable {pattern longer path : String}

theorem globs_of_starsInserted (h : StarsInserted pattern longer) :
    Globs pattern path ↔ Globs longer path := by
  obtain ⟨front, back, hpattern, hlonger⟩ := h
  rw [Globs, Globs, hpattern, hlonger, List.append_cons]
  have htwice := List.append_assoc front ["**", "**"] back
  rw [List.cons_append, List.cons_append, List.nil_append] at htwice
  rw [← htwice]
  exact splits_congr fun v => (splits_any_twice coversSegments_stars).symm

/-- A star more in a segment, unless the segment becomes `**` or was it. -/
theorem coversSegments_inserted {before after : String} (hone : before ++ "*" ++ after ≠ "*")
    (htwo : before ++ "*" ++ after ≠ "**") (segments : List String) :
    CoversSegments (before ++ "*" ++ after) segments ↔
      CoversSegments (before ++ "**" ++ after) segments := by
  have hlonger : before ++ "**" ++ after ≠ "**" := by
    intro heq
    refine hone ?_
    have hlength := congrArg (fun text => text.toList.length) heq
    simp only [String.toList_append, List.length_append] at hlength
    have hshort : before.toList.length = 0 ∧ after.toList.length = 0 := by
      have htwo : "**".toList.length = 2 := rfl
      omega
    rw [String.toList_eq_nil_iff.mp (List.length_eq_zero_iff.mp hshort.1),
      String.toList_eq_nil_iff.mp (List.length_eq_zero_iff.mp hshort.2)]
    rfl
  have hchars : (before ++ "*" ++ after).toList = before.toList ++ ['*'] ++ after.toList := by simp
  have hlongerChars : (before ++ "**" ++ after).toList =
      before.toList ++ ['*', '*'] ++ after.toList := by simp
  rw [coversSegments_iff htwo, coversSegments_iff hlonger, hchars, hlongerChars]
  refine exists_congr fun segment => and_congr_right fun _ => ?_
  exact splits_congr fun v => (splits_any_twice coversChars_star).symm

theorem globs_of_starInserted {segment : String} (h : StarInserted pattern longer segment)
    (hone : segment ≠ "*") (htwo : segment ≠ "**") : Globs pattern path ↔ Globs longer path := by
  obtain ⟨front, back, before, after, rfl, hpattern, hlonger⟩ := h
  rw [Globs, Globs, hpattern, hlonger, List.append_cons,
    List.append_cons front (before ++ "**" ++ after)]
  refine splits_congr fun v => ?_
  rw [splits_singleton, splits_singleton]
  exact coversSegments_inserted hone htwo v

end Stars

/-! ## The function -/

theorem globMatches_iff (pattern path : String) :
    globMatches pattern path = true ↔ Globs pattern path :=
  pathSegmentsMatch_iff _ _

/-- Patterns with the same meaning give the same answers. -/
theorem sliced_globMatches_congr {pattern longer path : String} (hpattern : IsBmp pattern)
    (hlonger : IsBmp longer) (hpath : IsBmp path) (h : Globs pattern path ↔ Globs longer path) :
    Sliced.globMatches pattern path = Sliced.globMatches longer path := by
  rw [Sliced.globMatches_eq hpattern hpath, Sliced.globMatches_eq hlonger hpath, Option.some.injEq,
    Bool.eq_iff_iff, globMatches_iff, globMatches_iff, h]

/-- The function computes the relation, for texts without pairs. What follows for slashes, for
`**` alone and for repeated stars. -/
theorem globMatches_relation :
    (∀ pattern path, IsBmp pattern → IsBmp path →
      ∃ b, Sliced.globMatches pattern path = some b ∧ (b = true ↔ Globs pattern path)) ∧
    (∀ pattern pattern' path path', Respelled pattern pattern' → Respelled path path' →
      Sliced.globMatches pattern path = Sliced.globMatches pattern' path') ∧
    (∀ path, IsBmp path → Sliced.globMatches "**" path = some true) ∧
    (∀ pattern longer path, IsBmp pattern → IsBmp longer → IsBmp path → StarsInserted pattern longer →
      Sliced.globMatches pattern path = Sliced.globMatches longer path) ∧
    (∀ pattern longer path segment, IsBmp pattern → IsBmp longer → IsBmp path →
      StarInserted pattern longer segment → segment ≠ "*" → segment ≠ "**" →
      Sliced.globMatches pattern path = Sliced.globMatches longer path) := by
  refine ⟨?_, ?_, ?_, ?_, ?_⟩
  · intro pattern path hpattern hpath
    exact ⟨_, Sliced.globMatches_eq hpattern hpath, globMatches_iff pattern path⟩
  · intro pattern pattern' path path' hpattern hpath
    rw [Sliced.globMatches, Sliced.globMatches, hpattern.segments, hpath.segments]
  · intro path hpath
    have hsegments : nonEmptySegments "**" = ["**"] := by decide
    rw [Sliced.globMatches_eq (by decide) hpath, Option.some.injEq, globMatches_iff, Globs,
      hsegments]
    exact splits_any_singleton coversSegments_stars
  · intro pattern longer path hpattern hlonger hpath h
    exact sliced_globMatches_congr hpattern hlonger hpath (globs_of_starsInserted h)
  · intro pattern longer path segment hpattern hlonger hpath h hone htwo
    exact sliced_globMatches_congr hpattern hlonger hpath (globs_of_starInserted h hone htwo)

/-- A star beside the one of the segment `*` makes it `**`, which covers more than a segment. -/
theorem not_starInserted_single :
    ¬ ∀ pattern longer path segment, IsBmp pattern → IsBmp longer → IsBmp path →
      StarInserted pattern longer segment → Sliced.globMatches pattern path = Sliced.globMatches longer path := by
  intro h
  have hsame := h "*" "**" "a/b" "*" (by decide) (by decide) (by decide)
    ⟨[], [], "", "", by decide, by decide, by decide⟩
  rw [Sliced.globMatches_eq (by decide) (by decide), Sliced.globMatches_eq (by decide)
    (by decide)] at hsame
  exact absurd hsame (by decide)

end Mulp.Platform
