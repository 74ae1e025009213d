import Mulp.Lib.KeyedList
import Mulp.Platform.Glob

/-! The discovered paths that globs select (`vinyl_fs/glob_stream.mbt`).

The globs are taken in order: a positive one adds what it matches, a negative one
removes it again. Strings are taken apart by characters; `LastMatch` has the version
with slices. -/
namespace Mulp.VinylFs

open Mulp.Platform Mulp.Text

def pathHasDotSegment (path : String) : Bool := (splitSlash path).any fun value => hasPrefix value "."

def pathMatchesGlobOption (path pattern : String) (dot : Bool) : Bool :=
  (dot || !pathHasDotSegment path) && globMatches pattern path

def removeMatching (selected : List String) (pattern : String) (dot : Bool) : List String :=
  selected.filter fun path => !pathMatchesGlobOption path pattern dot

/-- The turn of `ordered_glob_paths` for a glob; its `contains_path` is membership. -/
def selectGlob (paths : List String) (dot : Bool) (selected : List String) (glob : String) :
    List String :=
  if hasPrefix glob "!" then removeMatching selected (String.ofList (glob.toList.drop 1)) dot
  else
    paths.foldl (fun selected path =>
      if pathMatchesGlobOption path glob dot && path ∉ selected then selected ++ [path] else selected)
      selected

def orderedGlobPaths (paths globs : List String) (dot : Bool) : List String :=
  globs.foldl (selectGlob paths dot) []

def selectGlobStreamPaths (paths globs : List String) (dot : Bool) : List String :=
  orderedGlobPaths paths globs dot

section Positive

variable {paths globs : List String} {dot : Bool} {path : String}

/-- A positive glob adds what it matches. -/
theorem mem_selectGlob {glob : String} (hpositive : hasPrefix glob "!" = false)
    (selected : List String) :
    path ∈ selectGlob paths dot selected glob ↔
      path ∈ selected ∨ path ∈ paths ∧ pathMatchesGlobOption path glob dot = true := by
  rw [selectGlob, hpositive, if_neg Bool.false_ne_true]
  induction paths generalizing selected with
  | nil => simp
  | cons first rest ih =>
      have hfirst : path = first ∧ pathMatchesGlobOption first glob dot = true ↔
          path = first ∧ pathMatchesGlobOption path glob dot = true :=
        and_congr_right fun heq => by rw [heq]
      rw [List.foldl_cons, ih, Keyed.mem_push, hfirst, List.mem_cons, or_assoc, or_and_right]

theorem mem_selectGlobStreamPaths (hpositive : ∀ glob ∈ globs, hasPrefix glob "!" = false) :
    path ∈ selectGlobStreamPaths paths globs dot ↔
      path ∈ paths ∧ ∃ glob ∈ globs, pathMatchesGlobOption path glob dot = true := by
  suffices h : ∀ selected, path ∈ globs.foldl (selectGlob paths dot) selected ↔
      path ∈ selected ∨ path ∈ paths ∧ ∃ glob ∈ globs, pathMatchesGlobOption path glob dot = true by
    rw [selectGlobStreamPaths, orderedGlobPaths, h []]
    simp
  induction globs with
  | nil => simp
  | cons glob rest ih =>
      intro selected
      rw [List.forall_mem_cons] at hpositive
      rw [List.foldl_cons, ih hpositive.2, mem_selectGlob hpositive.1, List.exists_mem_cons_iff,
        or_assoc, ← and_or_left]

end Positive

/-! ## Literals -/

def hasGlobMagic (pattern : String) : Bool :=
  pattern.toList.any fun c => c = '*' || c = '?' || c = '[' || c = ']' || c = '{' || c = '}'

theorem segmentMatches_literal {pattern : List Char} (h : '*' ∉ pattern) (value : List Char) :
    segmentMatches pattern value = true ↔ pattern = value := by
  induction pattern generalizing value with
  | nil => cases value <;> simp [segmentMatches]
  | cons c pattern ih =>
      rw [List.mem_cons, not_or] at h
      have hc : c ≠ '*' := Ne.symm h.1
      cases value with
      | nil => simp [segmentMatches_nil pattern hc]
      | cons d value => simp [segmentMatches_cons pattern hc, ih h.2]

theorem pathSegmentsMatch_literal {pattern : List String} (h : ∀ part ∈ pattern, '*' ∉ part.toList)
    (path : List String) : pathSegmentsMatch pattern path = true ↔ pattern = path := by
  induction pattern generalizing path with
  | nil => cases path <;> simp [pathSegmentsMatch]
  | cons part pattern ih =>
      rw [List.forall_mem_cons] at h
      have hpart : part ≠ "**" := by
        rintro rfl
        exact h.1 (by decide)
      cases path with
      | nil => simp [pathSegmentsMatch, hpart]
      | cons segment path =>
          simp only [pathSegmentsMatch, hpart, if_false, Bool.and_eq_true,
            segmentMatches_literal h.1, ih h.2, String.toList_inj, List.cons.injEq]

/-- A literal matches the paths with its segments. -/
theorem globMatches_literal {glob : String} (h : hasGlobMagic glob = false) (path : String) :
    globMatches glob path = true ↔ nonEmptySegments glob = nonEmptySegments path := by
  refine pathSegmentsMatch_literal (fun part hpart hstar => ?_) _
  have hmem := mem_of_mem_nonEmptySegments hpart hstar
  have hmagic : hasGlobMagic glob = true := List.any_eq_true.mpr ⟨_, hmem, by decide⟩
  rw [h] at hmagic
  cases hmagic

end Mulp.VinylFs
