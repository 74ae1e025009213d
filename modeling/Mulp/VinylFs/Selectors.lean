import Mulp.Platform.Expand
import Mulp.VinylFs.LastMatch

/-! The two selectors of paths beside each other: one lets the last glob that matches a path
decide (`vinyl_fs/glob_stream.mbt`), the other asks all patterns (`platform/glob.mbt`). -/
namespace Mulp.VinylFs.Sliced

open Mulp.Text Mulp.Platform.Sliced

/-- No positive pattern follows a negative one. Then the last match of a path is negative just if
some negative pattern matches it. -/
def NegationsLast (patterns : List String) : Prop :=
  patterns.Pairwise fun earlier later => hasPrefix earlier "!" = true → hasPrefix later "!" = true

/-- Both selectors return, no path twice, and what `expand_globs_with_options` returns is among
what `select_glob_stream_paths` does; where negations come last, they return the same paths. -/
def SelectorsAgree (paths patterns : List String) (dot : Bool) : Prop :=
  ∃ selected expanded, selectGlobStreamPaths paths patterns dot = some selected ∧
    expandGlobsWithOptions paths patterns dot = some expanded ∧
    selected.Nodup ∧ expanded.Nodup ∧ (∀ path ∈ expanded, path ∈ selected) ∧
    (NegationsLast patterns → ∀ path, path ∈ selected ↔ path ∈ expanded)

variable {paths patterns : List String} {dot : Bool} {path pattern : String}

/-! ## One path and one pattern -/

theorem patternMatches_eq (path pattern : String) :
    patternMatches path pattern = globMatches (patternOf pattern) path := by
  unfold patternMatches
  by_cases hmark : hasPrefix pattern "!" = true
  · rw [if_pos hmark, slice_mark hmark]
    rfl
  · rw [if_neg hmark, patternOf, if_neg hmark]

/-- An empty segment does not begin with a dot. -/
theorem dotSegment_eq (path : String) :
    Platform.Sliced.pathHasDotSegment path = VinylFs.pathHasDotSegment path := by
  have hempty : ∀ segment : String, (segment ≠ "" ∧ hasPrefix segment "." = true) ↔
      hasPrefix segment "." = true := by
    intro segment
    rw [and_iff_right_iff_imp]
    rintro h rfl
    simp [hasPrefix] at h
  rw [Bool.eq_iff_iff, Platform.Sliced.pathHasDotSegment, VinylFs.pathHasDotSegment,
    Platform.nonEmptySegments, List.any_filter]
  simp [List.any_eq_true, hempty]

/-- A glob matches a path that the dot option lets through. -/
theorem matches_iff : Matches dot path pattern ↔
    (dot || !Platform.Sliced.pathHasDotSegment path) = true ∧
      patternMatches path pattern = some true := by
  rw [Matches, pathMatchesGlobOption, patternMatches_eq, dotSegment_eq]
  split_ifs with hvisible
  · rw [and_iff_right hvisible]
  · simp [hvisible]

theorem returns_of_patternMatches (h : patternMatches path pattern ≠ none) :
    Returns dot path pattern := by
  rw [Returns, pathMatchesGlobOption, ← patternMatches_eq]
  split_ifs
  · exact h
  · exact Option.some_ne_none _

/-! ## One path and all patterns -/

/-- What all patterns let through, the last one that matches lets through. -/
theorem chosen_of_included (hincluded : Included path patterns)
    (hexcluded : ¬ Excluded path patterns)
    (hvisible : (dot || !Platform.Sliced.pathHasDotSegment path) = true) :
    Chosen dot path patterns := by
  apply Trace.since_of_forall
  · obtain ⟨pattern, hpattern, hmatched, hpositive⟩ := hincluded
    exact ⟨pattern, hpattern, matches_iff.mpr ⟨hvisible, hmatched⟩, hpositive⟩
  · intro pattern hpattern hmatches
    refine ⟨hmatches, Bool.eq_false_iff.mpr fun hmark => hexcluded ?_⟩
    exact ⟨pattern, hpattern, (matches_iff.mp hmatches).2, hmark⟩

/-- Where negations come last, the other way round too. -/
theorem chosen_iff_included (h : NegationsLast patterns) : Chosen dot path patterns ↔
    (Included path patterns ∧ ¬ Excluded path patterns) ∧
      (dot || !Platform.Sliced.pathHasDotSegment path) = true := by
  refine ⟨fun hchosen => ?_, fun hpath => chosen_of_included hpath.1.1 hpath.1.2 hpath.2⟩
  have hordered : patterns.Pairwise fun earlier later =>
      Matches dot path later ∧ hasPrefix later "!" = false → Matches dot path earlier →
        Matches dot path earlier ∧ hasPrefix earlier "!" = false := by
    refine h.imp fun hmarks hlater hmatches => ⟨hmatches, ?_⟩
    exact Bool.eq_false_iff.mpr fun hmark => Bool.eq_false_iff.mp hlater.2 (hmarks hmark)
  obtain ⟨⟨pattern, hpattern, hmatches, hpositive⟩, hall⟩ :=
    (Trace.since_iff_of_pairwise hordered).mp hchosen
  obtain ⟨hvisible, hmatched⟩ := matches_iff.mp hmatches
  refine ⟨⟨⟨pattern, hpattern, hmatched, hpositive⟩, ?_⟩, hvisible⟩
  rintro ⟨other, hother, hmatched', hmark⟩
  have hpositive' := (hall other hother (matches_iff.mpr ⟨hvisible, hmatched'⟩)).2
  rw [hmark] at hpositive'
  cases hpositive'

/-! ## All paths -/

/-- The selectors agree exactly when `glob_matches` returns for every path and every pattern. -/
theorem selectors_agree_iff (paths patterns : List String) (dot : Bool) :
    SelectorsAgree paths patterns dot ↔
      ∀ path ∈ paths, ∀ pattern ∈ patterns, globMatches (patternOf pattern) path ≠ none := by
  simp only [← patternMatches_eq]
  rw [← @exists_expandGlobsWithOptions _ _ dot]
  constructor
  · rintro ⟨-, expanded, -, hexpanded, -⟩
    exact ⟨expanded, hexpanded⟩
  · rintro ⟨expanded, hexpanded⟩
    have hreturn : AllReturn paths dot [] patterns := by
      rintro before pattern after rfl path hpath -
      exact returns_of_patternMatches
        (exists_expandGlobsWithOptions.mp ⟨expanded, hexpanded⟩ path hpath pattern (by simp))
    obtain ⟨selected, hselected⟩ := (exists_orderedGlobPaths selection_nil).mpr hreturn
    have hselection : Selection paths dot patterns selected := selection_nil.run hselected
    obtain ⟨hnodup, hmem⟩ := expandGlobsWithOptions_mem hexpanded
    refine ⟨selected, expanded, hselected, hexpanded, hselection.nodup, hnodup, ?_, ?_⟩
    · intro path hpath
      obtain ⟨⟨hgiven, hincluded, hexcluded⟩, hvisible⟩ := (hmem path).mp hpath
      exact (hselection.mem path).mpr ⟨hgiven, chosen_of_included hincluded hexcluded hvisible⟩
    · intro hlast path
      rw [hselection.mem, hmem, chosen_iff_included hlast]
      exact and_assoc.symm

/-- Without pairs they do. -/
theorem globMatches_returns_of_isBmp (hpaths : ∀ path ∈ paths, IsBmp path)
    (hpatterns : ∀ pattern ∈ patterns, IsBmp pattern) :
    ∀ path ∈ paths, ∀ pattern ∈ patterns, globMatches (patternOf pattern) path ≠ none := by
  intro path hpath pattern hpattern
  rw [globMatches_eq (isBmp_patternOf (hpatterns pattern hpattern)) (hpaths path hpath)]
  exact Option.some_ne_none _

/-- A hidden path is compared with the pattern by one selector only, at the first unit of a
pair. -/
theorem not_selectors_agree :
    ¬ ∀ paths patterns dot, SelectorsAgree paths patterns dot := by
  intro h
  obtain ⟨-, expanded, -, hexpanded, -⟩ := h [".😀"] [".a"] false
  have hsecond : segmentMatches ".a" ".😀" 1 1 = none := by
    have hpart : slice ".a" 1 (1 + 1) = some "a" := by decide
    rw [segmentMatches_unit (by decide) hpart (by decide), if_pos (by decide)]
    rfl
  have hsegment : segmentMatches ".a" ".😀" 0 0 = none := by
    have hpart : slice ".a" 0 (0 + 1) = some "." := by decide
    have hother : slice ".😀" 0 (0 + 1) = some "." := by decide
    rw [segmentMatches_unit (by decide) hpart (by decide), if_pos (by decide)]
    simp only [hother]
    exact hsecond
  have hmatch : patternMatches ".😀" ".a" = none := by
    have hpattern : Platform.nonEmptySegments ".a" = [".a"] := by decide
    have hpath : Platform.nonEmptySegments ".😀" = [".😀"] := by decide
    rw [patternMatches, if_neg (by decide), globMatches, hpattern, hpath, pathSegmentsMatch,
      if_neg (by decide)]
    simp only [hsegment]
  have hall := exists_expandGlobsWithOptions.mp ⟨expanded, hexpanded⟩
  exact hall ".😀" List.mem_cons_self ".a" List.mem_cons_self hmatch

end Mulp.VinylFs.Sliced
