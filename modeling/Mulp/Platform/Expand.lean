import Mulp.Lib.KeyedList
import Mulp.Platform.Sliced

/-! The paths that all patterns together let through (`platform/glob.mbt`). A call of
`glob_matches` can abort. -/
namespace Mulp.Platform.Sliced

open Mulp.Text

/-! ## `expand_globs_with_options` -/

/-- The call of `glob_matches` for a path and a pattern of `expand_globs`. -/
def patternMatches (path pattern : String) : Option Bool :=
  if hasPrefix pattern "!" then do
    let exclude ← slice pattern 1 (unitLength pattern)
    globMatches exclude path
  else globMatches pattern path

/-- The loop of `expand_globs` over the patterns, with its two flags. -/
def includedExcluded (path : String) (included excluded : Bool) : List String → Option (Bool × Bool)
  | [] => some (included, excluded)
  | pattern :: patterns => do
      let matched ← patternMatches path pattern
      if hasPrefix pattern "!" then
        includedExcluded path included (if matched then true else excluded) patterns
      else includedExcluded path (if matched then true else included) excluded patterns

/-- The loop of `expand_globs` over the paths. Its `contains_exact_path` is membership. -/
def expandFrom (patterns matched : List String) : List String → Option (List String)
  | [] => some matched
  | path :: paths => do
      let (included, excluded) ← includedExcluded path false false patterns
      expandFrom patterns
        (if included && !excluded && path ∉ matched then matched ++ [path] else matched) paths

def expandGlobs (paths patterns : List String) : Option (List String) :=
  expandFrom patterns [] paths

def pathHasDotSegment (path : String) : Bool :=
  (nonEmptySegments path).any fun segment => hasPrefix segment "."

def expandGlobsWithOptions (paths patterns : List String) (dot : Bool) : Option (List String) := do
  let expanded ← expandGlobs paths patterns
  some (expanded.filter fun path => dot || !pathHasDotSegment path)

/-! ## What it returns -/

/-- Some positive pattern matches the path, without an abort of that call. The calls for other
patterns may abort, and then there is no result at all. -/
def Included (path : String) (patterns : List String) : Prop :=
  ∃ pattern ∈ patterns, patternMatches path pattern = some true ∧ hasPrefix pattern "!" = false

/-- Some negative pattern matches the path. -/
def Excluded (path : String) (patterns : List String) : Prop :=
  ∃ pattern ∈ patterns, patternMatches path pattern = some true ∧ hasPrefix pattern "!" = true

variable {paths patterns matched expanded : List String} {path pattern : String} {dot : Bool}

theorem included_cons : Included path (pattern :: patterns) ↔
    patternMatches path pattern = some true ∧ hasPrefix pattern "!" = false ∨
      Included path patterns := by
  simp [Included]

theorem excluded_cons : Excluded path (pattern :: patterns) ↔
    patternMatches path pattern = some true ∧ hasPrefix pattern "!" = true ∨
      Excluded path patterns := by
  simp [Excluded]

/-- Every pattern is compared with the path, whatever the flags are. -/
theorem exists_includedExcluded {included excluded : Bool} :
    (∃ flags, includedExcluded path included excluded patterns = some flags) ↔
      ∀ pattern ∈ patterns, patternMatches path pattern ≠ none := by
  induction patterns generalizing included excluded with
  | nil => exact iff_of_true ⟨_, rfl⟩ nofun
  | cons pattern patterns ih =>
      rw [List.forall_mem_cons, includedExcluded]
      cases hmatched : patternMatches path pattern with
      | none => simp
      | some matched =>
          simp only [Option.bind_eq_bind, Option.bind_some]
          split_ifs <;> simp [ih]

/-- What the flags say at the end of the loop. -/
theorem includedExcluded_flags {included excluded : Bool} {flags : Bool × Bool}
    (h : includedExcluded path included excluded patterns = some flags) :
    (flags.1 = true ↔ included = true ∨ Included path patterns) ∧
      (flags.2 = true ↔ excluded = true ∨ Excluded path patterns) := by
  induction patterns generalizing included excluded with
  | nil =>
      obtain rfl := Option.some.inj h
      simp [Included, Excluded]
  | cons pattern patterns ih =>
      obtain ⟨matched, hmatched, h⟩ := Option.bind_eq_some_iff.mp h
      rw [included_cons, excluded_cons, hmatched]
      cases hmark : hasPrefix pattern "!" with
      | true =>
          rw [if_pos hmark] at h
          rw [(ih h).1, (ih h).2]
          cases matched <;> simp
      | false =>
          rw [if_neg (Bool.eq_false_iff.mp hmark)] at h
          rw [(ih h).1, (ih h).2]
          cases matched <;> simp

theorem exists_expandFrom :
    (∃ expanded, expandFrom patterns matched paths = some expanded) ↔
      ∀ path ∈ paths, ∀ pattern ∈ patterns, patternMatches path pattern ≠ none := by
  induction paths generalizing matched with
  | nil => exact iff_of_true ⟨matched, rfl⟩ nofun
  | cons path paths ih =>
      rw [List.forall_mem_cons, ← exists_includedExcluded, expandFrom]
      constructor
      · rintro ⟨expanded, h⟩
        obtain ⟨flags, hflags, h⟩ := Option.bind_eq_some_iff.mp h
        exact ⟨⟨flags, hflags⟩, ih.mp ⟨expanded, h⟩⟩
      · rintro ⟨⟨flags, hflags⟩, hrest⟩
        exact exists_bind hflags (ih.mpr hrest)

/-- Each path that is let through is added once. -/
theorem expandFrom_adds (h : expandFrom patterns matched paths = some expanded)
    (hnodup : matched.Nodup) :
    expanded.Nodup ∧ ∀ path, path ∈ expanded ↔
      path ∈ matched ∨ path ∈ paths ∧ Included path patterns ∧ ¬ Excluded path patterns := by
  induction paths generalizing matched with
  | nil =>
      obtain rfl := Option.some.inj h
      exact ⟨hnodup, fun path => by simp⟩
  | cons first paths ih =>
      obtain ⟨⟨included, excluded⟩, hflags, h⟩ := Option.bind_eq_some_iff.mp h
      obtain ⟨hincluded, hexcluded⟩ := includedExcluded_flags hflags
      have hthrough : (included && !excluded) = true ↔
          Included first patterns ∧ ¬ Excluded first patterns := by
        simp only [Bool.false_eq_true, false_or] at hincluded hexcluded
        rw [Bool.and_eq_true, Bool.not_eq_true', ← Bool.not_eq_true, hincluded, hexcluded]
      obtain ⟨hexpanded, hmem⟩ := ih h (Keyed.nodup_push hnodup)
      refine ⟨hexpanded, fun path => ?_⟩
      rw [hmem, Keyed.mem_push, hthrough, List.mem_cons, or_assoc, or_and_right]
      have hfirst : path = first ∧ (Included first patterns ∧ ¬ Excluded first patterns) ↔
          path = first ∧ (Included path patterns ∧ ¬ Excluded path patterns) :=
        and_congr_right fun heq => by rw [heq]
      rw [hfirst]

theorem exists_expandGlobsWithOptions :
    (∃ expanded, expandGlobsWithOptions paths patterns dot = some expanded) ↔
      ∀ path ∈ paths, ∀ pattern ∈ patterns, patternMatches path pattern ≠ none := by
  rw [← @exists_expandFrom _ _ [], expandGlobsWithOptions, expandGlobs]
  cases expandFrom patterns [] paths <;> simp

theorem expandGlobsWithOptions_mem (h : expandGlobsWithOptions paths patterns dot = some expanded) :
    expanded.Nodup ∧ ∀ path, path ∈ expanded ↔
      (path ∈ paths ∧ Included path patterns ∧ ¬ Excluded path patterns) ∧
        (dot || !pathHasDotSegment path) = true := by
  obtain ⟨matched, hmatched, h⟩ := Option.bind_eq_some_iff.mp h
  obtain rfl := Option.some.inj h
  obtain ⟨hnodup, hmem⟩ := expandFrom_adds hmatched List.nodup_nil
  refine ⟨hnodup.filter _, fun path => ?_⟩
  rw [List.mem_filter, hmem]
  simp

end Mulp.Platform.Sliced
