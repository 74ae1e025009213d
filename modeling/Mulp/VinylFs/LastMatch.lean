import Mulp.Lib.KeyedList
import Mulp.Lib.Trace
import Mulp.Platform.Sliced
import Mulp.VinylFs.Select

/-! Globs select in order, and the last one that matches a path decides
(`vinyl_fs/glob_stream.mbt`). A call of `glob_matches` can abort. -/
namespace Mulp.VinylFs.Sliced

open Mulp.Text

/-! ## `select_glob_stream_paths` -/

def pathMatchesGlobOption (path pattern : String) (dot : Bool) : Option Bool :=
  if dot || !pathHasDotSegment path then Platform.Sliced.globMatches pattern path else some false

def removeMatching (pattern : String) (dot : Bool) : List String → Option (List String)
  | [] => some []
  | path :: selected => do
      let matched ← pathMatchesGlobOption path pattern dot
      let next ← removeMatching pattern dot selected
      some (if !matched then path :: next else next)

/-- The loop of `ordered_glob_paths` over the paths, for a glob. -/
def addMatching (glob : String) (dot : Bool) (selected : List String) : List String → Option (List String)
  | [] => some selected
  | path :: paths => do
      let matched ← pathMatchesGlobOption path glob dot
      addMatching glob dot (if matched && path ∉ selected then selected ++ [path] else selected) paths

/-- The turn of `ordered_glob_paths` for a glob: a positive one adds the paths that it matches and
that are not there yet, a negative one removes those that it matches. -/
def selectGlob (paths : List String) (dot : Bool) (selected : List String) (glob : String) :
    Option (List String) :=
  if hasPrefix glob "!" then do
    let pattern ← slice glob 1 (unitLength glob)
    removeMatching pattern dot selected
  else addMatching glob dot selected paths

/-- The loop of `ordered_glob_paths` over the globs. -/
def orderedGlobPaths (paths : List String) (dot : Bool) (selected : List String) : List String → Option (List String)
  | [] => some selected
  | glob :: globs => do
      let selected ← selectGlob paths dot selected glob
      orderedGlobPaths paths dot selected globs

def selectGlobStreamPaths (paths globs : List String) (dot : Bool) : Option (List String) :=
  orderedGlobPaths paths dot [] globs

/-! ## What a glob says -/

/-- The pattern of a glob, which follows the mark of a negative one. -/
def patternOf (glob : String) : String :=
  if hasPrefix glob "!" then String.ofList (glob.toList.drop 1) else glob

/-- The glob matches the path under the dot option. A glob that begins with an exclamation mark is a
negative one of the glob behind it. -/
def Matches (dot : Bool) (path glob : String) : Prop :=
  pathMatchesGlobOption path (patternOf glob) dot = some true

/-- The call of `glob_matches` for the path returns. -/
def Returns (dot : Bool) (path glob : String) : Prop :=
  pathMatchesGlobOption path (patternOf glob) dot ≠ none

instance (dot : Bool) (path glob : String) : Decidable (Matches dot path glob) :=
  inferInstanceAs (Decidable (_ = _))

/-- Some glob matches the path, and the last one that does is positive. As a property of the list of
globs it is that of a trace: since the last match that was positive none was negative. -/
def Chosen (dot : Bool) (path : String) (globs : List String) : Prop :=
  Trace.Since (fun _ glob => Matches dot path glob ∧ hasPrefix glob "!" = false)
    (fun glob => Matches dot path glob) globs

/-- The selection has each path once, and those whose last matching glob is positive. In which order
they come is left open. -/
structure Selection (paths : List String) (dot : Bool) (globs selected : List String) : Prop where
  nodup : selected.Nodup
  mem : ∀ path, path ∈ selected ↔ path ∈ paths ∧ Chosen dot path globs

variable {paths globs selected next : List String} {dot : Bool} {path glob : String}

theorem chosen_concat : Chosen dot path (globs ++ [glob]) ↔
    Matches dot path glob ∧ hasPrefix glob "!" = false ∨
      ¬ Matches dot path glob ∧ Chosen dot path globs :=
  Trace.since_concat glob

theorem selection_nil : Selection paths dot [] [] := by
  refine ⟨List.nodup_nil, fun path => iff_of_false List.not_mem_nil ?_⟩
  exact fun h => Trace.not_since_nil h.2

/-! ## What a turn does -/

theorem exists_removeMatching {pattern : String} :
    (∃ next, removeMatching pattern dot selected = some next) ↔
      ∀ path ∈ selected, pathMatchesGlobOption path pattern dot ≠ none := by
  induction selected with
  | nil => exact iff_of_true ⟨[], rfl⟩ nofun
  | cons path rest ih =>
      rw [List.forall_mem_cons, ← ih, removeMatching]
      constructor
      · rintro ⟨next, h⟩
        obtain ⟨matched, hmatched, h⟩ := Option.bind_eq_some_iff.mp h
        obtain ⟨others, hothers, -⟩ := Option.bind_eq_some_iff.mp h
        exact ⟨by simp [hmatched], others, hothers⟩
      · rintro ⟨hreturns, others, hothers⟩
        obtain ⟨matched, hmatched⟩ := Option.ne_none_iff_exists'.mp hreturns
        refine exists_bind hmatched (exists_bind hothers ⟨_, rfl⟩)

theorem eq_of_removeMatching {pattern : String}
    (h : removeMatching pattern dot selected = some next) :
    next = selected.filter fun path => ¬ pathMatchesGlobOption path pattern dot = some true := by
  induction selected generalizing next with
  | nil => exact (Option.some.inj h).symm
  | cons path rest ih =>
      obtain ⟨matched, hmatched, h⟩ := Option.bind_eq_some_iff.mp h
      obtain ⟨others, hothers, h⟩ := Option.bind_eq_some_iff.mp h
      rw [List.filter_cons, ← ih hothers, hmatched, ← Option.some.inj h]
      cases matched <;> rfl

theorem exists_addMatching :
    (∃ next, addMatching glob dot selected paths = some next) ↔
      ∀ path ∈ paths, pathMatchesGlobOption path glob dot ≠ none := by
  induction paths generalizing selected with
  | nil => exact iff_of_true ⟨selected, rfl⟩ nofun
  | cons path rest ih =>
      rw [List.forall_mem_cons, addMatching]
      constructor
      · rintro ⟨next, h⟩
        obtain ⟨matched, hmatched, h⟩ := Option.bind_eq_some_iff.mp h
        exact ⟨by simp [hmatched], ih.mp ⟨next, h⟩⟩
      · rintro ⟨hreturns, hrest⟩
        obtain ⟨matched, hmatched⟩ := Option.ne_none_iff_exists'.mp hreturns
        exact exists_bind hmatched (ih.mpr hrest)

/-- What is matched is added once. -/
theorem addMatching_adds (h : addMatching glob dot selected paths = some next)
    (hnodup : selected.Nodup) :
    next.Nodup ∧ ∀ path, path ∈ next ↔
      path ∈ selected ∨ path ∈ paths ∧ pathMatchesGlobOption path glob dot = some true := by
  induction paths generalizing selected with
  | nil =>
      obtain rfl := Option.some.inj h
      exact ⟨hnodup, fun path => by simp⟩
  | cons first rest ih =>
      obtain ⟨matched, hmatched, h⟩ := Option.bind_eq_some_iff.mp h
      obtain ⟨hnext, hmem⟩ := ih h (Keyed.nodup_push hnodup)
      refine ⟨hnext, fun path => ?_⟩
      have hfirst : path = first ∧ matched = true ↔
          path = first ∧ pathMatchesGlobOption path glob dot = some true :=
        and_congr_right fun heq => by rw [heq, hmatched, Option.some.injEq]
      rw [hmem, Keyed.mem_push, hfirst, List.mem_cons, or_assoc, or_and_right]

/-- The slice behind the mark does not abort. -/
theorem slice_mark (h : hasPrefix glob "!" = true) :
    slice glob 1 (unitLength glob) = some (patternOf glob) := by
  obtain ⟨rest, rfl⟩ := hasPrefix_iff.mp h
  have hdrop : String.ofList (("!" ++ rest).toList.drop 1) = rest := by simp
  rw [patternOf, if_pos h, hdrop]
  exact slice_eq_some_iff.mpr ⟨"!", "", by rw [String.append_empty], rfl, rfl⟩

/-- The calls of `glob_matches` in a turn: for the selected paths if the glob is negative, for
all of them if it is not. -/
theorem exists_selectGlob :
    (∃ next, selectGlob paths dot selected glob = some next) ↔
      ∀ path ∈ if hasPrefix glob "!" then selected else paths, Returns dot path glob := by
  rw [selectGlob]
  split_ifs with hmark
  · rw [slice_mark hmark, Option.bind_eq_bind, Option.bind_some]
    exact exists_removeMatching
  · have hpattern : patternOf glob = glob := if_neg hmark
    simp only [Returns, hpattern]
    exact exists_addMatching

/-- A turn keeps the selection. -/
theorem Selection.turn (h : Selection paths dot globs selected)
    (hturn : selectGlob paths dot selected glob = some next) :
    Selection paths dot (globs ++ [glob]) next := by
  rw [selectGlob] at hturn
  split_ifs at hturn with hmark
  · rw [slice_mark hmark, Option.bind_eq_bind, Option.bind_some] at hturn
    obtain rfl := eq_of_removeMatching hturn
    refine ⟨h.nodup.filter _, fun path => ?_⟩
    rw [List.mem_filter, h.mem, chosen_concat, decide_eq_true_eq, hmark]
    constructor
    · rintro ⟨⟨hpath, hchosen⟩, hnot⟩
      exact ⟨hpath, .inr ⟨hnot, hchosen⟩⟩
    · rintro ⟨hpath, ⟨-, hpositive⟩ | ⟨hnot, hchosen⟩⟩
      · cases hpositive
      · exact ⟨⟨hpath, hchosen⟩, hnot⟩
  · have hpattern : patternOf glob = glob := if_neg hmark
    obtain ⟨hnodup, hmem⟩ := addMatching_adds hturn h.nodup
    refine ⟨hnodup, fun path => ?_⟩
    rw [hmem, h.mem, chosen_concat, Matches, hpattern, and_iff_left (Bool.eq_false_iff.mpr hmark)]
    by_cases hmatch : pathMatchesGlobOption path glob dot = some true
    · simp only [hmatch, and_true, not_true, false_and, or_false]
      exact ⟨fun hpath => hpath.elim And.left id, .inr⟩
    · simp [hmatch]

/-! ## A whole run -/

/-- The calls of `glob_matches` that the globs lead to return; the earlier globs have been looked at
already. A negative glob is only asked about the paths that are selected at that point. -/
def AllReturn (paths : List String) (dot : Bool) (earlier globs : List String) : Prop :=
  ∀ before glob after, globs = before ++ glob :: after → ∀ path ∈ paths,
    (hasPrefix glob "!" = true → Chosen dot path (earlier ++ before)) → Returns dot path glob

theorem allReturn_cons {earlier : List String} :
    AllReturn paths dot earlier (glob :: globs) ↔
      (∀ path ∈ paths, (hasPrefix glob "!" = true → Chosen dot path earlier) →
        Returns dot path glob) ∧
        AllReturn paths dot (earlier ++ [glob]) globs := by
  constructor
  · intro h
    refine ⟨fun path hpath hchosen => ?_, fun before next after hglobs path hpath hchosen => ?_⟩
    · exact h [] glob globs rfl path hpath (by rwa [List.append_nil])
    · refine h (glob :: before) next after (by rw [hglobs]; rfl) path hpath ?_
      rwa [List.append_cons]
  · rintro ⟨hfirst, hrest⟩ before next after hglobs path hpath hchosen
    cases before with
    | nil =>
        obtain ⟨rfl, rfl⟩ := List.cons.inj hglobs
        rw [List.append_nil] at hchosen
        exact hfirst path hpath hchosen
    | cons first before =>
        obtain ⟨rfl, hglobs'⟩ := List.cons.inj hglobs
        rw [List.append_cons] at hchosen
        exact hrest before next after hglobs' path hpath hchosen

theorem isBmp_patternOf (h : IsBmp glob) : IsBmp (patternOf glob) := by
  rw [patternOf]
  split_ifs
  · exact h.of_subset (by rw [String.toList_ofList]; exact List.drop_subset 1 glob.toList)
  · exact h

/-- Without pairs they all do. -/
theorem allReturn_of_isBmp (hpaths : ∀ path ∈ paths, IsBmp path)
    (hglobs : ∀ glob ∈ globs, IsBmp glob) (earlier : List String) :
    AllReturn paths dot earlier globs := by
  rintro before glob after rfl path hpath -
  have hglob := hglobs glob (List.mem_append_right before List.mem_cons_self)
  have hpattern := isBmp_patternOf hglob
  rw [Returns, pathMatchesGlobOption]
  split_ifs
  · rw [Platform.Sliced.globMatches_eq hpattern (hpaths path hpath)]
    exact Option.some_ne_none _
  · exact Option.some_ne_none _

/-- A run that returns keeps the selection. -/
theorem Selection.run {earlier : List String} (h : Selection paths dot earlier selected)
    (hrun : orderedGlobPaths paths dot selected globs = some next) :
    Selection paths dot (earlier ++ globs) next := by
  induction globs generalizing earlier selected with
  | nil =>
      obtain rfl := Option.some.inj hrun
      rwa [List.append_nil]
  | cons glob globs ih =>
      obtain ⟨turned, hturned, hrun⟩ := Option.bind_eq_some_iff.mp hrun
      rw [List.append_cons]
      exact ih (h.turn hturned) hrun

theorem exists_orderedGlobPaths {earlier : List String} (h : Selection paths dot earlier selected) :
    (∃ next, orderedGlobPaths paths dot selected globs = some next) ↔
      AllReturn paths dot earlier globs := by
  induction globs generalizing earlier selected with
  | nil =>
      refine iff_of_true ⟨selected, rfl⟩ fun before glob after hglobs => ?_
      cases before <;> cases hglobs
  | cons glob globs ih =>
      have hturn : (∃ next, selectGlob paths dot selected glob = some next) ↔
          ∀ path ∈ paths, (hasPrefix glob "!" = true → Chosen dot path earlier) →
          Returns dot path glob := by
        rw [exists_selectGlob]
        split_ifs with hmark
        · simp only [h.mem, hmark, true_implies, and_imp]
        · simp only [hmark, Bool.false_eq_true, false_implies, true_implies]
      rw [allReturn_cons, ← hturn]
      constructor
      · rintro ⟨next, hrun⟩
        obtain ⟨turned, hturned, hrun⟩ := Option.bind_eq_some_iff.mp hrun
        exact ⟨⟨turned, hturned⟩, (ih (h.turn hturned)).mp ⟨next, hrun⟩⟩
      · rintro ⟨⟨turned, hturned⟩, hrest⟩
        exact exists_bind hturned ((ih (h.turn hturned)).mpr hrest)

/-- The function returns each given path once whose last matching glob is positive, exactly
when the calls of `glob_matches` that it makes return: for a positive glob those for every
path, for a negative one those for the paths selected by the globs before it. -/
theorem selection_iff (paths globs : List String) (dot : Bool) :
    (∃ selected, selectGlobStreamPaths paths globs dot = some selected ∧ Selection paths dot globs selected) ↔
      AllReturn paths dot [] globs := by
  rw [← exists_orderedGlobPaths selection_nil]
  constructor
  · rintro ⟨selected, hselected, -⟩
    exact ⟨selected, hselected⟩
  · rintro ⟨selected, hselected⟩
    exact ⟨selected, hselected, selection_nil.run hselected⟩

/-- A glob that is compared with the first unit of a pair. -/
theorem not_selection_pair :
    ¬ ∀ paths globs dot, ∃ selected, selectGlobStreamPaths paths globs dot = some selected ∧
      Selection paths dot globs selected := by
  intro h
  obtain ⟨selected, hselected, -⟩ := h ["😀"] ["a"] true
  have hsegment : Platform.Sliced.segmentMatches "a" "😀" 0 0 = none := by
    have hpart : slice "a" 0 (0 + 1) = some "a" := by decide
    rw [Platform.Sliced.segmentMatches_unit (by decide) hpart (by decide), if_pos (by decide)]
    rfl
  have hmatch : Platform.Sliced.globMatches "a" "😀" = none := by
    have hpattern : Platform.nonEmptySegments "a" = ["a"] := by decide
    have hpath : Platform.nonEmptySegments "😀" = ["😀"] := by decide
    rw [Platform.Sliced.globMatches, hpattern, hpath, Platform.Sliced.pathSegmentsMatch,
      if_neg (by decide)]
    simp only [hsegment]
  have hnone : pathMatchesGlobOption "😀" "a" true = none := hmatch
  rw [selectGlobStreamPaths, orderedGlobPaths, selectGlob, if_neg (by decide), addMatching,
    hnone] at hselected
  cases hselected

end Mulp.VinylFs.Sliced
