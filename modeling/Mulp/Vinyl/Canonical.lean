import Mulp.Vinyl.Sliced

/-! What `normalize_path` makes of a path (`vinyl/file.mbt`): the fast path and the
slow one agree, and the result is the canonical spelling of the same place. -/
namespace Mulp.Vinyl

open Mulp.Text Lexical

/-! ## Canonical paths -/

/-- A canonical path: names between single slashes, after `..` in a relative one. -/
inductive Canonical : String → Prop where
  | empty : Canonical ""
  | root : Canonical "/"
  | here : Canonical "."
  | absolute {names : List String} (hne : names ≠ []) (hnames : ∀ name ∈ names, IsName name) :
      Canonical ("/" ++ joinSlash names)
  | relative {ups : Nat} {names : List String} (hne : List.replicate ups ".." ++ names ≠ [])
      (hnames : ∀ name ∈ names, IsName name) : Canonical (joinSlash (List.replicate ups ".." ++ names))

theorem canonical_text {l : Location} (h : l.Proper) : Canonical l.text := by
  obtain ⟨rooted, ups, names⟩ := l
  cases rooted with
  | true =>
      -- nothing is above the root
      obtain rfl : ups = 0 := h.rooted rfl
      simp only [Location.text, Location.parts, List.replicate_zero, List.nil_append, if_true]
      by_cases hne : names = []
      · rw [hne]
        exact .root
      · exact .absolute hne h.names
  | false =>
      rw [Location.text, if_neg Bool.false_ne_true]
      by_cases hnil : Location.parts ⟨ups, names⟩ = []
      · rw [if_pos hnil]
        exact .here
      · rw [if_neg hnil]
        exact .relative hnil h.names

theorem canonical_normalizePath (value : String) : Canonical (normalizePath value) := by
  by_cases h : value = ""
  · rw [h]
    exact .empty
  · rw [normalizePath_eq h]
    exact canonical_text (location_proper value)

/-! ## Where a path leads -/

/-- From a directory, given by its names from the root down, along a segment. -/
def descend (stack : List String) (segment : String) : List String :=
  if segment = "" ∨ segment = "." then stack
  else if segment = ".." then stack.dropLast
  else stack ++ [segment]

/-- The directory that the path leads to from another one. -/
def destination (start : List String) (path : String) : List String :=
  (splitSlash path).foldl descend (if hasPrefix path "/" then [] else start)

theorem descend_eq (stack : List String) (segment : String) :
    descend stack segment = (Pos.step true ⟨0, stack⟩ (stepOf segment)).names := by
  rw [descend, stepOf]
  split_ifs
  · rfl
  · cases stack <;> rfl
  · rfl

theorem foldl_descend (stack : List String) (segments : List String) :
    segments.foldl descend stack = (Pos.walk true ⟨0, stack⟩ (segments.map stepOf)).names := by
  induction segments generalizing stack with
  | nil => rfl
  | cons segment rest ih =>
      have hstep : Pos.step true ⟨0, stack⟩ (stepOf segment) = ⟨0, descend stack segment⟩ := by
        have hups := Pos.walk_rooted ⟨0, stack⟩ [stepOf segment]
        rw [Pos.walk_cons, Pos.walk_nil] at hups
        rw [descend_eq, Pos.mk.injEq]
        exact ⟨hups, rfl⟩
      rw [List.foldl_cons, ih, List.map_cons, Pos.walk_cons, hstep]

/-- Where a path leads depends on its location only. -/
theorem destination_eq (start : List String) (path : String) :
    destination start path =
      (Pos.walk true ⟨0,
        if (location path).rooted then [] else start⟩ (location path).pos.steps).names := by
  have hrooted : (location path).rooted = hasPrefix path "/" := rfl
  rw [destination, foldl_descend, hrooted]
  cases habsolute : hasPrefix path "/" with
  | true =>
      have hpos : (location path).pos = Pos.start.walk true ((splitSlash path).map stepOf) := by
        rw [location, habsolute]
      have hups := (location_proper path).rooted (hrooted.trans habsolute)
      have hsteps := @Pos.walk_steps _ true (location path).pos fun _ => hups
      have hstart : (⟨0, []⟩ : Pos String) = Pos.start := rfl
      rw [if_pos rfl, hstart, hsteps, hpos]
  | false =>
      have hpos : (location path).pos = Pos.start.walk false ((splitSlash path).map stepOf) := by
        rw [location, habsolute]
      rw [if_neg Bool.false_ne_true, hpos, Pos.walk_start_steps]

theorem destination_normalizePath (start : List String) (path : String) :
    destination start (normalizePath path) = destination start path := by
  rw [destination_eq, destination_eq, location_normalizePath]

/-! ## The two paths of the code -/

namespace Sliced

/-- What `normalize_path` does with a path that the scan does not accept. -/
def splitAndJoin (value : String) : Option String :=
  let absolute := hasPrefix value "/"
  let joined := joinSlash ((splitSlash value).foldl (pushPart absolute) [])
  if absolute then
    if joined = "" then some "/" else some ("/" ++ joined)
  else if joined = "" then some "."
  else trimTrailingSlash joined

theorem normalizePath_split (value : String) :
    normalizePath value =
      if value = "" then some ""
      else (trimTrailingSlash value).bind fun trimmed => (pathNeedsNormalize trimmed).bind
        fun needs =>
        if !needs then some trimmed else splitAndJoin value := rfl

/-- `normalize_path` is a canonicaliser, and where it returns early it would not have come to
anything else. The canonical spelling is that of a place, told by where a walk along the segments
ends, from any directory: two paths get the same one if they lead to the same place from everywhere.
-/
structure Canonicalises (path : String) : Prop where
  fast : ∀ trimmed, trimTrailingSlash path = some trimmed → pathNeedsNormalize trimmed = some false →
    splitAndJoin path = some trimmed
  result : ∃ normalized, normalizePath path = some normalized ∧
    normalizePath normalized = some normalized ∧ Canonical normalized ∧
    (normalized = "" ↔ path = "") ∧
    ∀ start, destination start normalized = destination start path

theorem splitAndJoin_eq {path : String} (hne : path ≠ "") :
    splitAndJoin path = some (Vinyl.normalizePath path) := by
  have hparts := Location.parts_noSlash (location_proper path).names
  have hempty := joinSlash_eq_empty fun part hpart => (hparts part hpart).2
  have hrooted : (location path).rooted = hasPrefix path "/" := rfl
  rw [splitAndJoin, trimTrailingSlash_eq, resolved_parts, Vinyl.normalizePath_eq hne,
    trimTrailingSlash_joinSlash hparts]
  simp only [Location.text, hrooted, hempty]
  split_ifs with habsolute hnil
  · rw [hnil]
    rfl
  · rfl
  · rfl
  · rfl

theorem canonicalises (path : String) (h : IsBmp path) : Canonicalises path := by
  constructor
  · intro trimmed htrimmed hneeds
    have hne : path ≠ "" := by
      rintro rfl
      cases htrimmed
      cases hneeds
    have hearly : normalizePath path = some trimmed := by
      rw [normalizePath_split, if_neg hne, htrimmed, Option.bind_some, hneeds]
      rfl
    rw [splitAndJoin_eq hne, ← normalizePath_eq h, hearly]
  · refine ⟨_, normalizePath_eq h, ?_, canonical_normalizePath path, normalizePath_eq_empty,
      fun start => destination_normalizePath start path⟩
    rw [normalizePath_eq (isBmp_normalizePath h), normalizePath_idem]

theorem canonicalises_dots : Canonicalises "../a//./b/../c/" := canonicalises _ (by decide)

end Sliced

end Mulp.Vinyl
