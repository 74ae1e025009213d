import Mulp.Platform.Path

/-! Glob patterns (`platform/glob.mbt`).

The recursion of the source goes over indices of code units; here it goes over what is
left of the texts. `Sliced` has the version with slices and shows that the two agree
where no slice aborts. -/
namespace Mulp.Platform

/-- `segment_matches` from two indices on. A star tries the rests of the value one
after the other. -/
def segmentMatches : List Char → List Char → Bool
  | [], value => value.isEmpty
  | '*' :: pattern, value => value.tails.any (segmentMatches pattern)
  | c :: pattern, d :: value => c = d && segmentMatches pattern value
  | _ :: _, [] => false

section Plain

variable {c : Char} (pattern : List Char)

theorem segmentMatches_nil (hc : c ≠ '*') : segmentMatches (c :: pattern) [] = false := by
  rw [segmentMatches]
  exact hc

theorem segmentMatches_cons (hc : c ≠ '*') (d : Char) (value : List Char) :
    segmentMatches (c :: pattern) (d :: value) = (c = d && segmentMatches pattern value) := by
  rw [segmentMatches]
  exact hc

end Plain

/-- `path_segments_match` from two indices on. -/
def pathSegmentsMatch : List String → List String → Bool
  | [], path => path.isEmpty
  | part :: pattern, path =>
      if part = "**" then path.tails.any (pathSegmentsMatch pattern)
      else
        match path with
        | [] => false
        | segment :: path => segmentMatches part.toList segment.toList && pathSegmentsMatch pattern path

def globMatches (pattern path : String) : Bool :=
  pathSegmentsMatch (nonEmptySegments pattern) (nonEmptySegments path)

end Mulp.Platform
