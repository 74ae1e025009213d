import Mulp.Platform.Glob
import Mulp.Text.Substring

/-! The paths and patterns of the platforms with the slices that the source takes of
them (`platform/path.mbt`, `platform/glob.mbt`).

A slice that would cut a character in half aborts, and then the whole call does. Each
function has its name and agrees, where it returns, with the one on characters; when it
returns is a lemma of its own. -/
namespace Mulp.Platform.Sliced

open Mulp.Text

variable {value : String}

/-! ## `paths_equal` -/

def upperAsciiLetter (value : String) : String :=
  match value.toList with
  | [c] => String.ofList [c.toUpper]
  | _ => value

def lowerAsciiLetter (value : String) : String :=
  match value.toList with
  | [c] => String.ofList [c.toLower]
  | _ => value

/-- The loop of `lower_ascii`, for `n` more indices. -/
def lowerAsciiFrom (value : String) (index : Nat) : Nat → Option (List String)
  | 0 => some []
  | n + 1 => do
      let part ← slice value index (index + 1)
      let parts ← lowerAsciiFrom value (index + 1) n
      some (lowerAsciiLetter part :: parts)

def lowerAscii (value : String) : Option String := do
  let parts ← lowerAsciiFrom value 0 (unitLength value)
  some ("".intercalate parts)

def normalizePlatformPath (platform : PlatformKind) (path : String) : Option String :=
  match platform with
  | .windows => do
      let raw := slashSeparated path
      let hasDrive ← if unitLength raw ≥ 2 then (slice raw 1 2).map (· == ":") else some false
      if hasDrive then
        let letter ← slice raw 0 1
        let drive := upperAsciiLetter letter ++ ":"
        let rest ← slice raw 2 (unitLength raw)
        let collapsed := collapseSlashes rest false
        if collapsed = "" then some (drive ++ "/") else some (drive ++ "/" ++ collapsed)
      else some (collapseSlashes raw (hasPrefix raw "/"))
  | .macOS => some (collapseSlashes path (hasPrefix path "/"))
  | .linux => some (collapseSlashes path (hasPrefix path "/"))

def pathsEqual (platform : PlatformKind) (left right : String) : Option Bool := do
  let left ← normalizePlatformPath platform left
  let right ← normalizePlatformPath platform right
  match platform with
  | .linux => some (left = right)
  | .macOS => do
      let left ← lowerAscii left
      let right ← lowerAscii right
      some (left = right)
  | .windows => do
      let left ← lowerAscii left
      let right ← lowerAscii right
      some (left = right)

theorem lowerAsciiFrom_eq (h : IsBmp value) {index n : Nat} (hn : index + n = value.toList.length) :
    lowerAsciiFrom value index n =
      some ((value.toList.drop index).map fun c => String.ofList [c.toLower]) := by
  induction n generalizing index with
  | zero => rw [lowerAsciiFrom, List.drop_eq_nil_of_le (by omega), List.map_nil]
  | succ n ih =>
      have hindex : index < value.toList.length := by omega
      rw [lowerAsciiFrom, h.slice_one hindex, ih (by omega), List.drop_eq_getElem_cons hindex,
        List.map_cons]
      simp [lowerAsciiLetter]

theorem lowerAscii_eq (h : IsBmp value) : lowerAscii value = some (Platform.lowerAscii value) := by
  have hjoin : "".intercalate (value.toList.map fun c => String.ofList [c.toLower]) =
      Platform.lowerAscii value := by
    have hparts : (value.toList.map fun c => String.ofList [c.toLower]).map String.toList =
        value.toList.map fun c => [c.toLower] := by simp
    have hlower : (Platform.lowerAscii value).toList = value.toList.map Char.toLower :=
      String.toList_ofList
    rw [← String.toList_inj, String.toList_intercalate, hparts, hlower]
    exact (nil_intercalate _).trans List.map_eq_flatMap.symm
  rw [lowerAscii, h.unitLength, lowerAsciiFrom_eq h (Nat.zero_add _), List.drop_zero]
  simp only [Option.bind_eq_bind, Option.bind_some, hjoin]

theorem isBmp_lowerAscii (h : IsBmp value) : IsBmp (Platform.lowerAscii value) := by
  intro d hd
  rw [Platform.lowerAscii, String.toList_ofList] at hd
  obtain ⟨c, hc, rfl⟩ := List.mem_map.mp hd
  have hle := h c hc
  rw [toNat_toLower]
  split_ifs <;> omega

theorem isBmp_slashSeparated (h : IsBmp value) : IsBmp (slashSeparated value) := by
  refine IsBmp.joinSlash fun part hpart => ?_
  obtain ⟨chars, hchars, rfl⟩ := List.mem_map.mp hpart
  exact h.of_mem_splitOn hchars

theorem isBmp_collapseSlashes (h : IsBmp value) (leading : Bool) :
    IsBmp (collapseSlashes value leading) := by
  have hslash : IsBmp "/" := by decide
  have hjoined : IsBmp (joinSlash (nonEmptySegments value)) :=
    IsBmp.joinSlash fun _ hpart => h.of_mem_splitSlash (List.mem_filter.mp hpart).1
  rw [collapseSlashes]
  split_ifs
  · exact hslash
  · exact hslash.append hjoined
  · exact hjoined

/-- On Windows: a drive is looked for in the first two characters. -/
theorem normalizeWindows_eq (h : IsBmp value) :
    normalizePlatformPath .windows value =
      some (Platform.normalizePlatformPath .windows value) := by
  have hraw := isBmp_slashSeparated h
  rw [normalizePlatformPath, Platform.normalizePlatformPath]
  dsimp only
  generalize slashSeparated value = raw at hraw
  rw [hraw.unitLength]
  rcases hchars : raw.toList with _ | ⟨a, _ | ⟨b, rest⟩⟩
  · rfl
  · rfl
  · have hlength : 2 ≤ raw.toList.length := by simp [hchars]
    have hsecond : slice raw 1 2 = some (String.ofList [b]) := by
      rw [hraw.slice (by decide) hlength, hchars]
      rfl
    have hfirst : slice raw 0 1 = some (String.ofList [a]) := by
      rw [hraw.slice (by decide) (Nat.le_of_succ_le hlength), hchars]
      rfl
    have hrest : slice raw 2 raw.toList.length = some (String.ofList rest) := by
      rw [hraw.slice hlength (Nat.le_refl _), List.take_length, hchars]
      rfl
    have hletter : upperAsciiLetter (String.ofList [a]) = String.ofList [a.toUpper] := by
      simp [upperAsciiLetter]
    rw [hchars] at hlength hrest
    simp only [hfirst, hsecond, hrest, hletter, Option.bind_eq_bind, Option.bind_some,
      Option.map_some]
    rw [if_pos hlength]
    by_cases hb : b = ':'
    · subst hb
      rw [if_pos (by decide)]
      exact (apply_ite some _ _ _).symm
    · have hcolon : (String.ofList [b] == ":") = false := by
        rw [beq_eq_false_iff_ne, ne_eq, ← String.toList_inj, String.toList_ofList]
        simpa using hb
      rw [hcolon, if_neg Bool.false_ne_true]
      split
      · rename_i heq
        exact absurd (List.cons.inj (List.cons.inj heq).2).1 hb
      · rfl

theorem normalizePlatformPath_eq (h : IsBmp value) (platform : PlatformKind) :
    normalizePlatformPath platform value =
      some (Platform.normalizePlatformPath platform value) := by
  cases platform with
  | windows => exact normalizeWindows_eq h
  | macOS => rfl
  | linux => rfl

theorem isBmp_toUpper {c : Char} (h : c.toNat ≤ 0xFFFF) : IsBmp (String.ofList [c.toUpper]) := by
  intro d hd
  rw [String.toList_ofList, List.mem_singleton] at hd
  rw [hd, toNat_toUpper]
  split_ifs <;> omega

theorem isBmp_normalizePlatformPath (h : IsBmp value) (platform : PlatformKind) :
    IsBmp (Platform.normalizePlatformPath platform value) := by
  have hraw := isBmp_slashSeparated h
  have hcolon : IsBmp ":" := by decide
  have hslash : IsBmp "/" := by decide
  cases platform with
  | windows =>
      rw [Platform.normalizePlatformPath]
      dsimp only
      split
      · rename_i c rest hchars
        have hc : c.toNat ≤ 0xFFFF := hraw c (by simp [hchars])
        have hrest : IsBmp (String.ofList rest) := hraw.of_subset (by
          rw [hchars, String.toList_ofList]
          exact List.subset_cons_of_subset _ (List.subset_cons_self _ _))
        have hdrive := ((isBmp_toUpper hc).append hcolon).append hslash
        split_ifs
        · exact hdrive
        · exact hdrive.append (isBmp_collapseSlashes hrest false)
      · exact isBmp_collapseSlashes hraw _
  | macOS => exact isBmp_collapseSlashes h _
  | linux => exact isBmp_collapseSlashes h _

theorem pathsEqual_eq {left right : String} (hleft : IsBmp left) (hright : IsBmp right)
    (platform : PlatformKind) :
    pathsEqual platform left right = some (Platform.pathsEqual platform left right) := by
  have hlowerLeft := lowerAscii_eq (isBmp_normalizePlatformPath hleft platform)
  have hlowerRight := lowerAscii_eq (isBmp_normalizePlatformPath hright platform)
  rw [pathsEqual, normalizePlatformPath_eq hleft, normalizePlatformPath_eq hright]
  cases platform with
  | linux => rfl
  | macOS =>
      simp only [Option.bind_eq_bind, Option.bind_some, hlowerLeft, hlowerRight]
      rfl
  | windows =>
      simp only [Option.bind_eq_bind, Option.bind_some, hlowerLeft, hlowerRight]
      rfl

/-! ### Where they return -/

/-- Each unit is taken, so that there is no pair. -/
theorem slicesFrom_of_lowerAsciiFrom {index n : Nat} {lowered : List String}
    (h : lowerAsciiFrom value index n = some lowered) :
    ∃ parts, slicesFrom (units value) index n = some parts := by
  induction n generalizing index lowered with
  | zero => exact ⟨[], rfl⟩
  | succ n ih =>
      obtain ⟨part, hpart, h⟩ := Option.bind_eq_some_iff.mp h
      obtain ⟨others, hothers, -⟩ := Option.bind_eq_some_iff.mp h
      obtain ⟨cut, hcut, -⟩ := Option.map_eq_some_iff.mp hpart
      obtain ⟨parts, hparts⟩ := ih hothers
      rw [slicesFrom, hcut]
      simp only [hparts, Option.map_some]
      exact ⟨_, rfl⟩

theorem isBmp_of_lowerAscii {lowered : String} (h : lowerAscii value = some lowered) :
    IsBmp value := by
  obtain ⟨parts, hparts, -⟩ := Option.bind_eq_some_iff.mp h
  obtain ⟨cuts, hcuts⟩ := slicesFrom_of_lowerAsciiFrom hparts
  exact plain_units_iff.mp (slices_eq_some_iff.mp hcuts).1

/-- Two slices show that the second character is not part of a pair. -/
theorem eq_of_normalizeWindows {normalized : String}
    (h : normalizePlatformPath .windows value = some normalized) :
    normalized = Platform.normalizePlatformPath .windows value := by
  rw [normalizePlatformPath] at h
  rw [Platform.normalizePlatformPath]
  dsimp only at h ⊢
  generalize slashSeparated value = raw at h
  by_cases hlength : unitLength raw ≥ 2
  · rw [if_pos hlength] at h
    obtain ⟨hasDrive, hdrive, h⟩ := Option.bind_eq_some_iff.mp h
    obtain ⟨second, hsecond, rfl⟩ := Option.map_eq_some_iff.mp hdrive
    obtain ⟨first, rest, rfl, hfirst, hboth⟩ := slice_eq_some_iff.mp hsecond
    rw [unitLength_append, hfirst] at hboth
    obtain ⟨a, rfl⟩ := exists_char_of_unitLength hfirst
    obtain ⟨b, rfl⟩ := exists_char_of_unitLength (Nat.add_left_cancel hboth)
    have hchars : (String.ofList [a] ++ String.ofList [b] ++ rest).toList = a :: b :: rest.toList := by
      simp
    rw [hchars]
    by_cases hb : b = ':'
    · subst hb
      have hletter : slice (String.ofList [a] ++ String.ofList [':'] ++ rest) 0 1 =
          some (String.ofList [a]) := by
        refine slice_eq_some_iff.mpr ⟨"", String.ofList [':'] ++ rest, ?_, rfl, ?_⟩
        · rw [String.empty_append, String.append_assoc]
        · rw [String.empty_append, hfirst]
      have hrest : slice (String.ofList [a] ++ String.ofList [':'] ++ rest) 2
          (unitLength (String.ofList [a] ++ String.ofList [':'] ++ rest)) = some rest := by
        refine slice_eq_some_iff.mpr ⟨String.ofList [a] ++ String.ofList [':'], "", ?_, ?_, rfl⟩
        · rw [String.append_empty]
        · rw [unitLength_append, hfirst]
          rfl
      have hupper : upperAsciiLetter (String.ofList [a]) = String.ofList [a.toUpper] := by
        simp [upperAsciiLetter]
      rw [if_pos (by decide)] at h
      simp only [hletter, hrest, hupper, Option.bind_eq_bind, Option.bind_some] at h
      simp only [String.ofList_toList]
      split_ifs at h ⊢
      · exact (Option.some.inj h).symm
      · exact (Option.some.inj h).symm
    · have hcolon : (String.ofList [b] == ":") = false := by
        rw [beq_eq_false_iff_ne, ne_eq, ← String.toList_inj, String.toList_ofList]
        simpa using hb
      rw [hcolon, if_neg Bool.false_ne_true] at h
      split
      · rename_i heq
        exact absurd (List.cons.inj (List.cons.inj heq).2).1 hb
      · exact (Option.some.inj h).symm
  · rw [if_neg hlength] at h
    simp only [Option.bind_eq_bind, Option.bind_some] at h
    split
    · rename_i c rest hchars
      have hraw : raw = String.ofList [c] ++ (":" ++ String.ofList rest) := by
        rw [← String.toList_inj, hchars]
        simp
      have hfirst : unitLength (String.ofList [c]) ≠ 0 := by
        rw [ne_eq, unitLength_eq_zero, ← String.toList_inj, String.toList_ofList]
        exact List.cons_ne_nil c []
      have hcolon : unitLength ":" = 1 := rfl
      rw [hraw, unitLength_append, unitLength_append, hcolon] at hlength
      omega
    · exact (Option.some.inj h).symm

theorem eq_of_normalizePlatformPath {platform : PlatformKind} {normalized : String}
    (h : normalizePlatformPath platform value = some normalized) :
    normalized = Platform.normalizePlatformPath platform value := by
  cases platform with
  | windows => exact eq_of_normalizeWindows h
  | macOS => exact (Option.some.inj h).symm
  | linux => exact (Option.some.inj h).symm

/-! ## `glob_matches` -/

def segmentMatches (pattern value : String) (patternIndex valueIndex : Nat) : Option Bool :=
  if patternIndex = unitLength pattern then some (valueIndex = unitLength value)
  else
    match _hslice : slice pattern patternIndex (patternIndex + 1) with
    | none => none
    | some part =>
        if part = "*" then
          match segmentMatches pattern value (patternIndex + 1) valueIndex with
          | none => none
          | some true => some true
          | some false =>
              if valueIndex < unitLength value then
                segmentMatches pattern value patternIndex (valueIndex + 1)
              else some false
        else if valueIndex < unitLength value then
          match slice value valueIndex (valueIndex + 1) with
          | none => none
          | some other =>
              if part = other then segmentMatches pattern value (patternIndex + 1) (valueIndex + 1)
              else some false
        else some false
termination_by (unitLength pattern - patternIndex) + (unitLength value - valueIndex)
decreasing_by
  all_goals
    have hlt := le_unitLength _hslice
    omega

theorem segmentMatches_star_nil (pattern : List Char) :
    Platform.segmentMatches ('*' :: pattern) [] = Platform.segmentMatches pattern [] := by
  rw [Platform.segmentMatches]
  exact Bool.or_false _

/-- A star leaves out the next character or not. -/
theorem segmentMatches_star_cons (pattern : List Char) (d : Char) (value : List Char) :
    Platform.segmentMatches ('*' :: pattern) (d :: value) =
      (Platform.segmentMatches pattern (d :: value) || Platform.segmentMatches
        ('*' :: pattern) value) := by
  rw [Platform.segmentMatches, Platform.segmentMatches]
  rfl

section Indices

variable {pattern : String} {i j : Nat}

theorem segmentMatches_end (hi : i = unitLength pattern) :
    segmentMatches pattern value i j = some (decide (j = unitLength value)) := by
  rw [segmentMatches, if_pos hi]

/-- At a star. -/
theorem segmentMatches_star (hi : i ≠ unitLength pattern)
    (hslice : slice pattern i (i + 1) = some "*") :
    segmentMatches pattern value i j =
      match segmentMatches pattern value (i + 1) j with
      | none => none
      | some true => some true
      | some false => if j < unitLength value then segmentMatches pattern value i (j + 1) else some false := by
  rw [segmentMatches, if_neg hi]
  split
  · simp_all
  · rename_i part hpart
    obtain rfl : "*" = part := Option.some.inj (hslice.symm.trans hpart)
    rw [if_pos rfl]

/-- At another unit. -/
theorem segmentMatches_unit (hi : i ≠ unitLength pattern) {part : String}
    (hslice : slice pattern i (i + 1) = some part) (hpart : part ≠ "*") :
    segmentMatches pattern value i j =
      if j < unitLength value then
        match slice value j (j + 1) with
        | none => none
        | some other => if part = other then segmentMatches pattern value (i + 1) (j + 1) else some false
      else some false := by
  rw [segmentMatches, if_neg hi]
  split
  · simp_all
  · rename_i part' hpart'
    obtain rfl : part = part' := Option.some.inj (hslice.symm.trans hpart')
    rw [if_neg hpart]

/-- From two indices on, the characters from there on are matched. -/
theorem segmentMatches_eq (hpattern : IsBmp pattern) (h : IsBmp value) {k : Nat}
    (hi : i + k = pattern.toList.length) (hj : j ≤ value.toList.length) :
    segmentMatches pattern value i j =
      some (Platform.segmentMatches (pattern.toList.drop i) (value.toList.drop j)) := by
  have hrest {j : Nat} (hj : j < value.toList.length) :
      value.toList.drop j = value.toList[j] :: value.toList.drop (j + 1) :=
      List.drop_eq_getElem_cons hj
  have hend : value.toList.drop value.toList.length = [] := List.drop_length
  induction k generalizing i j with
  | zero =>
      have hi : i = pattern.toList.length := hi
      rw [segmentMatches_end (hi.trans hpattern.unitLength.symm), h.unitLength, hi,
        List.drop_length, Platform.segmentMatches]
      rcases Nat.eq_or_lt_of_le hj with rfl | hlt
      · rw [hend, decide_eq_true rfl]
        rfl
      · rw [hrest hlt, decide_eq_false (Nat.ne_of_lt hlt)]
        rfl
  | succ k ih =>
      have hlt : i < pattern.toList.length := by omega
      have hne : i ≠ unitLength pattern := by
        rw [hpattern.unitLength]
        omega
      have hslice := hpattern.slice_one hlt
      rw [List.drop_eq_getElem_cons hlt]
      by_cases hc : pattern.toList[i] = '*'
      · rw [hc] at hslice ⊢
        obtain ⟨m, hm⟩ := Nat.exists_eq_add_of_le hj
        -- the star takes in what is left of the value, unit by unit
        induction m generalizing j with
        | zero =>
            obtain rfl : value.toList.length = j := hm
            rw [segmentMatches_star hne hslice, ih (by omega) hj, h.unitLength,
              if_neg (Nat.lt_irrefl _), hend, segmentMatches_star_nil]
            cases Platform.segmentMatches (pattern.toList.drop (i + 1)) [] <;> rfl
        | succ m ihm =>
            have hjlt : j < value.toList.length := by omega
            rw [segmentMatches_star hne hslice, ih (by omega) hj, h.unitLength, if_pos hjlt,
              ihm hjlt (by omega), hrest hjlt, segmentMatches_star_cons]
            cases Platform.segmentMatches (pattern.toList.drop (i + 1)) _ <;> rfl
      · have hstar : String.ofList [pattern.toList[i]] ≠ "*" := by
          rw [ne_eq, ← String.toList_inj, String.toList_ofList]
          simpa using hc
        rw [segmentMatches_unit hne hslice hstar, h.unitLength]
        rcases Nat.eq_or_lt_of_le hj with rfl | hjlt
        · rw [if_neg (Nat.lt_irrefl _), hend, segmentMatches_nil _ hc]
        · rw [if_pos hjlt, h.slice_one hjlt, hrest hjlt, segmentMatches_cons _ hc]
          simp only [String.ofList_inj, List.singleton_inj]
          split_ifs with heq
          · rw [ih (by omega) hjlt, decide_eq_true heq, Bool.true_and]
          · rw [decide_eq_false heq, Bool.false_and]

end Indices

/-- `path_segments_match`, on what is left of the two lists. -/
def pathSegmentsMatch : List String → List String → Option Bool
  | [], path => some path.isEmpty
  | part :: pattern, path =>
      if part = "**" then
        match pathSegmentsMatch pattern path with
        | none => none
        | some true => some true
        | some false =>
            match path with
            | [] => some false
            | _ :: path => pathSegmentsMatch (part :: pattern) path
      else
        match path with
        | [] => some false
        | segment :: path =>
            match segmentMatches part segment 0 0 with
            | none => none
            | some true => pathSegmentsMatch pattern path
            | some false => some false
termination_by pattern path => pattern.length + path.length

def globMatches (pattern path : String) : Option Bool :=
  pathSegmentsMatch (nonEmptySegments pattern) (nonEmptySegments path)

theorem pathSegmentsMatch_stars (pattern path : List String) :
    Platform.pathSegmentsMatch ("**" :: pattern) path =
      path.tails.any (Platform.pathSegmentsMatch pattern) := by
  rw [Platform.pathSegmentsMatch.eq_def]
  exact if_pos rfl

/-- Two stars leave out the next segment or not. -/
theorem pathSegmentsMatch_stars_cons (pattern : List String) (segment : String)
    (path : List String) :
    Platform.pathSegmentsMatch ("**" :: pattern) (segment :: path) =
      (Platform.pathSegmentsMatch pattern (segment :: path) ||
        Platform.pathSegmentsMatch ("**" :: pattern) path) := by
  rw [pathSegmentsMatch_stars, pathSegmentsMatch_stars]
  rfl

theorem pathSegmentsMatch_eq {pattern path : List String} (hpattern : ∀ part ∈ pattern, IsBmp part)
    (h : ∀ segment ∈ path, IsBmp segment) :
    pathSegmentsMatch pattern path = some (Platform.pathSegmentsMatch pattern path) := by
  induction pattern generalizing path with
  | nil =>
      rw [pathSegmentsMatch]
      rfl
  | cons part pattern ih =>
      rw [List.forall_mem_cons] at hpattern
      by_cases hpart : part = "**"
      · subst hpart
        -- the stars take in what is left of the path, segment by segment
        induction path with
        | nil =>
            rw [pathSegmentsMatch, if_pos rfl, ih hpattern.2 h, pathSegmentsMatch_stars]
            show _ = some (Platform.pathSegmentsMatch pattern [] || false)
            cases Platform.pathSegmentsMatch pattern [] <;> rfl
        | cons segment path ihpath =>
            rw [pathSegmentsMatch, if_pos rfl, ih hpattern.2 h, pathSegmentsMatch_stars_cons]
            rw [List.forall_mem_cons] at h
            cases Platform.pathSegmentsMatch pattern (segment :: path) with
            | true => rfl
            | false => exact ihpath h.2
      · cases path with
        | nil => rw [pathSegmentsMatch, if_neg hpart, Platform.pathSegmentsMatch, if_neg hpart]
        | cons segment path =>
            rw [List.forall_mem_cons] at h
            have hsegment := segmentMatches_eq hpattern.1 h.1 (Nat.zero_add _) (Nat.zero_le _)
            rw [List.drop_zero, List.drop_zero] at hsegment
            rw [pathSegmentsMatch, if_neg hpart, Platform.pathSegmentsMatch, if_neg hpart]
            simp only [hsegment]
            cases Platform.segmentMatches part.toList segment.toList with
            | true => exact ih hpattern.2 h.2
            | false => rfl

theorem globMatches_eq {pattern path : String} (hpattern : IsBmp pattern) (h : IsBmp path) :
    globMatches pattern path = some (Platform.globMatches pattern path) :=
  pathSegmentsMatch_eq (fun _ hpart => hpattern.of_mem_splitSlash (List.mem_filter.mp hpart).1)
    fun _ hsegment => h.of_mem_splitSlash (List.mem_filter.mp hsegment).1

end Mulp.Platform.Sliced
