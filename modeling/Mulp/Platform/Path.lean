import Mulp.Text.Path

/-! Paths of the platforms (`platform/path.mbt`).

A string is taken apart by characters here, in the source by code units; the two
differ where a slice would cut a character in half, at which the source aborts. -/
namespace Mulp.Platform

open Mulp.Text

inductive PlatformKind where
  | macOS
  | linux
  | windows
  deriving DecidableEq

/-- `lower_ascii`, letter by letter. -/
def lowerAscii (value : String) : String := String.ofList (value.toList.map Char.toLower)

def slashSeparated (path : String) : String :=
  joinSlash ((path.toList.splitOn '\\').map String.ofList)

/-- The segments of a path that are not empty, the loop of `collapse_slashes` and
of `non_empty_segments`. -/
def nonEmptySegments (path : String) : List String := (splitSlash path).filter (· ≠ "")

def collapseSlashes (path : String) (leading : Bool) : String :=
  let joined := joinSlash (nonEmptySegments path)
  if leading then if joined = "" then "/" else "/" ++ joined else joined

/-- `normalize_platform_path`; `to_upper` of a character is `upper_ascii_letter`. -/
def normalizePlatformPath (platform : PlatformKind) (path : String) : String :=
  match platform with
  | .windows =>
      let raw := slashSeparated path
      match raw.toList with
      | c :: ':' :: rest =>
          let drive := String.ofList [c.toUpper] ++ ":"
          let collapsed := collapseSlashes (String.ofList rest) false
          if collapsed = "" then drive ++ "/" else drive ++ "/" ++ collapsed
      | _ => collapseSlashes raw (hasPrefix raw "/")
  | .macOS => collapseSlashes path (hasPrefix path "/")
  | .linux => collapseSlashes path (hasPrefix path "/")

def pathsEqual (platform : PlatformKind) (left right : String) : Bool :=
  let left := normalizePlatformPath platform left
  let right := normalizePlatformPath platform right
  match platform with
  | .linux => left = right
  | .macOS => lowerAscii left = lowerAscii right
  | .windows => lowerAscii left = lowerAscii right

/-- What `paths_equal` compares: the normal form, in lower case where the platform does not tell
letters apart. -/
def pathKey (platform : PlatformKind) (path : String) : String :=
  match platform with
  | .linux => normalizePlatformPath .linux path
  | .macOS => lowerAscii (normalizePlatformPath .macOS path)
  | .windows => lowerAscii (normalizePlatformPath .windows path)

theorem pathsEqual_eq (platform : PlatformKind) (left right : String) :
    pathsEqual platform left right = decide (pathKey platform left = pathKey platform right) := by
  cases platform <;> rfl

/-! ## Letters -/

theorem toNat_toUpper (c : Char) :
    c.toUpper.toNat = if 97 ≤ c.toNat ∧ c.toNat ≤ 122 then c.toNat - 32 else c.toNat := by
  delta Char.toUpper
  simp only [Char.toNat, UInt32.le_iff_toNat_le]
  split_ifs with h h' h'
  · have hlt := c.val.toNat_lt
    have ha : ('a' : Char).val.toNat = 97 := rfl
    have hz : ('z' : Char).val.toNat = 122 := rfl
    have hdown : ('A'.val - 'a'.val).toNat = 2 ^ 32 - 32 := rfl
    simp only [UInt32.toNat_add]
    omega
  · exact absurd h h'
  · exact absurd h' h
  · rfl

theorem toNat_toLower (c : Char) :
    c.toLower.toNat = if 65 ≤ c.toNat ∧ c.toNat ≤ 90 then c.toNat + 32 else c.toNat := by
  delta Char.toLower
  simp only [Char.toNat, UInt32.le_iff_toNat_le]
  split_ifs with h h' h'
  · have hlt := c.val.toNat_lt
    have hup : ('a'.val - 'A'.val).toNat = 32 := rfl
    simp only [UInt32.toNat_add]
    omega
  · exact absurd h h'
  · exact absurd h' h
  · rfl

theorem toUpper_toUpper (c : Char) : c.toUpper.toUpper = c.toUpper := by
  rw [← Char.toNat_inj, toNat_toUpper, toNat_toUpper]
  split_ifs <;> omega

theorem toUpper_ne_backslash {c : Char} (h : c ≠ '\\') : c.toUpper ≠ '\\' := by
  intro heq
  have hbackslash : ('\\' : Char).toNat = 92 := rfl
  rw [← Char.toNat_inj, toNat_toUpper, hbackslash] at heq
  rw [Ne, ← Char.toNat_inj, hbackslash] at h
  split_ifs at heq <;> omega

/-- Only letters have cases. -/
theorem toLower_eq_iff {c d : Char} (hupper : ¬ (65 ≤ d.toNat ∧ d.toNat ≤ 90))
    (hlower : ¬ (97 ≤ d.toNat ∧ d.toNat ≤ 122)) : c.toLower = d ↔ c = d := by
  rw [← Char.toNat_inj, ← Char.toNat_inj, toNat_toLower]
  split_ifs <;> omega

/-! ## Segments -/

theorem mem_nonEmptySegments {path segment : String} (h : segment ∈ nonEmptySegments path) :
    NoSlash segment ∧ segment ≠ "" := by
  obtain ⟨hmem, hne⟩ := List.mem_filter.mp h
  exact ⟨noSlash_of_mem_splitSlash hmem, by simpa using hne⟩

theorem nonEmptySegments_joinSlash {segments : List String}
    (h : ∀ segment ∈ segments, NoSlash segment ∧ segment ≠ "") :
    nonEmptySegments (joinSlash segments) = segments := by
  by_cases hnil : segments = []
  · rw [hnil]
    rfl
  · rw [nonEmptySegments, splitSlash_joinSlash hnil fun segment hsegment => (h segment hsegment).1,
      List.filter_eq_self]
    exact fun segment hsegment => by simpa using (h segment hsegment).2

theorem nonEmptySegments_slash (rest : String) :
    nonEmptySegments ("/" ++ rest) = nonEmptySegments rest := by
  rw [nonEmptySegments, splitSlash_slash]
  rfl

theorem nonEmptySegments_append (path rest : String) :
    nonEmptySegments (path ++ "/" ++ rest) = nonEmptySegments path ++ nonEmptySegments rest := by
  rw [nonEmptySegments, splitSlash_append, List.filter_append]
  rfl

theorem collapseSlashes_eq (path : String) (leading : Bool) :
    collapseSlashes path leading =
      (if leading then "/" else "") ++ joinSlash (nonEmptySegments path) := by
  rw [collapseSlashes]
  split_ifs with hleading hempty
  · rw [hempty]
    rfl
  · rfl
  · rw [String.empty_append]

/-! ## Paths without drives -/

section Plain

variable (path : String) (leading : Bool)

theorem nonEmptySegments_collapseSlashes :
    nonEmptySegments (collapseSlashes path leading) = nonEmptySegments path := by
  rw [collapseSlashes_eq]
  split_ifs
  · rw [nonEmptySegments_slash, nonEmptySegments_joinSlash fun _ => mem_nonEmptySegments]
  · rw [String.empty_append, nonEmptySegments_joinSlash fun _ => mem_nonEmptySegments]

theorem hasPrefix_collapseSlashes : hasPrefix (collapseSlashes path leading) "/" = leading := by
  rw [collapseSlashes_eq]
  cases leading with
  | true => exact hasPrefix_slash _
  | false =>
      rw [if_neg (by simp), String.empty_append]
      rcases hsegments : nonEmptySegments path with _ | ⟨first, rest⟩
      · rfl
      · have hfirst : first ∈ nonEmptySegments path := by
          rw [hsegments]
          exact List.mem_cons_self
        exact hasPrefix_joinSlash (mem_nonEmptySegments hfirst).1 (mem_nonEmptySegments hfirst).2

theorem collapseSlashes_idem : collapseSlashes (collapseSlashes path leading) leading =
    collapseSlashes path leading := by
  rw [collapseSlashes_eq, nonEmptySegments_collapseSlashes, ← collapseSlashes_eq]

end Plain

/-! ## Drives -/

section Drive

variable {path : String}

theorem normalize_drive {c : Char} {rest : List Char}
    (h : (slashSeparated path).toList = c :: ':' :: rest) :
    normalizePlatformPath .windows path =
      String.ofList [c.toUpper, ':', '/'] ++ joinSlash (nonEmptySegments (String.ofList rest)) := by
  have hdrive : String.ofList [c.toUpper] ++ ":" ++ "/" = String.ofList [c.toUpper, ':', '/'] := by
    rw [← String.toList_inj]
    simp
  rw [normalizePlatformPath]
  simp only [h, collapseSlashes_eq, Bool.false_eq_true, if_false, String.empty_append]
  split_ifs with hempty
  · rw [hempty, String.append_empty, hdrive]
  · rw [hdrive]

theorem normalize_plain (h : ∀ c rest, (slashSeparated path).toList ≠ c :: ':' :: rest) :
    normalizePlatformPath .windows path =
      collapseSlashes (slashSeparated path) (hasPrefix (slashSeparated path) "/") := by
  rw [normalizePlatformPath]
  split
  · rename_i c rest hdrive
    exact absurd hdrive (h c rest)
  · rfl

theorem mem_of_mem_nonEmptySegments {segment : String} {c : Char}
    (hsegment : segment ∈ nonEmptySegments path) (h : c ∈ segment.toList) : c ∈ path.toList := by
  rw [← joinSlash_splitSlash path]
  exact mem_joinSlash_of_mem (List.mem_filter.mp hsegment).1 h

/-- A path without backslashes is slash separated. -/
theorem slashSeparated_eq_self (h : '\\' ∉ path.toList) : slashSeparated path = path := by
  rw [slashSeparated, List.splitOn_eq_singleton h]
  simp

theorem not_mem_slashSeparated (path : String) : '\\' ∉ (slashSeparated path).toList := by
  intro h
  rcases mem_joinSlash h with h | ⟨part, hpart, h⟩
  · exact absurd h (by decide)
  · obtain ⟨chars, hchars, rfl⟩ := List.mem_map.mp hpart
    rw [String.toList_ofList] at h
    exact not_mem_of_mem_splitOn hchars h

/-- Normal paths of Windows have no backslashes. -/
theorem slashSeparated_normalize (path : String) :
    slashSeparated (normalizePlatformPath .windows path) = normalizePlatformPath .windows path := by
  have hraw := not_mem_slashSeparated path
  have hsegments {text : String} (htext : '\\' ∉ text.toList) :
      '\\' ∉ (joinSlash (nonEmptySegments text)).toList := by
    intro h
    rcases mem_joinSlash h with h | ⟨part, hpart, h⟩
    · exact absurd h (by decide)
    · exact htext (mem_of_mem_nonEmptySegments hpart h)
  refine slashSeparated_eq_self ?_
  by_cases hdrive : ∃ c rest, (slashSeparated path).toList = c :: ':' :: rest
  · obtain ⟨c, rest, hdrive⟩ := hdrive
    rw [hdrive, List.mem_cons, List.mem_cons, not_or, not_or] at hraw
    have hrest : '\\' ∉ (joinSlash (nonEmptySegments (String.ofList rest))).toList :=
      hsegments (by simpa using hraw.2.2)
    rw [normalize_drive hdrive, String.toList_append, String.toList_ofList]
    simp only [List.cons_append, List.nil_append, List.mem_cons, not_or]
    exact ⟨(toUpper_ne_backslash (Ne.symm hraw.1)).symm, by decide, by decide, hrest⟩
  · rw [normalize_plain fun c rest h => hdrive ⟨c, rest, h⟩, collapseSlashes_eq,
      String.toList_append, List.mem_append, not_or]
    refine ⟨?_, hsegments hraw⟩
    split_ifs <;> decide

end Drive

/-! ## Normal forms that are taken for drives -/

/-- The first segment begins with a colon; if this is all of it, no other follows. -/
def colonFirst : List String → Bool
  | [] => false
  | [first] => hasPrefix first ":"
  | first :: _ :: _ => hasPrefix first ":" && first ≠ ":"

/-- On Windows, a path of two leading separators and such segments. -/
def drifts (platform : PlatformKind) (path : String) : Bool :=
  match platform with
  | .windows =>
      hasPrefix (slashSeparated path) "//" && colonFirst (nonEmptySegments (slashSeparated path))
  | .macOS => false
  | .linux => false

/-- The text begins like a drive whose letter is a slash, with no slash after it. It is what is left
of `//:x` when its slashes are collapsed, and the one text that the normal form takes in two ways.
-/
def DriveLike (text : String) : Prop := ∃ rest, text.toList = '/' :: ':' :: rest ∧ rest.head? ≠ some '/'

section Drifts

variable {path : String}

theorem hasPrefix_colon {first : String} :
    hasPrefix first ":" = true ↔ ∃ rest, first.toList = ':' :: rest := by
  rw [hasPrefix, List.isPrefixOf_iff_prefix]
  constructor
  · rintro ⟨rest, hrest⟩
    exact ⟨rest, hrest.symm⟩
  · rintro ⟨rest, hrest⟩
    exact ⟨rest, hrest.symm⟩

theorem driveLike_joinSlash {segments : List String}
    (h : ∀ segment ∈ segments, NoSlash segment ∧ segment ≠ "") :
    DriveLike ("/" ++ joinSlash segments) ↔ colonFirst segments = true := by
  rcases segments with _ | ⟨first, _ | ⟨second, rest⟩⟩
  · refine iff_of_false ?_ (by simp [colonFirst])
    rintro ⟨rest, hrest, -⟩
    simp at hrest
  -- one segment: a slash after the colon would be its own
  · rw [joinSlash_singleton]
    have hslash := (h first List.mem_cons_self).1
    simp only [DriveLike, String.toList_append]
    rw [colonFirst, hasPrefix_colon]
    constructor
    · rintro ⟨rest, hrest, -⟩
      exact ⟨rest, (List.cons.inj hrest).2⟩
    · rintro ⟨rest, hrest⟩
      refine ⟨rest, congrArg ('/' :: ·) hrest, fun hhead => hslash ?_⟩
      rw [hrest]
      exact List.mem_cons_of_mem _ (List.mem_of_mem_head? hhead)
  -- more of them: after a segment `:` comes the slash that joins the next
  · have hslash := (h first List.mem_cons_self).1
    rw [colonFirst, joinSlash_cons first (by simp), Bool.and_eq_true, hasPrefix_colon, decide_eq_true_eq]
    simp only [DriveLike, String.toList_append]
    constructor
    · rintro ⟨rest, hrest, hhead⟩
      rcases hchars : first.toList with _ | ⟨d, ds⟩
      · exact absurd (String.toList_eq_nil_iff.mp hchars) (h first List.mem_cons_self).2
      · rw [hchars] at hrest
        obtain ⟨rfl, htail⟩ := List.cons.inj (List.cons.inj hrest).2
        refine ⟨⟨ds, rfl⟩, ?_⟩
        rintro rfl
        cases hchars
        exact hhead (by rw [← htail]; rfl)
    · rintro ⟨⟨rest, hrest⟩, hne⟩
      rcases rest with _ | ⟨d, ds⟩
      · exact absurd (String.toList_inj.mp hrest) hne
      · refine ⟨_, by rw [hrest]; rfl, fun hhead => hslash ?_⟩
        have hd : d = '/' := by simpa using hhead
        rw [hrest, hd]
        simp

/-- The first segment begins with the first character. -/
theorem nonEmptySegments_head {c : Char} {rest : List Char} (hpath : path.toList = c :: rest)
    (hc : c ≠ '/') : ∃ chars segments, chars <+: rest ∧
      nonEmptySegments path = String.ofList (c :: chars) :: segments := by
  obtain ⟨chars, others, hsplit⟩ := List.exists_cons_of_ne_nil (List.splitOn_ne_nil '/' rest)
  have hcons : (c :: rest).splitOn '/' = (c :: chars) :: others := by
    rw [List.splitOn_cons_eq_if_modifyHead, if_neg (by simpa using hc), hsplit, List.modifyHead_cons]
  have hstart : chars <+: rest := by
    have hinter : ['/'].intercalate (rest.splitOn '/') = rest := List.intercalate_splitOn '/'
    rw [hsplit] at hinter
    rw [← hinter]
    cases others with
    | nil => simp
    | cons other others =>
        rw [List.intercalate_cons_cons, List.append_assoc]
        exact List.prefix_append _ _
  refine ⟨chars, (others.map String.ofList).filter (· ≠ ""), hstart, ?_⟩
  rw [nonEmptySegments, splitSlash, hpath, hcons, List.map_cons, List.filter_cons_of_pos (by simp)]

/-- A path drifts if its normal form begins like a drive. -/
theorem drifts_iff :
    drifts .windows path = true ↔ DriveLike (normalizePlatformPath .windows path) := by
  rw [drifts, Bool.and_eq_true]
  by_cases hdrive : ∃ c rest, (slashSeparated path).toList = c :: ':' :: rest
  · obtain ⟨c, rest, hdrive⟩ := hdrive
    refine iff_of_false (fun h => ?_) ?_
    · obtain ⟨tail, htail⟩ := hasPrefix_iff.mp h.1
      rw [htail, String.toList_append] at hdrive
      exact absurd (List.cons.inj (List.cons.inj hdrive).2).1 (by decide)
    · rw [normalize_drive hdrive]
      rintro ⟨rest, hrest, hhead⟩
      rw [String.toList_append, String.toList_ofList] at hrest
      have htail := (List.cons.inj (List.cons.inj hrest).2).2
      exact hhead (by rw [← htail]; rfl)
  · rw [normalize_plain fun c rest h => hdrive ⟨c, rest, h⟩, collapseSlashes_eq]
    by_cases hleading : hasPrefix (slashSeparated path) "/" = true
    · rw [if_pos hleading, driveLike_joinSlash fun _ => mem_nonEmptySegments, and_iff_right_iff_imp]
      -- a first segment with a colon comes after a second slash
      intro h
      obtain ⟨rest, hrest⟩ := hasPrefix_iff.mp hleading
      rw [hrest, nonEmptySegments_slash] at h
      rcases hchars : rest.toList with _ | ⟨d, ds⟩
      · rw [String.toList_eq_nil_iff.mp hchars] at h
        exact absurd h (by decide)
      · by_cases hd : d = '/'
        · rw [hrest, hasPrefix, String.toList_append, hchars, hd]
          rfl
        · obtain ⟨chars, segments, -, hsegments⟩ := nonEmptySegments_head hchars hd
          rw [hsegments] at h
          have hcolon : hasPrefix (String.ofList (d :: chars)) ":" = true := by
            rcases segments with _ | ⟨second, segments⟩
            · exact h
            · exact ((Bool.and_eq_true _ _).mp h).1
          obtain ⟨tail, htail⟩ := hasPrefix_colon.mp hcolon
          rw [String.toList_ofList] at htail
          refine absurd ⟨'/', ds, ?_⟩ hdrive
          rw [hrest, String.toList_append, hchars, (List.cons.inj htail).1]
          rfl
    · refine iff_of_false (fun h => hleading ?_) ?_
      · obtain ⟨tail, htail⟩ := hasPrefix_iff.mp h.1
        exact hasPrefix_iff.mpr ⟨"/" ++ tail, by rw [htail, ← String.append_assoc]; rfl⟩
      · rw [← collapseSlashes_eq]
        rintro ⟨rest, hrest, -⟩
        have hstart := hasPrefix_collapseSlashes (slashSeparated path)
          (hasPrefix (slashSeparated path) "/")
        refine hleading (hstart.symm.trans (hasPrefix_iff.mpr ⟨String.ofList (':' :: rest), ?_⟩))
        rw [← String.toList_inj, hrest, String.toList_append, String.toList_ofList]
        simp

theorem collapseSlashes_normal (path : String) :
    collapseSlashes (collapseSlashes path (hasPrefix path "/"))
        (hasPrefix (collapseSlashes path (hasPrefix path "/")) "/") =
      collapseSlashes path (hasPrefix path "/") := by
  rw [hasPrefix_collapseSlashes, collapseSlashes_idem]

/-- Without a leading slash the second character stays if it is a colon. -/
theorem colon_second {c : Char} {rest : List Char} (hstart : hasPrefix path "/" = false)
    (h : (joinSlash (nonEmptySegments path)).toList = c :: ':' :: rest) :
    ∃ rest, path.toList = c :: ':' :: rest := by
  rcases hchars : path.toList with _ | ⟨d, ds⟩
  · rw [String.toList_eq_nil_iff.mp hchars] at h
    cases h
  · have hd : d ≠ '/' := by
      rintro rfl
      rw [hasPrefix, hchars] at hstart
      cases hstart
    -- the first segment that is not empty starts the path itself
    obtain ⟨chars, segments, ⟨tail, htail⟩, hsegments⟩ := nonEmptySegments_head hchars hd
    have hfirst : ∃ more, (joinSlash (nonEmptySegments path)).toList = d :: chars ++ more ∧
        (more = [] ∨ ∃ other, more = '/' :: other) := by
      rw [hsegments]
      by_cases hnil : segments = []
      · exact ⟨[], by rw [hnil, joinSlash_singleton, String.toList_ofList, List.append_nil],
          .inl rfl⟩
      · refine ⟨'/' :: (joinSlash segments).toList, ?_, .inr ⟨_, rfl⟩⟩
        rw [joinSlash_cons _ hnil, String.toList_append, String.toList_append, String.toList_ofList,
          List.append_assoc]
        rfl
    obtain ⟨more, hmore, hnext⟩ := hfirst
    rw [hmore] at h
    obtain ⟨rfl, hcolon⟩ := List.cons.inj h
    rcases chars with _ | ⟨e, chars⟩
    · rcases hnext with rfl | ⟨other, rfl⟩
      · cases hcolon
      · exact absurd (List.cons.inj hcolon).1 (by decide)
    · obtain ⟨rfl, -⟩ := List.cons.inj hcolon
      exact ⟨chars ++ tail, by rw [← htail]; rfl⟩

theorem normalize_drive_again {c : Char} {rest : List Char}
    (hdrive : (slashSeparated path).toList = c :: ':' :: rest) :
    normalizePlatformPath .windows (normalizePlatformPath .windows path) =
      normalizePlatformPath .windows path := by
  have hnormal := normalize_drive hdrive
  have htoList : (slashSeparated (normalizePlatformPath .windows path)).toList =
      c.toUpper :: ':' :: '/' :: (joinSlash (nonEmptySegments (String.ofList rest))).toList := by
    rw [slashSeparated_normalize, hnormal, String.toList_append, String.toList_ofList]
    rfl
  have htail : String.ofList ('/' :: (joinSlash (nonEmptySegments (String.ofList rest))).toList) =
      "/" ++ joinSlash (nonEmptySegments (String.ofList rest)) := by
    rw [← String.toList_inj, String.toList_append, String.toList_ofList]
    rfl
  rw [normalize_drive htoList, htail, nonEmptySegments_slash,
    nonEmptySegments_joinSlash fun _ => mem_nonEmptySegments, toUpper_toUpper, hnormal]

/-- A normal form with a colon segment after its root is taken for a drive and
stays. -/
theorem normalize_colon_root {raw : String} {r : List Char}
    (hnormal : normalizePlatformPath .windows path = "/" ++ joinSlash (nonEmptySegments raw))
    (hchars : (normalizePlatformPath .windows path).toList = '/' :: ':' :: '/' :: r) :
    normalizePlatformPath .windows (normalizePlatformPath .windows path) =
      normalizePlatformPath .windows path := by
  have htext : normalizePlatformPath .windows path = "/:" ++ "/" ++ String.ofList r := by
    rw [← String.toList_inj, hchars]
    simp
  have hsegments : nonEmptySegments raw = ":" :: nonEmptySegments (String.ofList r) := by
    have hsplit := nonEmptySegments_append "/:" (String.ofList r)
    rw [← htext, hnormal, nonEmptySegments_slash,
      nonEmptySegments_joinSlash fun _ => mem_nonEmptySegments] at hsplit
    exact hsplit
  have hne : nonEmptySegments (String.ofList r) ≠ [] := by
    intro hnil
    rw [hnormal, hsegments, hnil, joinSlash_singleton] at hchars
    cases hchars
  have htail : String.ofList ('/' :: r) = "/" ++ String.ofList r := by
    rw [← String.toList_inj]
    simp
  have hslash : ('/' : Char).toUpper = '/' := rfl
  have hroot : "/" ++ (":" ++ "/" ++ joinSlash (nonEmptySegments (String.ofList r))) =
      String.ofList ['/', ':', '/'] ++ joinSlash (nonEmptySegments (String.ofList r)) := by
    rw [← String.toList_inj]
    simp
  rw [normalize_drive ((congrArg String.toList (slashSeparated_normalize path)).trans hchars),
    htail, nonEmptySegments_slash, hslash, hnormal, hsegments, joinSlash_cons _ hne, hroot]

/-- The normal form of a path that does not drift is normal. -/
theorem normalize_normalize {platform : PlatformKind} (h : drifts platform path = false) :
    normalizePlatformPath platform (normalizePlatformPath platform path) =
      normalizePlatformPath platform path := by
  cases platform with
  | macOS => exact collapseSlashes_normal path
  | linux => exact collapseSlashes_normal path
  | windows =>
      have hslashes := slashSeparated_normalize path
      by_cases hdrive : ∃ c rest, (slashSeparated path).toList = c :: ':' :: rest
      · obtain ⟨c, rest, hdrive⟩ := hdrive
        exact normalize_drive_again hdrive
      · have hnormal := normalize_plain fun c rest h => hdrive ⟨c, rest, h⟩
        -- only a path that was plain can look like a drive afterwards
        by_cases hagain : ∃ c rest, (normalizePlatformPath .windows path).toList = c :: ':' :: rest
        · obtain ⟨c, rest, hagain⟩ := hagain
          rw [collapseSlashes_eq] at hnormal
          split_ifs at hnormal with hleading
          · have hlike : ¬ DriveLike (normalizePlatformPath .windows path) := by
              rw [← drifts_iff, h]
              exact Bool.false_ne_true
            have hroot : c = '/' := by
              rw [hnormal, String.toList_append] at hagain
              exact (List.cons.inj hagain).1.symm
            subst hroot
            rcases rest with _ | ⟨d, r⟩
            · exact absurd ⟨[], hagain, by simp⟩ hlike
            · by_cases hd : d = '/'
              · subst hd
                exact normalize_colon_root hnormal hagain
              · exact absurd ⟨d :: r, hagain, by simpa using hd⟩ hlike
          · rw [String.empty_append] at hnormal
            rw [hnormal] at hagain
            exact absurd ⟨c, colon_second (Bool.eq_false_iff.mpr hleading) hagain⟩ hdrive
        · have hplain := @normalize_plain (normalizePlatformPath .windows path)
            fun c rest h => hagain ⟨c, rest, hslashes ▸ h⟩
          rw [hplain, hslashes, hnormal, collapseSlashes_normal]

theorem pathKey_normalize {platform : PlatformKind} (h : drifts platform path = false) :
    pathKey platform (normalizePlatformPath platform path) = pathKey platform path := by
  have hnormal := normalize_normalize h
  cases platform with
  | linux => exact hnormal
  | macOS => exact congrArg lowerAscii hnormal
  | windows => exact congrArg lowerAscii hnormal

/-- Case does not matter to what begins like a drive. -/
theorem driveLike_lowerAscii {text : String} : DriveLike (lowerAscii text) ↔ DriveLike text := by
  have hslash {c : Char} : c.toLower = '/' ↔ c = '/' := toLower_eq_iff (by decide) (by decide)
  have hcolon {c : Char} : c.toLower = ':' ↔ c = ':' := toLower_eq_iff (by decide) (by decide)
  rw [DriveLike, DriveLike, lowerAscii, String.toList_ofList]
  constructor
  · rintro ⟨rest, hrest, hhead⟩
    rcases hchars : text.toList with _ | ⟨c, _ | ⟨d, tail⟩⟩
    · rw [hchars] at hrest
      cases hrest
    · rw [hchars] at hrest
      simp at hrest
    · rw [hchars] at hrest
      obtain ⟨hc, hrest⟩ := List.cons.inj hrest
      obtain ⟨hd, hrest⟩ := List.cons.inj hrest
      refine ⟨tail, by rw [hslash.mp hc, hcolon.mp hd], fun htail => hhead ?_⟩
      rw [← hrest, List.head?_map, htail]
      rfl
  · rintro ⟨rest, hrest, hhead⟩
    refine ⟨rest.map Char.toLower, by rw [hrest]; rfl, fun htail => hhead ?_⟩
    rw [List.head?_map] at htail
    obtain ⟨c, hc, hlower⟩ := Option.map_eq_some_iff.mp htail
    rw [hc, hslash.mp hlower]

/-- A normal form does not drift. -/
theorem drifts_normalize (platform : PlatformKind) (path : String) :
    drifts platform (normalizePlatformPath platform path) = false := by
  cases platform with
  | linux => rfl
  | macOS => rfl
  | windows =>
      rw [drifts, slashSeparated_normalize]
      by_cases hdrive : ∃ c rest, (slashSeparated path).toList = c :: ':' :: rest
      · obtain ⟨c, rest, hdrive⟩ := hdrive
        rw [Bool.and_eq_false_iff]
        left
        rw [normalize_drive hdrive, hasPrefix, String.toList_append, String.toList_ofList]
        simp [List.isPrefixOf]
      · rw [normalize_plain fun c rest h => hdrive ⟨c, rest, h⟩, Bool.and_eq_false_iff]
        left
        refine Bool.eq_false_iff.mpr fun hslashes => ?_
        obtain ⟨rest, hrest⟩ := hasPrefix_iff.mp hslashes
        have hinner := hasPrefix_collapseSlashes (slashSeparated path) false
        have hstart := hasPrefix_collapseSlashes (slashSeparated path)
          (hasPrefix (slashSeparated path) "/")
        have hroot : "//" ++ rest = "/" ++ ("/" ++ rest) := by
          rw [← String.append_assoc]
          rfl
        rw [hrest, hroot, hasPrefix_slash] at hstart
        rw [← hstart, collapseSlashes_eq, if_pos rfl] at hrest
        have htail : joinSlash (nonEmptySegments (slashSeparated path)) = "/" ++ rest := by
          have hchars := congrArg String.toList (hrest.trans hroot)
          rw [String.toList_append, String.toList_append] at hchars
          exact String.toList_inj.mp (List.append_cancel_left hchars)
        rw [collapseSlashes_eq, if_neg (by simp), String.empty_append, htail, hasPrefix_slash] at hinner
        cases hinner

/-- The key of a path that drifts is that of no normal form. -/
theorem pathKey_ne_of_drifts {platform : PlatformKind} (h : drifts platform path = true)
    (other : String) :
    pathKey platform (normalizePlatformPath platform other) ≠ pathKey platform path := by
  cases platform with
  | linux => cases h
  | macOS => cases h
  | windows =>
      intro hkey
      have hother := drifts_normalize .windows other
      rw [Bool.eq_false_iff, Ne, drifts_iff, ← driveLike_lowerAscii] at hother
      rw [drifts_iff, ← driveLike_lowerAscii] at h
      have hkey : lowerAscii
          (normalizePlatformPath .windows (normalizePlatformPath .windows other)) =
          lowerAscii (normalizePlatformPath .windows path) := hkey
      rw [hkey] at hother
      exact hother h

end Drifts

end Mulp.Platform
