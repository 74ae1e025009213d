import Mulp.Platform.Sliced

/-! What `normalize_platform_path` makes of a path, and `paths_equal`
(`platform/path.mbt`).

The normal form should be one of its own and equal to what it is made of. The one kind
of path where it is not is taken for a drive when it is normalized again. -/
namespace Mulp.Platform

open Mulp.Text

/-! ## Absolute paths -/

/-- The second character is a colon, which the source takes for the end of a drive. -/
def hasDrive (path : String) : Bool :=
  match path.toList with
  | _ :: ':' :: _ => true
  | _ => false

/-- The path starts with a separator or, on Windows, with a drive. -/
def startsAbsolute (platform : PlatformKind) (path : String) : Bool :=
  match platform with
  | .windows => hasPrefix path "/" || hasPrefix path "\\" || hasDrive path
  | .macOS => hasPrefix path "/"
  | .linux => hasPrefix path "/"

/-- A normal path begins at the root or, on Windows, at that of a drive. -/
def isAbsolute (platform : PlatformKind) (normal : String) : Bool :=
  match platform with
  | .windows =>
      hasPrefix normal "/" ||
        match normal.toList with
        | _ :: ':' :: '/' :: _ => true
        | _ => false
  | .macOS => hasPrefix normal "/"
  | .linux => hasPrefix normal "/"

theorem hasDrive_iff {path : String} :
    hasDrive path = true ↔ ∃ c rest, path.toList = c :: ':' :: rest := by
  rw [hasDrive]
  split
  · rename_i c rest hchars
    exact iff_of_true rfl ⟨c, rest, hchars⟩
  · rename_i hnone
    exact iff_of_false Bool.false_ne_true fun ⟨c, rest, hchars⟩ => hnone c rest hchars

/-- Splitting at one character and joining with another replaces it. -/
theorem intercalate_splitOn_map {α : Type*} [DecidableEq α] (a b : α) (l : List α) :
    [b].intercalate (l.splitOn a) = l.map fun x => if x = a then b else x := by
  induction l with
  | nil => rfl
  | cons x rest ih =>
      obtain ⟨first, others, hsplit⟩ := List.exists_cons_of_ne_nil (List.splitOn_ne_nil a rest)
      rw [List.splitOn_cons_eq_if_modifyHead, List.map_cons, ← ih, hsplit]
      by_cases hx : x = a
      · simp [hx, List.intercalate_cons_cons]
      · cases others with
        | nil => simp [hx]
        | cons second others => simp [hx, List.intercalate_cons_cons]

theorem toList_slashSeparated (path : String) :
    (slashSeparated path).toList = path.toList.map fun c => if c = '\\' then '/' else c := by
  have hid : String.toList ∘ String.ofList = id := funext fun l => String.toList_ofList
  rw [slashSeparated, toList_joinSlash, List.map_map, hid, List.map_id, intercalate_splitOn_map]

theorem hasDrive_slashSeparated (path : String) :
    hasDrive (slashSeparated path) = hasDrive path := by
  have hcolon {c : Char} : (if c = '\\' then '/' else c) = ':' ↔ c = ':' := by
    split_ifs with h
    · rw [h]
      decide
    · rfl
  rw [Bool.eq_iff_iff, hasDrive_iff, hasDrive_iff, toList_slashSeparated]
  constructor
  · rintro ⟨c, rest, hchars⟩
    rcases hpath : path.toList with _ | ⟨a, _ | ⟨b, tail⟩⟩
    · rw [hpath] at hchars
      cases hchars
    · rw [hpath] at hchars
      cases (List.cons.inj hchars).2
    · rw [hpath] at hchars
      exact ⟨a, tail, by rw [hcolon.mp (List.cons.inj (List.cons.inj hchars).2).1]⟩
  · rintro ⟨c, rest, hchars⟩
    exact ⟨_, _, by rw [hchars]; rfl⟩

theorem hasPrefix_slashSeparated (path : String) :
    hasPrefix (slashSeparated path) "/" = (hasPrefix path "/" || hasPrefix path "\\") := by
  simp only [hasPrefix, toList_slashSeparated]
  rcases path.toList with _ | ⟨c, rest⟩
  · rfl
  · by_cases hslash : c = '\\'
    · rw [hslash]
      rfl
    · have hback : ('\\' == c) = false := beq_false_of_ne (Ne.symm hslash)
      simp [List.isPrefixOf, hslash, hback]

/-- A normal path is absolute if the path started with a separator or a drive. -/
theorem isAbsolute_normalize (platform : PlatformKind) (path : String) :
    isAbsolute platform (normalizePlatformPath platform path) = startsAbsolute platform path := by
  cases platform with
  | macOS => exact hasPrefix_collapseSlashes path _
  | linux => exact hasPrefix_collapseSlashes path _
  | windows =>
      rw [isAbsolute, startsAbsolute, ← hasPrefix_slashSeparated, ← hasDrive_slashSeparated]
      by_cases hdrive : hasDrive (slashSeparated path) = true
      · obtain ⟨c, rest, hchars⟩ := hasDrive_iff.mp hdrive
        rw [hdrive, Bool.or_true, normalize_drive hchars, String.toList_append,
          String.toList_ofList]
        exact Bool.or_true _
      · have hnone {c : Char} {rest : List Char} :
          (slashSeparated path).toList ≠ c :: ':' :: rest :=
          fun hchars => hdrive (hasDrive_iff.mpr ⟨c, rest, hchars⟩)
        rw [Bool.eq_false_iff.mpr hdrive, Bool.or_false, normalize_plain fun _ _ => hnone,
          hasPrefix_collapseSlashes]
        by_cases hleading : hasPrefix (slashSeparated path) "/" = true
        · rw [hleading, Bool.true_or]
        · rw [Bool.eq_false_iff.mpr hleading, Bool.false_or, collapseSlashes_eq,
            if_neg Bool.false_ne_true, String.empty_append]
          -- a colon in the second place was there before
          split
          · rename_i c rest hchars
            obtain ⟨tail, htail⟩ := colon_second (Bool.eq_false_iff.mpr hleading) hchars
            exact absurd htail hnone
          · rfl

/-! ## Doubled slashes -/

/-- Between two slashes there is an empty segment. -/
theorem empty_of_doubledSlash {text : String} (h : ['/', '/'] <:+: text.toList) :
    "" ∈ (splitSlash text).tail.dropLast := by
  obtain ⟨before, after, hchars⟩ := h
  have htext : text = String.ofList before ++ "/" ++ ("/" ++ String.ofList after) := by
    rw [← String.toList_inj, ← hchars]
    simp
  rw [htext, splitSlash_append, splitSlash_slash, List.tail_append_of_ne_nil (splitSlash_ne_nil _),
    List.dropLast_append_of_ne_nil (List.cons_ne_nil _ _),
    List.dropLast_cons_of_ne_nil (splitSlash_ne_nil _)]
  exact List.mem_append_right _ List.mem_cons_self

theorem empty_not_mem_segments (path : String) :
    "" ∉ (splitSlash (joinSlash (nonEmptySegments path))).dropLast := by
  intro h
  by_cases hnil : nonEmptySegments path = []
  · rw [hnil] at h
    cases h
  · rw [splitSlash_joinSlash hnil fun _ hsegment => (mem_nonEmptySegments hsegment).1] at h
    exact (mem_nonEmptySegments (List.dropLast_subset _ h)).2 rfl

theorem not_doubledSlash_collapse (path : String) (leading : Bool) :
    ¬ ['/', '/'] <:+: (collapseSlashes path leading).toList := by
  intro h
  have hempty := empty_of_doubledSlash h
  rw [collapseSlashes_eq] at hempty
  split_ifs at hempty
  · rw [splitSlash_slash, List.tail_cons] at hempty
    exact empty_not_mem_segments path hempty
  · rw [String.empty_append, ← List.tail_dropLast] at hempty
    exact empty_not_mem_segments path (List.mem_of_mem_tail hempty)

theorem not_doubledSlash_drive (c : Char) (rest : String) :
    ¬ ['/', '/'] <:+:
      (String.ofList [c, ':', '/'] ++ joinSlash (nonEmptySegments rest)).toList := by
  intro h
  have hempty := empty_of_doubledSlash h
  have hroot : String.ofList [c, ':', '/'] = String.ofList [c, ':'] ++ "/" := by
    rw [← String.toList_inj]
    simp
  rw [hroot, splitSlash_append, List.tail_append_of_ne_nil (splitSlash_ne_nil _),
    List.dropLast_append_of_ne_nil (splitSlash_ne_nil _), List.mem_append] at hempty
  rcases hempty with hempty | hempty
  · -- the letter of the drive may be a slash itself
    by_cases hc : c = '/'
    · rw [hc] at hempty
      exact absurd hempty (by decide)
    · have hdrive : NoSlash (String.ofList [c, ':']) := by
        simpa [NoSlash] using Ne.symm hc
      rw [splitSlash_eq_singleton hdrive] at hempty
      cases hempty
  · exact empty_not_mem_segments rest hempty

/-- Normal paths have no doubled slashes. -/
theorem not_doubledSlash_normalize (platform : PlatformKind) (path : String) :
    ¬ ['/', '/'] <:+: (normalizePlatformPath platform path).toList := by
  cases platform with
  | macOS => exact not_doubledSlash_collapse path _
  | linux => exact not_doubledSlash_collapse path _
  | windows =>
      by_cases hdrive : ∃ c rest, (slashSeparated path).toList = c :: ':' :: rest
      · obtain ⟨c, rest, hchars⟩ := hdrive
        rw [normalize_drive hchars]
        exact not_doubledSlash_drive _ _
      · rw [normalize_plain fun c rest hchars => hdrive ⟨c, rest, hchars⟩]
        exact not_doubledSlash_collapse _ _

theorem not_backslash_normalize (path : String) :
    '\\' ∉ (normalizePlatformPath .windows path).toList := by
  rw [← slashSeparated_normalize]
  exact not_mem_slashSeparated _

/-! ## Normal forms -/

namespace Sliced

/-- What a normal form is to the path that it is of: normalizing it again changes nothing, no
separator is doubled or of the other kind, it is absolute just if the path is, and `paths_equal`
takes the two for the same. -/
structure IsNormalFormOf (platform : PlatformKind) (path normal : String) : Prop where
  again : normalizePlatformPath platform normal = some normal
  slashes : ¬ ['/', '/'] <:+: normal.toList
  separators : platform = .windows → '\\' ∉ normal.toList
  absolute : isAbsolute platform normal = true ↔ startsAbsolute platform path = true
  equal : pathsEqual platform path normal = some true

/-- The path has a normal form. -/
def Normalizes (platform : PlatformKind) (path : String) : Prop :=
  ∃ normal, normalizePlatformPath platform path = some normal ∧ IsNormalFormOf platform path normal

/-- `paths_equal` on texts without surrogates. -/
def SamePath (platform : PlatformKind) (left right : { path : String // IsBmp path }) : Prop :=
  pathsEqual platform left.val right.val = some true

section Bmp

variable {platform : PlatformKind} {path : String}

theorem samePath_iff {left right : { path : String // IsBmp path }} :
    SamePath platform left right ↔ pathKey platform left.val = pathKey platform right.val := by
  rw [SamePath, pathsEqual_eq left.property right.property, Platform.pathsEqual_eq, Option.some_inj,
    decide_eq_true_eq]

theorem samePath_equivalence (platform : PlatformKind) : Equivalence (SamePath platform) where
  refl _ := samePath_iff.mpr rfl
  symm h := samePath_iff.mpr (samePath_iff.mp h).symm
  trans h h' := samePath_iff.mpr ((samePath_iff.mp h).trans (samePath_iff.mp h'))

/-- A path that does not drift. -/
theorem normalizes_of_not_drifts (h : IsBmp path) (hdrifts : drifts platform path = false) :
    Normalizes platform path := by
  have hnormal := isBmp_normalizePlatformPath h platform
  refine ⟨_, normalizePlatformPath_eq h platform, ?_, not_doubledSlash_normalize platform path,
    ?_, ?_, ?_⟩
  · rw [normalizePlatformPath_eq hnormal, normalize_normalize hdrifts]
  · rintro rfl
    exact not_backslash_normalize path
  · rw [isAbsolute_normalize]
  · rw [pathsEqual_eq h hnormal, Platform.pathsEqual_eq, pathKey_normalize hdrifts,
      decide_eq_true rfl]

/-- The normal form of a path that drifts does not equal it. -/
theorem not_drifts_of_normalizes (h : IsBmp path) (hnormalizes : Normalizes platform path) :
    drifts platform path = false := by
  obtain ⟨normal, hnormal, hform⟩ := hnormalizes
  obtain rfl := Option.some.inj ((normalizePlatformPath_eq h platform).symm.trans hnormal)
  have hequal := hform.equal
  rw [pathsEqual_eq h (isBmp_normalizePlatformPath h platform), Platform.pathsEqual_eq,
    Option.some_inj, decide_eq_true_eq] at hequal
  exact Bool.eq_false_iff.mpr fun hdrifts => pathKey_ne_of_drifts hdrifts path hequal.symm

end Bmp

/-- `paths_equal` is an equivalence, and a path has a normal form, and equals it, exactly if
that form is not taken for a drive. -/
theorem normalizes_iff (platform : PlatformKind) (path : { path : String // IsBmp path }) :
    Equivalence (SamePath platform) ∧ (Normalizes platform path.val ↔ drifts platform path.val = false) :=
  ⟨samePath_equivalence platform, not_drifts_of_normalizes path.property,
    normalizes_of_not_drifts path.property⟩

/-- `//:x` becomes `/:x`, and this `/:/x`. -/
theorem not_normalizes_colon : IsBmp "//:x" ∧ ¬ Normalizes .windows "//:x" := by
  have hbmp : IsBmp "//:x" := by decide
  refine ⟨hbmp, ?_⟩
  rintro ⟨normal, hnormal, hform⟩
  have htext : normalizePlatformPath .windows "//:x" = some "/:x" := by
    rw [normalizePlatformPath_eq hbmp]
    decide
  have hagain : normalizePlatformPath .windows "/:x" = some "/:/x" := by
    rw [normalizePlatformPath_eq (by decide)]
    decide
  obtain rfl := Option.some.inj (htext.symm.trans hnormal)
  exact absurd (Option.some.inj (hagain.symm.trans hform.again)) (by decide)

end Sliced

end Mulp.Platform
