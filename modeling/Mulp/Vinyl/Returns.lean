import Mulp.Vinyl.Canonical

/-! When `normalize_path` returns (`vinyl/file.mbt`).

Its scan looks at every character up to the first segment that is empty, `.` or
`..`, and aborts at a character of two units. What is behind that segment is only
split and joined. -/
namespace Mulp.Vinyl

open Mulp.Text Lexical

/-! ## Canonical paths -/

theorem text_location {path : String} (hnormal : normalizePath path = path) (hne : path ≠ "") :
    (location path).text = path := by
  rw [← normalizePath_eq hne, hnormal]

theorem normalizePath_text {l : Location} (h : l.Proper) : normalizePath l.text = l.text := by
  rw [normalizePath_eq (text_ne_empty h), location_text h]

/-- A path to the same place that is canonical as well is the same. -/
theorem eq_of_location {path other : String} (hpath : normalizePath path = path)
    (hother : normalizePath other = other) (hne : path ≠ "") (hne' : other ≠ "")
    (h : location path = location other) : path = other := by
  rw [← text_location hpath hne, h, text_location hother hne']

theorem hasSuffix_slash_of_last {value : String} (h : (splitSlash value).getLast? ≠ some "") :
    hasSuffix value "/" = false := by
  rw [Bool.eq_false_iff]
  intro hsuffix
  obtain ⟨start, rfl⟩ := hasSuffix_iff.mp hsuffix
  rw [splitSlash_trailing, List.getLast?_concat] at h
  exact h rfl

theorem trimTrailingSlash_of_last {value : String} (h : (splitSlash value).getLast? ≠ some "") :
    trimTrailingSlash value = value := by
  rw [trimTrailingSlash, hasSuffix_slash_of_last h, Bool.and_false, if_neg Bool.false_ne_true]

/-- A canonical path ends in a slash only if it is the root. -/
theorem last_of_normal {path : String} (hnormal : normalizePath path = path) (hne : path ≠ "")
    (hroot : path ≠ "/") : (splitSlash path).getLast? ≠ some "" := by
  have hproper := location_proper path
  rw [← text_location hnormal hne] at hroot ⊢
  generalize location path = l at hproper hroot ⊢
  by_cases hnil : Location.parts l.pos = []
  · cases hrooted : l.rooted with
    | true =>
        refine absurd ?_ hroot
        rw [Location.text, hrooted, hnil, if_pos rfl, joinSlash_nil, String.append_empty]
    | false =>
        rw [Location.text, hrooted, hnil, if_neg Bool.false_ne_true, if_pos rfl]
        decide
  · rw [splitSlash_text hproper hnil, List.getLast?_append_of_ne_nil _ hnil]
    intro hlast
    exact (Location.parts_noSlash hproper.names "" (List.mem_of_getLast? hlast)).2 rfl

theorem trimTrailingSlash_normal {path : String} (hnormal : normalizePath path = path) :
    trimTrailingSlash path = path := by
  by_cases hne : path = ""
  · rw [hne]
    rfl
  by_cases hroot : path = "/"
  · rw [hroot]
    rfl
  · exact trimTrailingSlash_of_last (last_of_normal hnormal hne hroot)

/-- A canonical path that leads upwards from its start begins with `..`. -/
theorem exists_dots {path : String} (hnormal : normalizePath path = path) (hne : path ≠ "")
    (hups : (location path).pos.ups ≠ 0) :
    path = ".." ∨ ∃ rest, path = "../" ++ rest := by
  have hproper := location_proper path
  have hrelative : (location path).rooted = false := by
    rw [Bool.eq_false_iff]
    exact fun hrooted => hups (hproper.rooted hrooted)
  rw [← text_location hnormal hne, Location.text, hrelative, if_neg Bool.false_ne_true]
  obtain ⟨ups, hups⟩ := Nat.exists_eq_succ_of_ne_zero hups
  have hparts : Location.parts (location path).pos =
      ".." :: (List.replicate ups ".." ++ (location path).pos.names) := by
    rw [Location.parts, hups, List.replicate_succ, List.cons_append]
  rw [hparts, if_neg (List.cons_ne_nil _ _)]
  by_cases hnil : List.replicate ups ".." ++ (location path).pos.names = []
  · rw [hnil]
    exact .inl (joinSlash_singleton "..")
  · rw [joinSlash_cons ".." hnil]
    exact .inr ⟨_, rfl⟩

namespace Sliced

/-! ## What is returned -/

/-- The function returns if the scan does. -/
theorem normalizePath_scan {path : String} (hne : path ≠ "") :
    normalizePath path =
      (pathNeedsNormalize (Vinyl.trimTrailingSlash path)).map
      fun _ => Vinyl.normalizePath path := by
  rw [normalizePath_split, if_neg hne, trimTrailingSlash_eq, Option.bind_some]
  cases hscan : pathNeedsNormalize (Vinyl.trimTrailingSlash path) with
  | none => rfl
  | some needs =>
      rw [Option.bind_some, Option.map_some]
      cases needs with
      | true => exact splitAndJoin_eq hne
      | false =>
          rw [pathNeedsNormalize_scan] at hscan
          have hneeds : Vinyl.pathNeedsNormalize (Vinyl.trimTrailingSlash path) = false :=
            (eq_of_scanFrom hscan).symm
          rw [Vinyl.normalizePath, if_neg hne]
          dsimp only
          rw [hneeds, Bool.not_false, if_pos rfl]
          rfl

theorem eq_of_normalizePath {path normalized : String} (h : normalizePath path = some normalized) :
    normalized = Vinyl.normalizePath path := by
  by_cases hne : path = ""
  · rw [hne] at h ⊢
    exact (Option.some.inj h).symm
  · rw [normalizePath_scan hne, Option.map_eq_some_iff] at h
    obtain ⟨_, -, rfl⟩ := h
    rfl

/-! ## When it returns -/

theorem scanFrom_none_append {rooted : Bool} {index : Nat} {segment chars : List Char}
    (more : List Char) (h : scanFrom rooted index segment chars = none) :
    scanFrom rooted index segment (chars ++ more) = none := by
  induction chars generalizing index segment with
  | nil => cases h
  | cons c rest ih =>
      rw [scanFrom] at h
      rw [List.cons_append, scanFrom]
      split_ifs at h ⊢ with hpair hc hempty hroot hdots
      · exact ih h
      · exact ih h
      · exact ih h
      · rfl

/-- A scan that accepts the characters has seen all of them. -/
theorem bmp_of_scanFrom {rooted : Bool} {index : Nat} {segment chars : List Char}
    (h : scanFrom rooted index segment chars = some false) : ∀ c ∈ chars, c.toNat ≤ 0xFFFF := by
  induction chars generalizing index segment with
  | nil => exact nofun
  | cons c rest ih =>
      rw [List.forall_mem_cons]
      rw [scanFrom] at h
      split_ifs at h with hpair hc hempty hroot hdots
      · exact ⟨hpair, ih h⟩
      · cases h
      · cases h
      · exact ⟨hpair, ih h⟩
      · exact ⟨hpair, ih h⟩

/-- The scan stops at a segment `..` behind characters of one unit. -/
theorem scanFrom_dots {front : List Char} (hfront : ∀ c ∈ front, c.toNat ≤ 0xFFFF) (rooted : Bool)
    (index : Nat) (segment back : List Char) :
    ∃ b, scanFrom rooted index segment (front ++ '/' :: '.' :: '.' :: '/' :: back) = some b := by
  have hdots : ∀ index, scanFrom rooted index [] ('.' :: '.' :: '/' :: back) = some true :=
    fun _ => rfl
  have hslash : ¬ ¬ '/'.toNat ≤ 0xFFFF := by decide
  induction front generalizing index segment with
  | nil =>
      rw [List.nil_append, scanFrom, if_neg hslash, if_pos rfl, hdots]
      split_ifs
      · exact ⟨true, rfl⟩
      · exact ⟨true, rfl⟩
      · exact ⟨true, rfl⟩
      · exact ⟨true, rfl⟩
  | cons c rest ih =>
      rw [List.forall_mem_cons] at hfront
      rw [List.cons_append, scanFrom, if_neg (not_not_intro hfront.1)]
      split_ifs
      · exact ih hfront.2 _ _
      · exact ⟨true, rfl⟩
      · exact ⟨true, rfl⟩
      · exact ih hfront.2 _ _
      · exact ih hfront.2 _ _

/-- A path aborts if one that it goes on from does, unless that one has been trimmed. -/
theorem normalizePath_none_append {path : String} (hnormal : Vinyl.normalizePath path = path)
    (h : normalizePath path = none) {rest : String} (hrest : rest ≠ "") :
    normalizePath (path ++ rest) = none := by
  have hne : path ≠ "" := by
    rintro rfl
    cases h
  have happend : path ++ rest ≠ "" := by
    rw [ne_eq, String.append_eq_empty_iff]
    exact fun hempty => hne hempty.1
  rw [normalizePath_scan hne, trimTrailingSlash_normal hnormal, Option.map_eq_none_iff,
    pathNeedsNormalize_scan] at h
  rw [normalizePath_scan happend, Option.map_eq_none_iff, pathNeedsNormalize_scan]
  have hchars : ∃ more, (Vinyl.trimTrailingSlash (path ++ rest)).toList = path.toList ++ more := by
    rw [Vinyl.trimTrailingSlash]
    split_ifs
    · refine ⟨rest.toList.dropLast, ?_⟩
      rw [String.toList_ofList, String.toList_append, List.dropLast_append_of_ne_nil]
      exact mt String.toList_eq_nil_iff.mp hrest
    · exact ⟨rest.toList, String.toList_append⟩
  obtain ⟨more, hmore⟩ := hchars
  have hprefix : hasPrefix (Vinyl.trimTrailingSlash (path ++ rest)) "/" = hasPrefix path "/" := by
    have htrimmed : Vinyl.trimTrailingSlash (path ++ rest) = path ++ String.ofList more := by
      rw [← String.toList_inj, String.toList_append, String.toList_ofList, hmore]
    rw [htrimmed, hasPrefix_append hne]
  rw [hmore, hprefix]
  exact scanFrom_none_append more h

/-- Of the canonical paths, `normalize_path` returns on those without pairs and on those
that begin with `..`. -/
theorem normalizePath_returns_iff {path : String} (hnormal : Vinyl.normalizePath path = path) :
    (∃ normalized, normalizePath path = some normalized) ↔
      IsBmp path ∨ hasPrefix path "../" = true := by
  constructor
  · rintro ⟨normalized, h⟩
    by_cases hne : path = ""
    · rw [hne]
      exact .inl (by decide)
    by_cases hups : (location path).pos.ups = 0
    · by_cases hnames : (location path).pos.names = []
      · -- the root, or the start
        left
        rw [← text_location hnormal hne, Location.text, Location.parts, hups, hnames]
        cases (location path).rooted <;> decide
      · -- the scan accepts the path, so it has seen all of it
        left
        have hneeds := pathNeedsNormalize_text (location_proper path) hups hnames
        rw [text_location hnormal hne] at hneeds
        rw [normalizePath_scan hne, trimTrailingSlash_normal hnormal, pathNeedsNormalize_scan,
          Option.map_eq_some_iff] at h
        obtain ⟨needs, hscan, -⟩ := h
        obtain rfl : needs = false := (eq_of_scanFrom hscan).trans hneeds
        exact bmp_of_scanFrom hscan
    · rcases exists_dots hnormal hne hups with hdots | ⟨rest, hrest⟩
      · rw [hdots]
        exact .inl (by decide)
      · exact .inr (hasPrefix_iff.mpr ⟨rest, hrest⟩)
  · rintro (hbmp | hprefix)
    · exact ⟨_, normalizePath_eq hbmp⟩
    · obtain ⟨rest, rfl⟩ := hasPrefix_iff.mp hprefix
      have hne : "../" ++ rest ≠ "" := by
        rw [ne_eq, String.append_eq_empty_iff]
        exact fun hempty => absurd hempty.1 (by decide)
      have hscan : pathNeedsNormalize ("../" ++ rest) = some true := by
        have htoList : ("../" ++ rest).toList = '.' :: '.' :: '/' :: rest.toList := by simp
        rw [pathNeedsNormalize_scan, htoList]
        rfl
      rw [normalizePath_scan hne, trimTrailingSlash_normal hnormal, hscan]
      exact ⟨_, rfl⟩

end Sliced

end Mulp.Vinyl
