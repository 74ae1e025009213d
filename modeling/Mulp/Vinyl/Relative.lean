import Mulp.Vinyl.Returns

/-! `relative_between` is inverse to joining (`vinyl/file.mbt`).

The common segments of the two paths are dropped, and one `..` stands for each that is
left of the base. What comes back when this is joined to the base is the path, if it is
normalized and the base does not go up itself. -/
namespace Mulp.Vinyl

open Mulp.Text Lexical

/-- The path that a relative path from the base stands for. -/
def rejoined (base rel : String) : String := if rel = "" then base else joinPath base rel

/-- Both paths are absolute, or both are relative and the base has no `..`. Otherwise there is no
relative path that leads from the one to the other whatever the working directory is. -/
def Comparable (base path : String) : Prop :=
  hasPrefix base "/" = true ∧ hasPrefix path "/" = true ∨
    (hasPrefix base "/" = false ∧ hasPrefix path "/" = false) ∧ (base ≠ "" ∧ path ≠ "") ∧
      ".." ∉ splitSlash base

instance (base path : String) : Decidable (Comparable base path) :=
  inferInstanceAs (Decidable (_ ∨ _ ∧ _))

/-! ## `join_path` -/

theorem location_joinPath {dir : String} (h : dir ≠ "") (name : String) :
    location (joinPath dir name) = location (dir ++ "/" ++ name) := by
  rw [joinPath]
  split_ifs with hroot hsuffix
  · -- a second slash behind the root is an empty segment
    have hstay : Pos.start.step true (stepOf "") = Pos.start := rfl
    rw [hroot, location, location, String.append_assoc, hasPrefix_slash, hasPrefix_slash,
      splitSlash_slash, splitSlash_slash, splitSlash_slash, List.map_cons, List.map_cons,
      List.map_cons, Pos.walk_cons, Pos.walk_cons, Pos.walk_cons, hstay, hstay]
  · obtain ⟨start, rfl⟩ := hasSuffix_iff.mp hsuffix
    have hne : start ≠ "" := by
      rintro rfl
      exact hroot rfl
    rw [location_append hne, location_append h, location_trailing hne]
  · rfl

theorem joinPath_ne_empty (dir name : String) : joinPath dir name ≠ "" := by
  intro hempty
  rw [joinPath] at hempty
  split_ifs at hempty with hroot hsuffix
  · exact absurd (String.append_eq_empty_iff.mp hempty).1 (by decide)
  · rw [(String.append_eq_empty_iff.mp hempty).1] at hsuffix
    cases hsuffix
  · have hslash := (String.append_eq_empty_iff.mp (String.append_eq_empty_iff.mp hempty).1).2
    exact absurd hslash (by decide)

theorem joinPath_normal {dir : String} (hnormal : normalizePath dir = dir) (hne : dir ≠ "")
    (hroot : dir ≠ "/") (name : String) : joinPath dir name = dir ++ "/" ++ name := by
  rw [joinPath, if_neg hroot, hasSuffix_slash_of_last (last_of_normal hnormal hne hroot),
    if_neg Bool.false_ne_true]

/-- Behind the root or not, a joined path goes on from the directory. -/
theorem joinPath_append {dir name : String} (hroot : dir ≠ "/") (hname : name ≠ "") :
    ∃ rest, rest ≠ "" ∧ joinPath dir name = dir ++ rest := by
  rw [joinPath, if_neg hroot]
  split_ifs
  · exact ⟨name, hname, rfl⟩
  · refine ⟨"/" ++ name, ?_, String.append_assoc⟩
    rw [ne_eq, String.append_eq_empty_iff]
    exact fun hempty => hname hempty.2

/-! ## Parts -/

/-- The parts of a path are those of the shortest path. -/
theorem pathParts_location (path : String) :
    pathParts path = Location.parts (location path).pos := by
  have hkeep : ∀ {parts : List String}, (∀ part ∈ parts, part ≠ "" ∧ part ≠ ".") →
      parts.filter (fun part => part ≠ "" && part ≠ ".") = parts := by
    intro parts h
    rw [List.filter_eq_self]
    intro part hpart
    simp [h part hpart]
  have hproper := location_proper path
  have hparts : ∀ part ∈ Location.parts (location path).pos, part ≠ "" ∧ part ≠ "." := by
    intro part hpart
    rcases List.mem_append.mp hpart with hups | hname
    · rw [List.eq_of_mem_replicate hups]
      decide
    · exact ⟨(hproper.names part hname).ne_empty, (hproper.names part hname).ne_dot⟩
  by_cases hne : path = ""
  · rw [hne]
    rfl
  rw [pathParts, normalizePath_eq hne]
  by_cases hnil : Location.parts (location path).pos = []
  · rw [Location.text, hnil]
    cases (location path).rooted <;> rfl
  · rw [splitSlash_text hproper hnil, List.filter_append, hkeep hparts]
    split_ifs <;> rfl

theorem commonLength_take (baseParts parts : List String) :
    baseParts.take (commonLength baseParts parts) = parts.take (commonLength baseParts parts) := by
  induction baseParts generalizing parts with
  | nil => cases parts <;> rfl
  | cons basePart baseParts ih =>
      cases parts with
      | nil => rfl
      | cons part parts =>
          rw [commonLength]
          split_ifs with hsame
          · rw [hsame, List.take_succ_cons, List.take_succ_cons, ih]
          · rfl

theorem commonLength_le (baseParts parts : List String) :
    commonLength baseParts parts ≤ baseParts.length := by
  induction baseParts generalizing parts with
  | nil => cases parts <;> exact Nat.le_refl 0
  | cons basePart baseParts ih =>
      cases parts with
      | nil => exact Nat.zero_le _
      | cons part parts =>
          rw [commonLength]
          split_ifs
          · exact Nat.succ_le_succ (ih parts)
          · exact Nat.zero_le _

/-- The parts that lead from the base to the path. -/
def relativeParts (base path : String) : List String :=
  List.replicate ((pathParts base).length - commonLength (pathParts base) (pathParts path)) ".." ++
    (pathParts path).drop (commonLength (pathParts base) (pathParts path))

theorem mem_relativeParts {base path part : String} (h : part ∈ relativeParts base path) :
    NoSlash part ∧ part ≠ "" := by
  rcases List.mem_append.mp h with hups | hrest
  · rw [List.eq_of_mem_replicate hups]
    decide
  · have hpart := List.mem_of_mem_drop hrest
    rw [pathParts_location] at hpart
    exact Location.parts_noSlash (location_proper path).names part hpart

variable {base path : String}

/-- A base that has no `..` is the root or the start, or below it. -/
theorem ups_of_comparable (hnormal : normalizePath base = base) (h : Comparable base path) :
    (location base).pos.ups = 0 := by
  rcases h with ⟨hbase, -⟩ | ⟨-, ⟨hne, -⟩, hdots⟩
  · exact (location_proper base).rooted hbase
  · by_contra hups
    rcases exists_dots hnormal hne hups with rfl | ⟨rest, rfl⟩
    · exact hdots (by decide)
    · have hsplit : splitSlash ("../" ++ rest) = ".." :: splitSlash rest :=
        splitSlash_append ".." rest
      rw [hsplit] at hdots
      exact hdots List.mem_cons_self

theorem rooted_of_comparable (h : Comparable base path) :
    (location base).rooted = (location path).rooted := by
  rcases h with ⟨hbase, hpath⟩ | ⟨⟨hbase, hpath⟩, -⟩
  · exact hbase.trans hpath.symm
  · exact hbase.trans hpath.symm

theorem ne_empty_of_comparable (h : Comparable base path) : base ≠ "" ∧ path ≠ "" := by
  rcases h with ⟨hbase, hpath⟩ | ⟨-, hne, -⟩
  · constructor
    · rintro rfl
      cases hbase
    · rintro rfl
      cases hpath
  · exact hne

/-- The parts lead from the base to the path. -/
theorem walk_relativeParts (hnormal : normalizePath base = base) (h : Comparable base path) :
    (location base).pos.walk (location base).rooted ((relativeParts base path).map stepOf) =
      (location path).pos := by
  have hups := ups_of_comparable hnormal h
  have hbase := location_proper base
  have hpath := location_proper path
  have hbaseParts : pathParts base = (location base).pos.names := by
    rw [pathParts_location, Location.parts, hups, List.replicate_zero, List.nil_append]
  have hpos : (location base).pos = ⟨0, (location base).pos.names⟩ := by rw [← hups]
  have hup : stepOf ".." = .up := rfl
  have hle : (pathParts base).length - commonLength (pathParts base) (pathParts path) ≤
      (location base).pos.names.length := by
    rw [hbaseParts]
    exact Nat.sub_le _ _
  -- the names that are left are the first parts of the path
  have hleft : (location base).pos.names.take ((location base).pos.names.length -
      ((pathParts base).length - commonLength (pathParts base) (pathParts path))) =
      (pathParts path).take (commonLength (pathParts base) (pathParts path)) := by
    have hcommon := commonLength_le (pathParts base) (pathParts path)
    rw [← commonLength_take, ← hbaseParts, Nat.sub_sub_self hcommon]
  have hnames : ∀ name ∈ (pathParts path).take (commonLength (pathParts base) (pathParts path)),
      IsName name := by
    intro name hname
    rw [← hleft] at hname
    exact hbase.names name (List.mem_of_mem_take hname)
  calc (location base).pos.walk (location base).rooted ((relativeParts base path).map stepOf)
      = (⟨0, (pathParts path).take (commonLength (pathParts base) (pathParts path))⟩ : Pos String).walk
          (location base).rooted
          (((pathParts path).drop (commonLength (pathParts base) (pathParts path))).map stepOf) := by
        rw [relativeParts, List.map_append, List.map_replicate, hup, Pos.walk_append, hpos,
          Pos.walk_ups_le _ _ hle, hleft]
    _ = Pos.start.walk (location base).rooted ((pathParts path).map stepOf) := by
        rw [← walk_isName hnames, ← Pos.walk_append, ← List.map_append, List.take_append_drop]
    _ = (location path).pos := by
        rw [rooted_of_comparable h, pathParts_location, Location.map_stepOf_parts hpath.names,
          Pos.walk_steps _ hpath.rooted]

/-! ## The relative path -/

/-- In the slow path. -/
theorem relativeBetween_slow (hne : path ≠ base)
    (hinside : ¬ (base ≠ "/" ∧ ∃ rest, path = base ++ "/" ++ rest)) :
    relativeBetween base path = joinSlash (relativeParts base path) := by
  rw [relativeBetween, if_neg hne, if_neg]
  · rfl
  · intro hfast
    rw [Bool.and_eq_true, decide_eq_true_eq] at hfast
    exact hinside ⟨hfast.1, hasPrefix_iff.mp hfast.2⟩

/-- In the fast path. -/
theorem relativeBetween_fast (hroot : base ≠ "/") (rest : String) :
    relativeBetween base (base ++ "/" ++ rest) = rest := by
  have hne : base ++ "/" ++ rest ≠ base := by
    intro hsame
    have hlength := congrArg (fun text => text.toList.length) hsame
    simp at hlength
  have hinside : hasPrefix (base ++ "/" ++ rest) (base ++ "/") = true :=
    hasPrefix_iff.mpr ⟨rest, rfl⟩
  rw [relativeBetween, if_neg hne, if_pos (by simp [hroot, hinside])]
  simp

theorem location_rejoined (hbase : normalizePath base = base) (hpath : normalizePath path = path)
    (h : Comparable base path) :
    location (rejoined base (relativeBetween base path)) = location path := by
  obtain ⟨hne, hpathne⟩ := ne_empty_of_comparable h
  by_cases hsame : path = base
  · rw [relativeBetween, if_pos hsame, rejoined, if_pos rfl, hsame]
  by_cases hinside : base ≠ "/" ∧ ∃ rest, path = base ++ "/" ++ rest
  · obtain ⟨hroot, rest, hrest⟩ := hinside
    have hrestne : rest ≠ "" := by
      rintro rfl
      rw [String.append_empty] at hrest
      refine hsame (eq_of_location hpath hbase hpathne hne ?_)
      rw [hrest, location_trailing hne]
    rw [hrest, relativeBetween_fast hroot, rejoined, if_neg hrestne, location_joinPath hne]
  · have hwalk := walk_relativeParts hbase h
    have hempty := joinSlash_eq_empty fun part hpart => (@mem_relativeParts base path part hpart).2
    rw [relativeBetween_slow hsame hinside, rejoined]
    split_ifs with hnil
    · rw [hempty.mp hnil] at hwalk
      rw [Location.mk.injEq]
      exact ⟨rooted_of_comparable h, hwalk⟩
    · have hsplit : splitSlash (joinSlash (relativeParts base path)) = relativeParts base path :=
        splitSlash_joinSlash (mt hempty.mpr hnil) fun part hpart => (mem_relativeParts hpart).1
      rw [location_joinPath hne, location_append hne, hsplit, hwalk, rooted_of_comparable h]

/-- The relative path leads from the base to the path. -/
theorem normalizePath_rejoined (hbase : normalizePath base = base)
    (hpath : normalizePath path = path) (h : Comparable base path) : normalizePath
    (rejoined base (relativeBetween base path)) = path := by
  obtain ⟨hne, hpathne⟩ := ne_empty_of_comparable h
  have hrejoined : rejoined base (relativeBetween base path) ≠ "" := by
    rw [rejoined]
    split_ifs
    · exact hne
    · exact joinPath_ne_empty _ _
  rw [normalizePath_eq hrejoined, location_rejoined hbase hpath h, text_location hpath hpathne]

end Mulp.Vinyl
