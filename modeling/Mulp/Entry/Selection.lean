import Mathlib.Data.List.TakeDrop
import Mulp.Entry.Command
import Mulp.Stream.FileTree

/-! What `--cwd` and `--gulpfile` select (`cmd/mulp/real_config.mbt`).

A path is joined to a directory and normalized by segments. Both may go up, the
directory by the process's own, of which the join knows nothing. -/
namespace Mulp.Entry

open Mulp.Core Mulp.Text Mulp.Cli Mulp.Stream Lexical

/-! ## Places -/

section Place

variable {pwd : List String} {dir path rest : String}

/-- A path from the place of another one is the two joined. -/
theorem place_append (hdir : dir ≠ "") (h : hasPrefix rest "/" = false) :
    place pwd (dir ++ "/" ++ rest) = place (place pwd dir) rest := by
  have hplace (pwd : List String) : place pwd rest =
      ((⟨0, pwd⟩ : Pos String).walk true ((splitSlash rest).map stepOf)).names := by
    have hrooted : (location rest).rooted = false := h
    simp only [place, hrooted, Bool.false_eq_true, if_false]
    rw [location, h, Pos.walk_start_steps]
  rw [hplace]
  cases hrooted : hasPrefix dir "/" with
  | true =>
      have happend : hasPrefix (dir ++ "/" ++ rest) "/" = true := by
        rw [String.append_assoc, hasPrefix_append hdir]
        exact hrooted
      rw [place_rooted happend, place_rooted hrooted, location_append hdir]
      apply Pos.names_walk
      rfl
  | false =>
      have happend : hasPrefix (dir ++ "/" ++ rest) "/" = false := by
        rw [String.append_assoc, hasPrefix_append hdir]
        exact hrooted
      have hdir' : (location dir).rooted = false := hrooted
      have happend' : (location (dir ++ "/" ++ rest)).rooted = false := happend
      simp only [place, hdir', happend', Bool.false_eq_true, if_false]
      rw [location, location, happend, hrooted, Pos.walk_start_steps, Pos.walk_start_steps,
        splitSlash_append, List.map_append, Pos.walk_append]
      apply Pos.names_walk
      rfl

end Place

/-! ## `normalize_path` -/

section Normalize

variable {path : String}

theorem pushSegment_eq (names : List String) (segment : String) :
    pushSegment names segment = ((⟨0, names⟩ : Pos String).step true (stepOf segment)).names := by
  rw [pushSegment, stepOf]
  split_ifs with hstay hup
  · rfl
  · cases names <;> rfl
  · rfl

/-- The segments that are left are the names of the path's position; the levels above
it are not. -/
theorem foldl_pushSegment (path : String) :
    (splitSlash path).foldl pushSegment [] = (location path).pos.names := by
  have hwalk (names segments : List String) : segments.foldl pushSegment names =
      ((⟨0, names⟩ : Pos String).walk true (segments.map stepOf)).names := by
    induction segments generalizing names with
    | nil => rfl
    | cons segment rest ih =>
        rw [List.foldl_cons, ih, pushSegment_eq, List.map_cons, Pos.walk_cons]
        apply Pos.names_walk
        rfl
  rw [hwalk, location]
  apply Pos.names_walk
  rfl

theorem normalizePath_eq (path : String) :
    normalizePath path =
      (if hasPrefix path "/" then "/" else "") ++ joinSlash (location path).pos.names := by
  rw [normalizePath, foldl_pushSegment]
  split_ifs
  · rfl
  · rw [String.empty_append]

/-- A path made of names only. -/
theorem location_joinSlash {names : List String} (h : ∀ name ∈ names, IsName name) :
    hasPrefix (joinSlash names) "/" = false ∧ location (joinSlash names) = ⟨false, ⟨0, names⟩⟩ := by
  cases names with
  | nil => exact ⟨rfl, rfl⟩
  | cons name rest =>
      have hname := h name List.mem_cons_self
      have hstart := @hasPrefix_joinSlash name rest hname.noSlash hname.ne_empty
      refine ⟨hstart, ?_⟩
      rw [location, hstart, splitSlash_joinSlash (List.cons_ne_nil _ _)
        fun part hpart => (h part hpart).noSlash, walk_isName h]

theorem normalizePath_rooted (h : hasPrefix path "/" = true) :
    normalizePath path = (location path).text := by
  have hproper := location_proper path
  have hrooted : (location path).rooted = true := h
  rw [normalizePath_eq, if_pos h, Location.text, if_pos hrooted, Location.parts,
    hproper.rooted hrooted, List.replicate_zero, List.nil_append]

theorem hasPrefix_text {l : Location} (h : l.rooted = true) : hasPrefix l.text "/" = true := by
  rw [Location.text, if_pos h]
  exact hasPrefix_slash _

end Normalize

/-! ## The path that is selected -/

/-- What a path that the command line names should become: a spelling of the place that it denotes
from the directory, which is not empty and does not change when it is joined again. -/
structure Denotes (pwd : List String) (cwd path result : String) : Prop where
  /-- It leads where the path does from `cwd`. -/
  place : place pwd result = place (place pwd cwd) path
  nonempty : result ≠ ""
  again : joinConfigPath "." result = some result

/-- One of the two is absolute, or the directory has a name and the path goes on from it
to something below the process's own directory; the root has nothing above. -/
def Resolvable (pwd : List String) (cwd path : String) : Prop :=
  if hasPrefix path "/" ∨ hasPrefix cwd "/" then True
  else if cwd = "" then pwd.length ≤ (location path).pos.ups
  else
    (location (cwd ++ "/" ++ path)).pos.names ≠ [] ∧
      ((location (cwd ++ "/" ++ path)).pos.ups = 0 ∨ pwd = [])

instance (pwd : List String) (cwd path : String) : Decidable (Resolvable pwd cwd path) :=
  inferInstanceAs (Decidable (ite _ _ _))

section Select

variable {pwd names : List String} {cwd path : String}

/-- `join_config_path` from `.` keeps what it makes. -/
theorem joinConfigPath_dot_text {l : Location} (hl : l.Proper) (hrooted : l.rooted = true) :
    joinConfigPath "." l.text = some l.text := by
  have hstart := hasPrefix_text hrooted
  rw [joinConfigPath, if_pos hstart, normalizePath_rooted hstart, location_text hl]

theorem joinConfigPath_dot_joinSlash (h : ∀ name ∈ names, IsName name) :
    joinConfigPath "." (joinSlash names) = some (joinSlash names) := by
  obtain ⟨hstart, hlocation⟩ := location_joinSlash h
  have hdot : normalizeDir "." = some "." := rfl
  have hrooted : hasPrefix ("." ++ "/" ++ joinSlash names) "/" = false := by
    rw [String.append_assoc, hasPrefix_append (by decide)]
    rfl
  have hpos : (location ("." ++ "/" ++ joinSlash names)).pos.names = names := by
    have hdotlocation : location "." = ⟨false, Pos.start⟩ := rfl
    rw [location_append (by decide), hdotlocation]
    rw [location, hstart] at hlocation
    exact congrArg (fun l : Location => l.pos.names) hlocation
  rw [joinConfigPath, hstart, if_neg Bool.false_ne_true, hdot, Option.map_some,
    normalizePath_eq, hrooted, if_neg Bool.false_ne_true, String.empty_append, hpos]

/-- An absolute path is the shortest one to its place. -/
theorem denotes_rooted (hpath : hasPrefix path "/" = true)
    (hplace : Stream.place pwd path = Stream.place (Stream.place pwd cwd) other) :
    Denotes pwd cwd other (normalizePath path) := by
  have hproper := location_proper path
  have hrooted : (location path).rooted = true := hpath
  rw [normalizePath_rooted hpath]
  refine ⟨?_, text_ne_empty hproper, joinConfigPath_dot_text hproper hrooted⟩
  rw [place_rooted (hasPrefix_text hrooted), location_text hproper, ← hplace, place_rooted hpath]

/-- A relative path keeps its names, and loses the levels it goes up. -/
theorem denotes_relative_iff (hpath : hasPrefix path "/" = false)
    (hplace : Stream.place pwd path = Stream.place (Stream.place pwd cwd) other) :
    Denotes pwd cwd other (normalizePath path) ↔
      (location path).pos.names ≠ [] ∧ ((location path).pos.ups = 0 ∨ pwd = []) := by
  have hnames := (location_proper path).names
  obtain ⟨hstart, hlocation⟩ := location_joinSlash hnames
  have hempty := joinSlash_eq_empty fun name hname => (hnames name hname).ne_empty
  have hresult : Stream.place pwd (joinSlash (location path).pos.names) =
      pwd ++ (location path).pos.names := by
    rw [place_relative hstart, hlocation, Nat.sub_zero, List.take_length]
  have htake : pwd ++ (location path).pos.names = Stream.place pwd path ↔
      (location path).pos.ups = 0 ∨ pwd = [] := by
    rw [place_relative hpath, List.append_cancel_right_eq, eq_comm, List.take_eq_self_iff]
    constructor
    · intro hle
      by_cases hups : (location path).pos.ups = 0
      · exact .inl hups
      · exact .inr (List.eq_nil_of_length_eq_zero (by omega))
    · rintro (hups | rfl)
      · omega
      · exact Nat.zero_le _
  rw [normalizePath_eq, hpath, if_neg Bool.false_ne_true, String.empty_append]
  constructor
  · intro h
    refine ⟨fun hnil => h.nonempty (hempty.mpr hnil), htake.mp ?_⟩
    rw [hplace, ← h.place, hresult]
  · rintro ⟨hne, hups⟩
    refine ⟨?_, fun hnil => hne (hempty.mp hnil), joinConfigPath_dot_joinSlash hnames⟩
    rw [hresult, ← hplace]
    exact htake.mpr hups

theorem joinConfigPath_eq (cwd path : String) :
    joinConfigPath cwd path =
      some (normalizePath (if hasPrefix path "/" then path else trimSlash cwd ++ "/" ++ path)) := by
  rw [joinConfigPath, normalizeDir_eq]
  split_ifs <;> rfl

theorem trimSlash_ne_empty (h : cwd ≠ "") : trimSlash cwd ≠ "" := by
  intro hempty
  rcases eq_trimSlash cwd with hcwd | hcwd
  · exact h (hcwd.trans hempty)
  · rw [hempty, String.empty_append] at hcwd
    rw [hcwd, trimSlash_root] at hempty
    exact absurd hempty (by decide)

/-- A last slash of the directory does not matter. -/
theorem location_trimSlash (h : cwd ≠ "") : location (trimSlash cwd) = location cwd := by
  rcases eq_trimSlash cwd with hcwd | hcwd
  · rw [← hcwd]
  · have htrailing := location_trailing (trimSlash_ne_empty h)
    rw [← hcwd] at htrailing
    exact htrailing.symm

/-- From the root, a relative path keeps its names only. -/
theorem names_slash (path : String) :
    (location ("/" ++ path)).pos.names = (location path).pos.names := by
  rw [location, location, hasPrefix_slash, splitSlash_slash, List.map_cons, Pos.walk_cons]
  apply Pos.names_walk
  rfl

theorem denotes_empty_iff (hpath : hasPrefix path "/" = false) :
    Denotes pwd "" path (normalizePath ("/" ++ path)) ↔ pwd.length ≤ (location path).pos.ups := by
  have hproper := location_proper ("/" ++ path)
  have hrooted : (location ("/" ++ path)).rooted = true := hasPrefix_slash path
  have hempty : Stream.place pwd "" = pwd := rfl
  have hresult : Stream.place pwd (normalizePath ("/" ++ path)) = (location path).pos.names := by
    rw [normalizePath_rooted hrooted, place_rooted (hasPrefix_text hrooted), location_text hproper,
      names_slash]
  have htake : (location path).pos.names = Stream.place (Stream.place pwd "") path ↔
      pwd.length ≤ (location path).pos.ups := by
    rw [hempty, place_relative hpath, List.self_eq_append_left, List.take_eq_nil_iff]
    constructor
    · rintro (hle | rfl)
      · omega
      · exact Nat.zero_le _
    · intro hle
      exact .inl (by omega)
  constructor
  · intro h
    rw [← htake, ← hresult]
    exact h.place
  · intro hle
    refine ⟨hresult.trans (htake.mpr hle), ?_, ?_⟩
    · rw [normalizePath_rooted hrooted]
      exact text_ne_empty hproper
    · rw [normalizePath_rooted hrooted]
      exact joinConfigPath_dot_text hproper hrooted

theorem denotes_iff (pwd : List String) (cwd path : String) :
    Denotes pwd cwd path
        (normalizePath (if hasPrefix path "/" then path else trimSlash cwd ++ "/" ++ path)) ↔
      Resolvable pwd cwd path := by
  rw [Resolvable]
  by_cases hpath : hasPrefix path "/" = true
  · rw [if_pos hpath, if_pos (.inl hpath), iff_true]
    apply denotes_rooted hpath
    rw [place_rooted hpath, place_rooted hpath]
  · have hrelative : hasPrefix path "/" = false := by simpa using hpath
    rw [if_neg hpath]
    by_cases hempty : cwd = ""
    · -- the empty directory is taken for the root
      have hneither : ¬ (hasPrefix path "/" = true ∨ hasPrefix "" "/" = true) :=
        not_or.mpr ⟨hpath, Bool.false_ne_true⟩
      have htrim : trimSlash "" ++ "/" ++ path = "/" ++ path := by
        have hnone : trimSlash "" = "" := rfl
        rw [hnone, String.empty_append]
      rw [hempty, if_neg hneither, if_pos rfl, htrim]
      exact denotes_empty_iff hrelative
    · have htrim := trimSlash_ne_empty hempty
      have hstart : hasPrefix (trimSlash cwd ++ "/" ++ path) "/" = hasPrefix cwd "/" := by
        rw [String.append_assoc, hasPrefix_append htrim]
        exact congrArg Location.rooted (location_trimSlash hempty)
      have hlocation : location (trimSlash cwd ++ "/" ++ path) = location (cwd ++ "/" ++ path) := by
        rw [location_append htrim, location_append hempty, location_trimSlash hempty]
      have hplace : Stream.place pwd (trimSlash cwd ++ "/" ++ path) =
          Stream.place (Stream.place pwd cwd) path := by
        have hdir : Stream.place pwd (trimSlash cwd) = Stream.place pwd cwd := by
          rw [Stream.place, location_trimSlash hempty, Stream.place]
        rw [place_append htrim hrelative, hdir]
      by_cases hcwd : hasPrefix cwd "/" = true
      · rw [if_pos (.inr hcwd), iff_true]
        exact denotes_rooted (hstart.trans hcwd) hplace
      · rw [if_neg (by simp [hpath, hcwd]), if_neg hempty, ← hlocation]
        exact denotes_relative_iff (hstart.trans (by simpa using hcwd)) hplace

end Select

/-- `--cwd` and `--gulpfile` select what the user named if that is resolvable. -/
theorem joinConfigPath_denotes_iff (pwd : List String) (cwd path : String) :
    ∃ result, joinConfigPath cwd path = some result ∧
      (Denotes pwd cwd path result ↔ Resolvable pwd cwd path) ∧
      (∀ args, firstValue (· == "--cwd") args = .ok (some path) →
        commandCwdFromArgs cwd args = some (.ok result)) ∧
      ∀ (read : String → Except MulpError String) (contents : String), read result = .ok contents →
        loadRealConfig read cwd (some path) = some (.ok ⟨result, contents⟩) := by
  refine ⟨_, joinConfigPath_eq cwd path, denotes_iff pwd cwd path, ?_, ?_⟩
  · intro args hargs
    rw [commandCwdFromArgs, hargs]
    dsimp only
    rw [joinConfigPath_eq]
    rfl
  · intro read contents hread
    rw [loadRealConfig, joinConfigPath_eq, Option.bind_eq_bind, Option.bind_some, hread]

theorem joinConfigPath_lost :
    (joinConfigPath "." "../lib" = some "lib" ∧ ¬ Denotes ["home", "user"] "." "../lib" "lib") ∧
      (joinConfigPath "." "." = some "" ∧ ¬ Denotes ["home", "user"] "." "." "") ∧
      joinConfigPath "" "gulp.mbtx" = some "/gulp.mbtx" ∧
        ¬ Denotes ["home", "user"] "" "gulp.mbtx" "/gulp.mbtx" := by
  refine ⟨⟨by decide +kernel, fun h => ?_⟩, ⟨by decide +kernel, fun h => h.nonempty rfl⟩,
    by decide +kernel, fun h => ?_⟩
  · have hplace := h.place
    revert hplace
    decide
  · have hplace := h.place
    revert hplace
    decide

theorem joinConfigPath_sibling : ∃ result, joinConfigPath "work/" "./a/../b" = some result ∧
    Denotes ["home", "user"] "work/" "./a/../b" result := by
  obtain ⟨result, hresult, hiff, -⟩ :=
    joinConfigPath_denotes_iff ["home", "user"] "work/" "./a/../b"
  exact ⟨result, hresult, hiff.mpr (by decide +kernel)⟩

end Mulp.Entry
