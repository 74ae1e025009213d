import Mulp.Core.Error
import Mulp.Text.Trim

/-! The search for the configuration, upwards from a directory (`cli/discovery.mbt`,
`cmd/mulp/real_config.mbt`), with the slices that it takes of paths. -/
namespace Mulp.Cli

open Mulp.Core Mulp.Text

structure ConfigDocument where
  path : String
  contents : String
  deriving DecidableEq

def defaultConfigFileName : String := "gulp.mbtx"

/-! ## Directories -/

/-- `normalize_dir`; `discovery.mbt` and `real_config.mbt` have one each. -/
def normalizeDir (path : String) : Option String :=
  if path ≠ "/" && hasSuffix path "/" then slice path 0 (unitLength path - 1) else some path

/-- The loop of `parent_dir`, from the index below `n` down. -/
def parentDirFrom (path : String) : Nat → Option (Option String)
  | 0 => some none
  | index + 1 => do
      let part ← slice path index (index + 1)
      if part = "/" then
        if index = 0 then some (some "/") else (slice path 0 index).map some
      else parentDirFrom path index

/-- `parent_dir`; `discovery.mbt` and `real_config.mbt` have one each. -/
def parentDir (path : String) : Option (Option String) := do
  let path ← normalizeDir path
  if path = "" ∨ path = "/" then some none else parentDirFrom path (unitLength path)

theorem normalizeDir_eq (path : String) : normalizeDir path = some (trimSlash path) :=
  slice_trimSlash path

theorem parentDirFrom_some {path parent : String} {n : Nat}
    (h : parentDirFrom path n = some (some parent)) :
    ∃ rest, path = "/" ++ rest ∧ parent = "/" ∨ path = parent ++ "/" ++ rest := by
  induction n with
  | zero => cases h
  | succ index ih =>
      rw [parentDirFrom, Option.bind_eq_bind, Option.bind_eq_some_iff] at h
      obtain ⟨part, hpart, h⟩ := h
      split_ifs at h with hslash hzero
      · rw [hslash, hzero] at hpart
        obtain ⟨before, after, rfl, hbefore, -⟩ := slice_eq_some_iff.mp hpart
        cases h
        refine ⟨after, .inl ⟨?_, rfl⟩⟩
        rw [eq_empty_of_unitLength hbefore, String.empty_append]
      · rw [hslash] at hpart
        obtain ⟨before, after, rfl, rfl, -⟩ := slice_eq_some_iff.mp hpart
        have hbefore : slice (before ++ "/" ++ after) 0 (unitLength before) = some before :=
          slice_eq_some_iff.mpr ⟨"", "/" ++ after, by simp [String.append_assoc], rfl, by simp⟩
        rw [hbefore] at h
        cases h
        exact ⟨after, .inr rfl⟩
      · exact ih h

/-- The parent of a directory is a shorter path. -/
theorem parentDir_length {dir parent : String} (h : parentDir dir = some (some parent)) :
    parent.length < dir.length := by
  rw [parentDir, normalizeDir_eq, Option.bind_eq_bind, Option.bind_some] at h
  split_ifs at h with hroot
  · cases h
  rw [not_or] at hroot
  have htrim : (trimSlash dir).length ≤ dir.length := by
    rcases eq_trimSlash dir with hdir | hdir
    · exact Nat.le_of_eq (congrArg String.length hdir.symm)
    · have hlength := congrArg String.length hdir
      rw [String.length_append] at hlength
      omega
  have hslash : "/".length = 1 := rfl
  obtain ⟨rest, ⟨hpath, rfl⟩ | hpath⟩ := parentDirFrom_some h
  · have hlength := congrArg String.length hpath
    rw [String.length_append] at hlength
    have hrest : rest.length ≠ 0 := by
      intro hzero
      rw [String.length_eq_zero_iff.mp hzero, String.append_empty] at hpath
      exact hroot.2 hpath
    omega
  · have hlength := congrArg String.length hpath
    rw [String.length_append, String.length_append] at hlength
    omega

/-! ## The search -/

/-- The path of a file in a directory. -/
def candidateIn (dir name : String) : String := if dir = "/" then "/" ++ name else dir ++ "/" ++ name

/-- The loops of `discover_config`, `discover_real_config` and `discover_moon_root`:
`look` is asked about the file of each directory. -/
def searchUp {α : Type} (look : String → String → Option α) (name dir : String) : Option (Option α) :=
  match look dir (candidateIn dir name) with
  | some found => some (some found)
  | none =>
      match _h : parentDir dir with
      | none => none
      | some none => some none
      | some (some parent) => searchUp look name parent
termination_by dir.length
decreasing_by exact parentDir_length _h

section Search

variable {α : Type} {look : String → String → Option α} {name dir parent : String}

theorem searchUp_found {found : α} (h : look dir (candidateIn dir name) = some found) :
    searchUp look name dir = some (some found) := by
  rw [searchUp, h]

theorem searchUp_parent (h : look dir (candidateIn dir name) = none)
    (hparent : parentDir dir = some (some parent)) :
    searchUp look name dir = searchUp look name parent := by
  rw [searchUp, h]
  dsimp only
  split
  · next heq =>
      rw [hparent] at heq
      cases heq
  · next heq =>
      rw [hparent] at heq
      cases heq
  · next heq =>
      rw [hparent] at heq
      cases heq
      rfl

theorem searchUp_top (h : look dir (candidateIn dir name) = none)
    (hparent : parentDir dir = some none) :
    searchUp look name dir = some none := by
  rw [searchUp, h]
  dsimp only
  split
  · next heq =>
      rw [hparent] at heq
      cases heq
  · rfl
  · next heq =>
      rw [hparent] at heq
      cases heq

theorem searchUp_abort (h : look dir (candidateIn dir name) = none)
    (hparent : parentDir dir = none) :
    searchUp look name dir = none := by
  rw [searchUp, h]
  dsimp only
  split
  · rfl
  · next heq =>
      rw [hparent] at heq
      cases heq
  · next heq =>
      rw [hparent] at heq
      cases heq

end Search

def couldNotFind (name start : String) : MulpError :=
  .configError ("could not find " ++ name ++ " from " ++ start)

def findFile (path : String) (files : List (String × String)) : Option ConfigDocument :=
  (files.find? (·.1 == path)).map fun item => ⟨item.1, item.2⟩

def discoverConfig (cwd : String) (files : List (String × String)) :
    Option (Except MulpError ConfigDocument) := do
  let start ← normalizeDir cwd
  match ← searchUp (fun _ candidate => findFile candidate files) defaultConfigFileName start with
  | some found => some (.ok found)
  | none => some (.error (couldNotFind defaultConfigFileName start))

/-- What came of a search: a document with the path that it was found at, or the error that there is
none. -/
def searched {α : Type} (name start : String) : Option α → Except MulpError α
  | some found => .ok found
  | none => .error (couldNotFind name start)

theorem discoverConfig_eq (cwd : String) (files : List (String × String)) :
    discoverConfig cwd files =
    (searchUp (fun _ candidate => findFile candidate files) defaultConfigFileName
      (trimSlash cwd)).map
      (searched defaultConfigFileName (trimSlash cwd)) := by
  rw [discoverConfig, normalizeDir_eq, Option.bind_eq_bind, Option.bind_some]
  rcases searchUp _ _ _ with _ | _ | found <;> rfl

def joinPath (dir path : String) : Option String :=
  if hasPrefix path "/" then some path
  else if dir = "/" then some ("/" ++ path)
  else (normalizeDir dir).map (· ++ "/" ++ path)

def couldNotRead (path : String) : MulpError := .configError ("could not read config: " ++ path)

def loadConfig (cwd : String) (configPath : Option String) (files : List (String × String)) :
    Option (Except MulpError ConfigDocument) :=
  match configPath with
  | some path => do
      let resolved ← joinPath cwd path
      match findFile resolved files with
      | some found => some (.ok found)
      | none => some (.error (couldNotRead resolved))
  | none => discoverConfig cwd files

/-! ## On the disk -/

/-- One segment of `normalize_path`. -/
def pushSegment (parts : List String) (segment : String) : List String :=
  if segment = "" ∨ segment = "." then parts
  else if segment = ".." then parts.dropLast
  else parts ++ [segment]

def normalizePath (path : String) : String :=
  let joined := joinSlash ((splitSlash path).foldl pushSegment [])
  if hasPrefix path "/" then "/" ++ joined else joined

def joinConfigPath (cwd path : String) : Option String :=
  if hasPrefix path "/" then some (normalizePath path)
  else (normalizeDir cwd).map fun dir => normalizePath (dir ++ "/" ++ path)

section Disk

/- What `read_text_file` gives for each path. -/
variable (read : String → Except MulpError String)

def discoverRealConfig (cwd : String) : Option (Except MulpError ConfigDocument) := do
  let start ← normalizeDir cwd
  match ← searchUp (fun _ candidate => (read candidate).toOption.map (ConfigDocument.mk candidate))
      defaultConfigFileName start with
  | some found => some (.ok found)
  | none => some (.error (couldNotFind defaultConfigFileName start))

def discoverMoonRoot (cwd : String) : Option (Except MulpError String) := do
  let start ← normalizeDir cwd
  match ← searchUp (fun dir candidate => (read candidate).toOption.map fun _ => dir) "moon.mod.json"
      start with
  | some dir => some (.ok dir)
  | none => some (.error (couldNotFind "moon.mod.json" start))

theorem discoverRealConfig_eq (cwd : String) : discoverRealConfig read cwd =
    (searchUp (fun _ candidate => (read candidate).toOption.map (ConfigDocument.mk candidate))
      defaultConfigFileName (trimSlash cwd)).map
        (searched defaultConfigFileName (trimSlash cwd)) := by
  rw [discoverRealConfig, normalizeDir_eq, Option.bind_eq_bind, Option.bind_some]
  rcases searchUp _ _ _ with _ | _ | found <;> rfl

def loadRealConfig (cwd : String) (configPath : Option String) :
    Option (Except MulpError ConfigDocument) :=
  match configPath with
  | some path => do
      let resolved ← joinConfigPath cwd path
      match read resolved with
      | .ok contents => some (.ok ⟨resolved, contents⟩)
      | .error _ => some (.error (couldNotRead resolved))
  | none => discoverRealConfig read cwd

end Disk

end Mulp.Cli
