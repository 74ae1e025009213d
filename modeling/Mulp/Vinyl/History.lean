import Mathlib.Data.List.Chain
import Mulp.Vinyl.Store
import Mulp.Vinyl.Path

/-! The history of a vinyl file (`vinyl/file.mbt`).

The path of a file is the last entry of its history, and a rename appends one. A rename
to the path that the file has already, however it is spelled, should append none. -/
namespace Mulp.Vinyl

open Mulp.Core Mulp.Stream Mulp.Text

/-! ## Making vinyl files -/

def appendPath (history : List String) (path : String) : List String :=
  let normalized := normalizePath path
  if normalized = "" then history
  else if history.getLast? ≠ some normalized then history ++ [normalized]
  else history

/-- The arguments of `vinyl_file` with their defaults; that of `cwd` is the
current directory of the process. -/
structure VinylFileArgs where
  cwd : String
  base : String := cwd
  path : Option String := none
  history : List String := []
  contents : VinylContents Nat := .null
  stat : Option VinylStat := none
  symlink : Option String := none
  sourceMap : Option String := none
  metadata : List (String × String) := []

/-- `final_history` of `vinyl_file`. -/
def finalHistory (path : Option String) (history : List String) : List String :=
  let normalizedHistory := history.map normalizePath
  match path with
  | some value =>
      if normalizedHistory.length = 0 then
        if normalizePath value = "" then [] else [normalizePath value]
      else appendPath normalizedHistory value
  | none => normalizedHistory

def vinylFile (args : VinylFileArgs) (st : Store) : VinylFile Nat Nat × Store :=
  let ((contents, streamReplay), st) := st.prepareContents args.contents
  ({ cwd := normalizePath args.cwd
     base := normalizePath args.base
     history := finalHistory args.path args.history
     contents
     streamReplay
     stat := args.stat
     symlink := args.symlink.map normalizePath
     sourceMap := args.sourceMap
     metadata := args.metadata
     relativeCache := none }, st)

/-! ## Reading and renaming -/

/-- `last_index_of`, for a needle of one character. -/
def lastIndexOf (value : String) (needle : Char) : Option Nat :=
  value.toList.zipIdx.foldl (fun found item => if item.1 = needle then some item.2 else found) none

def joinPath (dir name : String) : String :=
  if dir = "/" then "/" ++ name
  else if hasSuffix dir "/" then dir ++ name
  else dir ++ "/" ++ name

namespace VinylFile

variable {β ρ : Type}

def path (self : VinylFile β ρ) : Option String := self.history.getLast?

def dirnameResult (self : VinylFile β ρ) : Except String String :=
  match self.path with
  | none => .error "No path specified! Can not get dirname."
  | some path =>
      match lastIndexOf path '/' with
      | some 0 => .ok "/"
      | some index => .ok (String.ofList (path.toList.take index))
      | none => .ok "."

def basenameResult (self : VinylFile β ρ) : Except String String :=
  match self.path with
  | none => .error "No path specified! Can not get basename."
  | some path =>
      match lastIndexOf path '/' with
      | some index => .ok (String.ofList (path.toList.drop (index + 1)))
      | none => .ok path

/-- `unwrap_or` on a `Result`. -/
def unwrapOr {ε α : Type} (result : Except ε α) (default : α) : α :=
  match result with
  | .ok value => value
  | .error _ => default

def dirname (self : VinylFile β ρ) : String := unwrapOr self.dirnameResult "."

def basename (self : VinylFile β ρ) : String := unwrapOr self.basenameResult ""

def extnameResult (self : VinylFile β ρ) : Except String String :=
  if self.path.isNone then .error "No path specified! Can not get extname."
  else
    match lastIndexOf self.basename '.' with
    | some 0 | none => .ok ""
    | some index => .ok (String.ofList (self.basename.toList.drop index))

def stemResult (self : VinylFile β ρ) : Except String String :=
  if self.path.isNone then .error "No path specified! Can not get stem."
  else
    match lastIndexOf self.basename '.' with
    | some 0 | none => .ok self.basename
    | some index => .ok (String.ofList (self.basename.toList.take index))

/-- `VinylFile::relative_result`, without the cache it fills. -/
def relativeResult (self : VinylFile β ρ) : Except String String :=
  match self.relativeCache with
  | some value => .ok value
  | none =>
      match self.path with
      | none => .error "No path specified! Can not get relative."
      | some path => .ok (relativeBetween self.base path)

def relative (self : VinylFile β ρ) : String := unwrapOr self.relativeResult ""

def isNull (self : VinylFile β ρ) : Bool :=
  match self.contents with
  | .null => true
  | _ => false

/-- `self.stat is Some({ kind, .. })`. -/
def hasKind (self : VinylFile β ρ) (kind : VinylKind) : Bool :=
  match self.stat with
  | some stat => stat.kind = kind
  | none => false

def isDirectory (self : VinylFile β ρ) : Bool := self.isNull && self.hasKind .directory

def isSymbolic (self : VinylFile β ρ) : Bool := self.isNull && self.hasKind .symbolicLink

def withPath (self : VinylFile β ρ) (path : String) : VinylFile β ρ :=
  { self with history := appendPath self.history path, relativeCache := none }

def withCwd (self : VinylFile β ρ) (cwd : String) : VinylFile β ρ :=
  let normalized := normalizePath cwd
  { self with
    cwd := normalized
    base := if self.base = self.cwd then normalized else self.base
    relativeCache := none }

def withBase (self : VinylFile β ρ) (base : String) : VinylFile β ρ :=
  { self with base := normalizePath base, relativeCache := none }

def withBaseDefault (self : VinylFile β ρ) : VinylFile β ρ := self.withBase self.cwd

def withSourceMap (self : VinylFile β ρ) (sourceMap : Option String) : VinylFile β ρ :=
  { self with sourceMap }

def withSymlink (self : VinylFile β ρ) (symlink : String) : VinylFile β ρ :=
  { self with symlink := some (normalizePath symlink) }

def withDirnameResult (self : VinylFile β ρ) (dirname : String) : Except String (VinylFile β ρ) :=
  match self.basenameResult with
  | .ok name => .ok (self.withPath (joinPath (normalizePath dirname) name))
  | .error _ => .error "No path specified! Can not set dirname."

def withDirname (self : VinylFile β ρ) (dirname : String) : VinylFile β ρ :=
  unwrapOr (self.withDirnameResult dirname) self

def withBasenameResult (self : VinylFile β ρ) (basename : String) : Except String (VinylFile β ρ) :=
  match self.dirnameResult with
  | .ok dir => .ok (self.withPath (joinPath dir basename))
  | .error _ => .error "No path specified! Can not set basename."

def withBasename (self : VinylFile β ρ) (basename : String) : VinylFile β ρ :=
  unwrapOr (self.withBasenameResult basename) self

def withStemResult (self : VinylFile β ρ) (stem : String) : Except String (VinylFile β ρ) :=
  match self.extnameResult with
  | .ok extname => self.withBasenameResult (stem ++ extname)
  | .error _ => .error "No path specified! Can not set stem."

def withStem (self : VinylFile β ρ) (stem : String) : VinylFile β ρ :=
  unwrapOr (self.withStemResult stem) self

def withExtnameResult (self : VinylFile β ρ) (extname : String) : Except String (VinylFile β ρ) :=
  match self.stemResult with
  | .ok stem => self.withBasenameResult (stem ++ extname)
  | .error _ => .error "No path specified! Can not set extname."

def withExtname (self : VinylFile β ρ) (extname : String) : VinylFile β ρ :=
  unwrapOr (self.withExtnameResult extname) self

def withContents (self : VinylFile Nat Nat) (contents : VinylContents Nat) (st : Store) :
    VinylFile Nat Nat × Store :=
  let ((contents, streamReplay), st) := st.prepareContents contents
  ({ self with contents, streamReplay }, st)

/-- `VinylFile::clone` in a store; `deep` is ignored. -/
def cloneIn (self : VinylFile Nat Nat) (contents _deep : Bool) (st : Store) :
    VinylFile Nat Nat × Store :=
  match self.contents, self.streamReplay with
  | .stream _, some replay =>
      let (reader, st) := st.addStream (.reader replay 0)
      ({ self with contents := .stream reader }, st)
  | .buffer bytes, _ => if contents then ({ self with contents := .buffer bytes }, st) else (self, st)
  | _, _ => (self, st)

end VinylFile

/-! ## Edits -/

/-- A call that makes a vinyl file from another one. -/
inductive Edit where
  | withPath (path : String)
  | withCwd (cwd : String)
  | withBase (base : String)
  | withBaseDefault
  | withContents (contents : VinylContents Nat)
  | withSymlink (symlink : String)
  | withSourceMap (sourceMap : Option String)
  | withDirname (dirname : String)
  | withBasename (basename : String)
  | withStem (stem : String)
  | withExtname (extname : String)
  | clone (contents deep : Bool)

def Edit.apply (self : VinylFile Nat Nat) (st : Store) : Edit → VinylFile Nat Nat × Store
  | .withPath path => (self.withPath path, st)
  | .withCwd cwd => (self.withCwd cwd, st)
  | .withBase base => (self.withBase base, st)
  | .withBaseDefault => (self.withBaseDefault, st)
  | .withContents contents => self.withContents contents st
  | .withSymlink symlink => (self.withSymlink symlink, st)
  | .withSourceMap sourceMap => (self.withSourceMap sourceMap, st)
  | .withDirname dirname => (self.withDirname dirname, st)
  | .withBasename basename => (self.withBasename basename, st)
  | .withStem stem => (self.withStem stem, st)
  | .withExtname extname => (self.withExtname extname, st)
  | .clone contents deep => self.cloneIn contents deep st

def Edit.run (edits : List Edit) (s : VinylFile Nat Nat × Store) : VinylFile Nat Nat × Store :=
  edits.foldl (fun s edit => edit.apply s.1 s.2) s

/-- A history as `append_path` keeps it: every entry is a step to another path. `vinyl_file` takes
the history of its caller as it is and appends to that, so the first entries need not be so. -/
structure Kept (history : List String) : Prop where
  nonempty : ∀ entry ∈ history, entry ≠ ""
  moves : history.IsChain (· ≠ ·)

/-- The fields that hold normalized paths. -/
structure Normalized {β ρ : Type} (file : VinylFile β ρ) : Prop where
  cwd : normalizePath file.cwd = file.cwd
  base : normalizePath file.base = file.base
  symlink : ∀ target ∈ file.symlink, normalizePath target = target
  history : ∀ entry ∈ file.history, normalizePath entry = entry

/-- The representation invariant of a vinyl file, with what it says of `path()` and of a rename to
the path the file has. Both need the whole history to be kept, since the last entry is what they
look at and any entry may come to be the last one. -/
structure WellKept {β ρ : Type} (file : VinylFile β ρ) : Prop where
  normalized : Normalized file
  kept : Kept file.history
  path_ne : file.path ≠ some ""
  rename : ∀ path, file.path = some (normalizePath path) →
    (file.withPath path).history = file.history

theorem appendPath_eq_or (history : List String) (path : String) :
    appendPath history path = history ∨
      appendPath history path = history ++ [normalizePath path] ∧ normalizePath path ≠ "" ∧
        history.getLast? ≠ some (normalizePath path) := by
  simp only [appendPath]
  split_ifs with hempty hlast
  · exact .inl rfl
  · exact .inr ⟨rfl, hempty, hlast⟩
  · exact .inl rfl

/-- Appending a path neither breaks nor mends a history. -/
theorem kept_appendPath {history : List String} (path : String) :
    Kept (appendPath history path) ↔ Kept history := by
  rcases appendPath_eq_or history path with h | ⟨h, hempty, hlast⟩
  · rw [h]
  · rw [h]
    constructor
    · intro hkept
      exact ⟨fun entry hentry => hkept.nonempty entry (List.mem_append_left _ hentry),
        (List.isChain_append.mp hkept.moves).1⟩
    · intro hkept
      constructor
      · intro entry hentry
        rcases List.mem_append.mp hentry with hentry | hentry
        · exact hkept.nonempty entry hentry
        · rw [List.mem_singleton.mp hentry]
          exact hempty
      · refine List.isChain_append.mpr ⟨hkept.moves, List.isChain_singleton _, ?_⟩
        rintro last hmem _ (rfl | _) rfl
        exact hlast hmem

theorem normalized_appendPath {history : List String} (path : String)
    (h : ∀ entry ∈ history, normalizePath entry = entry) :
    ∀ entry ∈ appendPath history path, normalizePath entry = entry := by
  intro entry hentry
  rcases appendPath_eq_or history path with happend | ⟨happend, -, -⟩
  · exact h entry (happend ▸ hentry)
  · rw [happend] at hentry
    rcases List.mem_append.mp hentry with hentry | hentry
    · exact h entry hentry
    · rw [List.mem_singleton.mp hentry, normalizePath_idem]

theorem finalHistory_some (path : String) (history : List String) :
    finalHistory (some path) history = appendPath (history.map normalizePath) path := by
  cases history with
  | nil =>
      simp only [finalHistory, appendPath, List.map_nil, List.length_nil, if_true]
      split_ifs <;> simp_all
  | cons entry rest => rfl

theorem kept_finalHistory (path : Option String) (history : List String) :
    Kept (finalHistory path history) ↔ Kept (history.map normalizePath) := by
  cases path with
  | none => rfl
  | some path => rw [finalHistory_some, kept_appendPath]

theorem Normalized.withPath {β ρ : Type} {self : VinylFile β ρ} (h : Normalized self)
    (path : String) :
    Normalized (self.withPath path) :=
  ⟨h.cwd, h.base, h.symlink, normalized_appendPath path h.history⟩

/-- The file as it is, or renamed. -/
def Renamed {β ρ : Type} (self file : VinylFile β ρ) : Prop :=
  file = self ∨ ∃ path, file = self.withPath path

section Renamed

variable {β ρ : Type} {self file : VinylFile β ρ}

theorem renamed_unwrapOr {result : Except String (VinylFile β ρ)}
    (h : ∀ file, result = .ok file → ∃ path, file = self.withPath path) :
    Renamed self (VinylFile.unwrapOr result self) := by
  cases result with
  | error _ => exact .inl rfl
  | ok file => exact .inr (h file rfl)

theorem withDirnameResult_ok {dirname : String} (h : self.withDirnameResult dirname = .ok file) :
    ∃ path, file = self.withPath path := by
  rw [VinylFile.withDirnameResult] at h
  split at h
  · cases h
    exact ⟨_, rfl⟩
  · cases h

theorem withBasenameResult_ok {basename : String}
    (h : self.withBasenameResult basename = .ok file) :
    ∃ path, file = self.withPath path := by
  rw [VinylFile.withBasenameResult] at h
  split at h
  · cases h
    exact ⟨_, rfl⟩
  · cases h

theorem withStemResult_ok {stem : String} (h : self.withStemResult stem = .ok file) :
    ∃ path, file = self.withPath path := by
  rw [VinylFile.withStemResult] at h
  split at h
  · exact withBasenameResult_ok h
  · cases h

theorem withExtnameResult_ok {extname : String} (h : self.withExtnameResult extname = .ok file) :
    ∃ path, file = self.withPath path := by
  rw [VinylFile.withExtnameResult] at h
  split at h
  · exact withBasenameResult_ok h
  · cases h

theorem Renamed.normalized (h : Renamed self file) (hself : Normalized self) : Normalized file := by
  rcases h with rfl | ⟨path, rfl⟩
  · exact hself
  · exact hself.withPath path

theorem Renamed.kept (h : Renamed self file) : Kept file.history ↔ Kept self.history := by
  rcases h with rfl | ⟨path, rfl⟩
  · rfl
  · exact kept_appendPath path

end Renamed

/-- An edit renames the file, or leaves its history alone. -/
theorem Edit.apply_cases (edit : Edit) (self : VinylFile Nat Nat) (st : Store) :
    Renamed self (edit.apply self st).1 ∨ (edit.apply self st).1.history = self.history := by
  cases edit with
  | withPath path => exact .inl (.inr ⟨path, rfl⟩)
  | withCwd cwd => exact .inr rfl
  | withBase base => exact .inr rfl
  | withBaseDefault => exact .inr rfl
  | withContents contents => exact .inr rfl
  | withSymlink symlink => exact .inr rfl
  | withSourceMap sourceMap => exact .inr rfl
  | withDirname dirname => exact .inl (renamed_unwrapOr fun _ => withDirnameResult_ok)
  | withBasename basename => exact .inl (renamed_unwrapOr fun _ => withBasenameResult_ok)
  | withStem stem => exact .inl (renamed_unwrapOr fun _ => withStemResult_ok)
  | withExtname extname => exact .inl (renamed_unwrapOr fun _ => withExtnameResult_ok)
  | clone contents deep =>
      right
      simp only [Edit.apply, VinylFile.cloneIn]
      split
      · rfl
      · split_ifs <;> rfl
      · rfl

theorem Edit.kept_apply (edit : Edit) (self : VinylFile Nat Nat) (st : Store) :
    Kept (edit.apply self st).1.history ↔ Kept self.history := by
  rcases edit.apply_cases self st with h | h
  · exact h.kept
  · rw [h]

theorem Edit.normalized_apply (edit : Edit) {self : VinylFile Nat Nat} (h : Normalized self)
    (st : Store) : Normalized (edit.apply self st).1 := by
  obtain ⟨hcwd, hbase, hsymlink, hhistory⟩ := h
  cases edit with
  | withPath path => exact ⟨hcwd, hbase, hsymlink, normalized_appendPath path hhistory⟩
  | withCwd cwd =>
      refine ⟨normalizePath_idem cwd, ?_, hsymlink, hhistory⟩
      -- the base follows the directory if it was the same
      simp only [Edit.apply, VinylFile.withCwd]
      split_ifs
      · exact normalizePath_idem cwd
      · exact hbase
  | withBase base => exact ⟨hcwd, normalizePath_idem base, hsymlink, hhistory⟩
  | withBaseDefault => exact ⟨hcwd, normalizePath_idem self.cwd, hsymlink, hhistory⟩
  | withContents contents => exact ⟨hcwd, hbase, hsymlink, hhistory⟩
  | withSymlink symlink =>
      refine ⟨hcwd, hbase, ?_, hhistory⟩
      rintro target (rfl | _)
      exact normalizePath_idem symlink
  | withSourceMap sourceMap => exact ⟨hcwd, hbase, hsymlink, hhistory⟩
  | withDirname dirname =>
      exact (renamed_unwrapOr fun _ => withDirnameResult_ok).normalized
        ⟨hcwd, hbase, hsymlink, hhistory⟩
  | withBasename basename =>
      exact (renamed_unwrapOr fun _ => withBasenameResult_ok).normalized
        ⟨hcwd, hbase, hsymlink, hhistory⟩
  | withStem stem =>
      exact (renamed_unwrapOr fun _ => withStemResult_ok).normalized
        ⟨hcwd, hbase, hsymlink, hhistory⟩
  | withExtname extname =>
      exact (renamed_unwrapOr fun _ => withExtnameResult_ok).normalized
        ⟨hcwd, hbase, hsymlink, hhistory⟩
  | clone contents deep =>
      simp only [Edit.apply, VinylFile.cloneIn]
      split
      · exact ⟨hcwd, hbase, hsymlink, hhistory⟩
      · split_ifs <;> exact ⟨hcwd, hbase, hsymlink, hhistory⟩
      · exact ⟨hcwd, hbase, hsymlink, hhistory⟩

theorem Edit.kept_run (edits : List Edit) (s : VinylFile Nat Nat × Store) :
    Kept (Edit.run edits s).1.history ↔ Kept s.1.history := by
  induction edits generalizing s with
  | nil => rfl
  | cons edit rest ih => exact (ih (edit.apply s.1 s.2)).trans (edit.kept_apply s.1 s.2)

theorem Edit.normalized_run (edits : List Edit) {s : VinylFile Nat Nat × Store}
    (h : Normalized s.1) : Normalized (Edit.run edits s).1 := by
  induction edits generalizing s with
  | nil => exact h
  | cons edit rest ih => exact ih (edit.normalized_apply h s.2)

theorem normalized_vinylFile (args : VinylFileArgs) (st : Store) :
    Normalized (vinylFile args st).1 := by
  have hmap : ∀ entry ∈ args.history.map normalizePath, normalizePath entry = entry := by
    intro entry hentry
    obtain ⟨given, -, rfl⟩ := List.mem_map.mp hentry
    exact normalizePath_idem given
  refine ⟨normalizePath_idem args.cwd, normalizePath_idem args.base, ?_, ?_⟩
  · intro target htarget
    obtain ⟨given, -, rfl⟩ := Option.map_eq_some_iff.mp htarget
    exact normalizePath_idem given
  · show ∀ entry ∈ finalHistory args.path args.history, normalizePath entry = entry
    cases args.path with
    | none => exact hmap
    | some path =>
        rw [finalHistory_some]
        exact normalized_appendPath path hmap

/-- What a history given to `vinyl_file` must be to be kept. -/
theorem kept_map_normalizePath (history : List String) :
    Kept (history.map normalizePath) ↔
      (∀ entry ∈ history, entry ≠ "") ∧ history.IsChain fun a b => location a ≠ location b := by
  have hnonempty : (∀ entry ∈ history.map normalizePath, entry ≠ "") ↔
      ∀ entry ∈ history, entry ≠ "" := by
    simp [normalizePath_eq_empty]
  have hmoves (h : ∀ entry ∈ history, entry ≠ "") :
      (history.map normalizePath).IsChain (· ≠ ·) ↔
        history.IsChain fun a b => location a ≠ location b := by
    rw [List.isChain_map]
    constructor
    · refine List.IsChain.imp_of_mem_imp fun a b ha hb hne => ?_
      exact mt (normalizePath_inj (h a ha) (h b hb)).mpr hne
    · refine List.IsChain.imp_of_mem_imp fun a b ha hb hne => ?_
      exact mt (normalizePath_inj (h a ha) (h b hb)).mp hne
  constructor
  · rintro ⟨hentries, hchain⟩
    exact ⟨hnonempty.mp hentries, (hmoves (hnonempty.mp hentries)).mp hchain⟩
  · rintro ⟨hentries, hchain⟩
    exact ⟨hnonempty.mpr hentries, (hmoves hentries).mpr hchain⟩

theorem Kept.wellKept {β ρ : Type} {file : VinylFile β ρ} (h : Kept file.history)
    (hnormalized : Normalized file) : WellKept file where
  normalized := hnormalized
  kept := h
  path_ne := fun hpath => h.nonempty "" (List.mem_of_getLast? hpath) rfl
  rename := by
    intro path hpath
    rcases appendPath_eq_or file.history path with hsame | ⟨-, -, hlast⟩
    · exact hsame
    · exact absurd hpath hlast

/-- The representation invariant holds after any edits of a vinyl file exactly
when no entry of the history given to `vinyl_file` is empty and no two in a row
denote the same place. -/
theorem wellKept_run_iff (args : VinylFileArgs) (edits : List Edit) (st : Store) :
    WellKept (Edit.run edits (vinylFile args st)).1 ↔
      (∀ entry ∈ args.history, entry ≠ "") ∧
        args.history.IsChain fun a b => location a ≠ location b := by
  have hkept : Kept (Edit.run edits (vinylFile args st)).1.history ↔
      Kept (args.history.map normalizePath) :=
    (Edit.kept_run edits _).trans (kept_finalHistory args.path args.history)
  rw [← kept_map_normalizePath, ← hkept]
  constructor
  · exact WellKept.kept
  · exact fun h => h.wellKept (Edit.normalized_run edits (normalized_vinylFile args st))

/-- A history with an empty entry: `path()` is then `Some("")`. -/
theorem not_wellKept_empty_entry :
    ¬ WellKept (Edit.run [] (vinylFile { cwd := "/work", history := [""] } .empty)).1 :=
  fun h => h.path_ne rfl

end Mulp.Vinyl
