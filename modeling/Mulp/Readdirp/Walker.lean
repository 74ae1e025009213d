import Mulp.Chokidar.Path

/-! Walking a directory (`readdirp/walker.mbt`, with `types.mbt`, `filters.mbt`, `path.mbt` and what
`fs_native.mbt` asks of the system).

A walk sees the file system as it is at one moment. -/
namespace Mulp.Readdirp

open Chokidar (trimTrailingSlashes trimLeadingSlashes stripPrefix)
open Text

/-! ## Types -/

inductive EntryType where
  | files
  | directories
  | filesAndDirectories
  | all
  deriving DecidableEq

inductive FileKind where
  | file
  | directory
  | symlink
  | other
  deriving DecidableEq

structure FileStats where
  size : Int64
  mode : Int32
  deriving DecidableEq

structure EntryInfo where
  path : String
  fullPath : String
  basename : String
  kind : FileKind
  stats : Option FileStats
  deriving DecidableEq

inductive WarningKind where
  | missing
  | permissionDenied
  | tooManySymlinks
  | recursiveSymlink
  | other
  deriving DecidableEq

structure ReaddirpWarning where
  path : String
  kind : WarningKind
  message : String
  deriving DecidableEq

structure ReaddirpReport where
  entries : List EntryInfo
  warnings : List ReaddirpWarning
  deriving DecidableEq

structure Options where
  fileFilter : EntryInfo → Bool
  directoryFilter : EntryInfo → Bool
  type : EntryType
  lstat : Bool
  alwaysStat : Bool
  depth : Int32

def Options.default : Options where
  fileFilter _ := true
  directoryFilter _ := true
  type := .files
  lstat := false
  alwaysStat := false
  depth := 2147483647

/-! ## The system -/

/-- A failed call: the message of its error, and what `warning_kind_from_errno` makes of it. -/
structure Failure where
  message : String
  kind : WarningKind
  deriving DecidableEq

structure Fs where
  readDirAll : String → Except Failure (List String)
  statPath : String → Bool → Except Failure FileStats
  realPath : String → Except Failure String

def fileKindFromMode (mode : Int32) : FileKind :=
  let typeBits := mode &&& 0xF000
  if typeBits = 0x8000 then .file
  else if typeBits = 0x4000 then .directory
  else if typeBits = 0xA000 then .symlink
  else .other

/-! ## Paths -/

def normalizePath (path : String) : String :=
  let path := trimTrailingSlashes path
  if path = "" then "." else path

def joinPath (parent child : String) : String :=
  let parent := trimTrailingSlashes parent
  let child := trimLeadingSlashes child
  if parent = "" then child
  else if parent = "/" then parent ++ child
  else if child = "" then parent
  else parent ++ "/" ++ child

def relativePath (root fullPath : String) : String :=
  let root := normalizePath root
  let fullPath := normalizePath fullPath
  match stripPrefix fullPath root with
  | some path =>
      if path = "" then ""
      else if root = "/" then path
      else if hasPrefix path "/" then trimLeadingSlashes path
      else fullPath
  | none => fullPath

/-! ## The walk -/

def wantsFile (type : EntryType) : Bool :=
  match type with
  | .files | .filesAndDirectories | .all => true
  | .directories => false

def wantsDirectory (type : EntryType) : Bool :=
  match type with
  | .directories | .filesAndDirectories | .all => true
  | .files => false

def wantsOther (type : EntryType) : Bool :=
  match type with
  | .all => true
  | .files | .directories | .filesAndDirectories => false

def shouldEmit (entry : EntryInfo) (type : EntryType) : Bool :=
  match entry.kind with
  | .file => wantsFile type
  | .directory => wantsDirectory type
  | .symlink | .other => wantsOther type

def Failure.warning (failure : Failure) (path : String) : ReaddirpWarning :=
  ⟨path, failure.kind, failure.message⟩

def recursiveSymlinkWarning (path target : String) : ReaddirpWarning :=
  ⟨path, .recursiveSymlink, "recursive symlink skipped: " ++ target⟩

namespace ReaddirpReport

def empty : ReaddirpReport := ⟨[], []⟩

def append (first second : ReaddirpReport) : ReaddirpReport :=
  ⟨first.entries ++ second.entries, first.warnings ++ second.warnings⟩

/-- What is pushed for one name after the other. -/
def collect (reports : List ReaddirpReport) : ReaddirpReport :=
  ⟨reports.flatMap entries, reports.flatMap warnings⟩

def failed (failure : Failure) (path : String) : ReaddirpReport := ⟨[], [failure.warning path]⟩

end ReaddirpReport

section Walk

variable (fs : Fs) (root : String) (options : Options)

def makeEntry (fullPath basename : String) : Except Failure EntryInfo :=
  match fs.statPath fullPath (!options.lstat) with
  | .error failure => .error failure
  | .ok stats => .ok
      { path := relativePath root fullPath
        fullPath := fullPath
        basename := basename
        kind := fileKindFromMode stats.mode
        stats := if options.alwaysStat then some stats else none }

def dirIsSymlink (path : String) : Except Failure Bool :=
  match fs.statPath path false with
  | .error failure => .error failure
  | .ok stats => .ok (fileKindFromMode stats.mode = .symlink)

/-- What a walk may do with a directory: it is given the real path of it too. -/
abbrev Descend := String → List String → Except Failure ReaddirpReport

/-- A directory below the one that is walked, where the depth allows it. -/
def enter (descend : Descend) (fullPath : String) (ancestors : List String) : ReaddirpReport :=
  match fs.realPath fullPath with
  | .error failure => .failed failure fullPath
  | .ok realChild =>
      match dirIsSymlink fs fullPath with
      | .error failure => .failed failure fullPath
      | .ok isSymlink =>
          if isSymlink ∧ realChild ∈ ancestors then
            ⟨[], [recursiveSymlinkWarning fullPath realChild]⟩
          else
            match descend fullPath (ancestors ++ [realChild]) with
            | .error failure => .failed failure fullPath
            | .ok report => report

/-- What `walk_dir` does for a name: it asks for its stats, reports it if the options want it, and
goes down if it is a directory. Each of these may fail by itself and leaves a warning. -/
def visit (descend : Option Descend) (dir : String) (ancestors : List String) (name : String) :
    ReaddirpReport :=
  let fullPath := joinPath dir name
  match makeEntry fs root options fullPath name with
  | .error failure => .failed failure fullPath
  | .ok entry =>
      let emitted : ReaddirpReport := ⟨if shouldEmit entry options.type then [entry] else [], []⟩
      if entry.kind = .directory then
        if options.directoryFilter entry then
          match descend with
          | none => emitted
          | some descend => emitted.append (enter fs descend fullPath ancestors)
        else .empty
      else if options.fileFilter entry then emitted
      else .empty

def walkNames (descend : Option Descend) : Descend := fun dir ancestors =>
  match fs.readDirAll dir with
  | .error failure => .error failure
  | .ok names => .ok (.collect (names.map (visit fs root options descend dir ancestors)))

/-- `walk_dir`, by how many levels it may still go down. -/
def walkDir : Nat → Descend
  | 0 => walkNames fs root options none
  | levels + 1 => walkNames fs root options (some (walkDir levels))

end Walk

/-- `readdirp_report`, or the message of its error. -/
def readdirpReport (fs : Fs) (root : String) (options : Options) :
    Except String ReaddirpReport :=
  if root = "" then .error "root argument is required"
  else if options.depth < 0 then .error "depth must be non-negative"
  else
    match fs.realPath (normalizePath root) with
    | .error failure => .error failure.message
    | .ok absoluteRoot =>
        match fs.statPath absoluteRoot true with
        | .error failure => .error failure.message
        | .ok rootStats =>
            if fileKindFromMode rootStats.mode = .directory then
              (walkDir fs absoluteRoot options options.depth.toNatClampNeg absoluteRoot
                [absoluteRoot]).mapError Failure.message
            else .error "root must be a directory"

end Mulp.Readdirp
