import Mulp.Readdirp.Walk
import Mulp.Chokidar.Cycle

/-! The scan of a root (`chokidar/scanner.mbt`): a walk, of which every entry is asked
its stats.

The disk is what a walk needs, with a second way to ask for stats that the scanner uses
for the time of the last change. A scan fails if a warning of the walk is an error to
the options. -/
namespace Mulp.Chokidar

open Keyed Text

/-- The file system, and when what is at a path was modified. -/
structure Disk where
  fs : Readdirp.Fs
  modifiedNanosFor : String → Bool → Int64

def fileKindFromReaddirp : Readdirp.FileKind → FileKind
  | .file => .file
  | .directory => .directory
  | .symlink => .symlink
  | .other => .other

def readdirpType : Readdirp.EntryType := .filesAndDirectories

/-- Only links that lead back are passed over, and what may not be read where the options say so. -/
def warningsToError (warnings : List Readdirp.ReaddirpWarning) (options : Options) : Option String :=
  let counts (warning : Readdirp.ReaddirpWarning) : Bool :=
    warning.kind ≠ .recursiveSymlink &&
      !(options.ignorePermissionErrors && warning.kind = .permissionDenied)
  (warnings.find? counts).map fun warning =>
    "scan warning for " ++ warning.path ++ ": " ++ warning.message

namespace Disk

variable (disk : Disk) (root : String) (options : Options)

def statsFromReaddirp (entry : Readdirp.EntryInfo) (followSymlink : Bool) : Option FileStats :=
  match entry.stats with
  | some value => some ⟨value.size, value.mode, disk.modifiedNanosFor entry.fullPath followSymlink⟩
  | none => none

/-- The `readdirp_options` of `scan_snapshot`. -/
def readdirpOptions : Readdirp.Options where
  fileFilter entry :=
    let stats := disk.statsFromReaddirp entry options.followSymlinks
    let readable := options.ignorePermissionErrors ||
      match stats with
      | none => true
      | some stats => stats.mode &&& 0x100 ≠ 0
    let matchedPath := eventPathFor (joinPath root entry.path) options
    readable && !isIgnored matchedPath stats options.ignored
  directoryFilter entry :=
    let matchedPath := eventPathFor (joinPath root entry.path) options
    !isIgnored matchedPath (disk.statsFromReaddirp entry options.followSymlinks) options.ignored
  type := readdirpType
  lstat := !options.followSymlinks
  alwaysStat := true
  depth := options.depth

/-- The entry of a snapshot for one of the walk. -/
def snapshotEntry (entry : Readdirp.EntryInfo) : SnapshotEntry where
  path := entry.path
  kind := fileKindFromReaddirp entry.kind
  stats := disk.statsFromReaddirp entry options.followSymlinks

def scanSnapshot : Except String (List SnapshotEntry) :=
  match Readdirp.readdirpReport disk.fs root (disk.readdirpOptions root options) with
  | .error message => .error message
  | .ok report =>
      match warningsToError report.warnings options with
      | some message => .error message
      | none => .ok (sorted (report.entries.map (disk.snapshotEntry options)))

/-! ## What is in a snapshot -/

/-- No name is a path of its own to the watcher, which takes backslashes for slashes and drops a
`.`. A file whose name has a backslash is seen by the walk but reported under another path, so
nothing could be said of it. -/
structure Proper (disk : Disk) : Prop extends disk.fs.Proper where
  segments : ∀ {dir names}, disk.fs.readDirAll dir = .ok names →
    ∀ name ∈ names, IsSegment name ∧ name ≠ "."

/-- The entry is in the root by these names: in a directory that is reached, and let pass. This is
said of the disk alone, by the relation of a walk's reachability, and does not mention the walk or
its order. -/
def Holds (names : List String) (entry : SnapshotEntry) : Prop :=
  ∃ absoluteRoot place name found,
    disk.fs.realPath (Readdirp.normalizePath root) = .ok absoluteRoot ∧
      Readdirp.Reaches disk.fs absoluteRoot (disk.readdirpOptions root options)
        options.depth.toNatClampNeg ⟨[], [absoluteRoot]⟩ place ∧
      Readdirp.Lists disk.fs absoluteRoot (disk.readdirpOptions root options)
        (place.path absoluteRoot) name found ∧
      Readdirp.Accepts (disk.readdirpOptions root options) found ∧
      names = place.names ++ [name] ∧ entry = disk.snapshotEntry options found

variable {disk root options} {entries : List SnapshotEntry} {names : List String}

theorem stats_of_makeEntry {fs : Readdirp.Fs} {absoluteRoot path name : String}
    {options : Readdirp.Options} {found : Readdirp.EntryInfo} (halways : options.alwaysStat = true)
    (h : Readdirp.makeEntry fs absoluteRoot options path name = .ok found) :
    found.stats.isSome = true := by
  unfold Readdirp.makeEntry at h
  cases hstat : fs.statPath path (!options.lstat) with
  | error failure =>
      rw [hstat] at h
      cases h
  | ok stats =>
      rw [hstat] at h
      rw [← Except.ok.inj h]
      show (if options.alwaysStat = true then some stats else none).isSome = true
      rw [if_pos halways]
      rfl

theorem Proper.segments_of_reaches (hproper : disk.Proper) {absoluteRoot : String}
    {options : Readdirp.Options} {levels : Nat} {place : Readdirp.Place}
    (h : Readdirp.Reaches disk.fs absoluteRoot options levels ⟨[], [absoluteRoot]⟩ place) :
    ∀ name ∈ place.names, IsSegment name :=
  Readdirp.forall_of_reaches (fun hnames name hname => (hproper.segments hnames name hname).1) h
    (by simp)

variable (hproper : disk.Proper)

include hproper

theorem Holds.segments {entry : SnapshotEntry} (hholds : disk.Holds root options names entry) :
    (∀ name ∈ names, IsSegment name) ∧ names ≠ [] ∧ names ≠ ["."] := by
  obtain ⟨absoluteRoot, place, name, found, -, hreaches, ⟨listed, hlisted, hname, -⟩, -, rfl, -⟩ :=
    hholds
  have hplace := hproper.segments_of_reaches hreaches
  obtain ⟨hsegment, hdot⟩ := hproper.segments hlisted name hname
  refine ⟨?_, by simp, ?_⟩
  · intro other hother
    rcases List.mem_append.mp hother with hother | hother
    · exact hplace other hother
    · rw [List.mem_singleton.mp hother]
      exact hsegment
  · intro hsame
    have hlast := congrArg List.getLast? hsame
    rw [List.getLast?_append, List.getLast?_singleton] at hlast
    exact hdot (Option.some.inj hlast)

/-- The path of an entry is made of its names. -/
theorem Holds.path {entry : SnapshotEntry} (hholds : disk.Holds root options names entry) :
    entry.path = joinSlash names := by
  obtain ⟨absoluteRoot, place, name, found, hroot, hreaches, ⟨listed, hlisted, hname, hmade⟩, -, rfl,
    rfl⟩ := hholds
  obtain ⟨base, hbase, rfl⟩ := hproper.realPath hroot
  exact Readdirp.path_of_makeEntry hbase (fileNames (hproper.segments_of_reaches hreaches))
    (hproper.names hlisted name hname) hmade

variable (h : disk.scanSnapshot root options = .ok entries)

include h

omit hproper h

theorem Holds.stats {entry : SnapshotEntry} (hholds : disk.Holds root options names entry) :
    entry.stats.isSome = true := by
  obtain ⟨absoluteRoot, place, name, found, -, -, ⟨listed, -, -, hmade⟩, -, -, rfl⟩ := hholds
  have hstats := stats_of_makeEntry rfl hmade
  unfold snapshotEntry statsFromReaddirp
  cases hfound : found.stats with
  | none =>
      rw [hfound] at hstats
      cases hstats
  | some stats => rfl

end Disk

end Mulp.Chokidar
