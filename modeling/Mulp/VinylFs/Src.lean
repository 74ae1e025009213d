import Mulp.Stream.FileTree
import Mulp.VinylFs.DestPath
import Mulp.VinylFs.Select
import Mulp.VinylFs.Since
import Mulp.VinylFs.SrcContents

/-! Reading files that globs select (`vinyl_fs/src.mbt`).

The tree and the disk are given: the one answers what there is at a path, the other has
the bytes. `src` validates its globs, discovers the paths and reads what is selected,
and any of these may fail. -/
namespace Mulp.VinylFs

open Mulp.Core Mulp.Stream Mulp.Text Mulp.Vinyl Mulp.Platform Lexical

/-- What `src` reads from: a tree, the working directory of the process in it, the
native calls that list a directory and read a link, and the contents. -/
structure SrcWorld where
  tree : FileTree
  pwd : List String
  discoverPathsBytes : String → String
  readSymlinkBytes : String → String
  disk : Disk

/-- `join_path`, of this package. -/
def joinPath (dir rel : String) : String :=
  if rel = "" then dir
  else if hasSuffix dir "/" then dir ++ rel
  else dir ++ "/" ++ rel

/-- `text.split("\n")`. -/
def splitLines (text : String) : List String := (text.toList.splitOn '\n').map String.ofList

def discoveredPaths (w : SrcWorld) (root : String) : List String :=
  (splitLines (w.discoverPathsBytes root)).filter (· ≠ "")

/-! ## Metadata -/

/-- The part that `target_metadata` and `real_file_metadata` have in common. -/
def readMetadata (path encoded : String) : Except MulpError (List (String × String)) :=
  if encoded = "" then .error (.fileSystemError ("cannot stat path: " ++ path))
  else
    match splitLines encoded with
    | kind :: size :: mtime :: mode :: rest =>
        .ok [("kind", kind), ("size", size), ("mtime_ms", mtime), ("mode", mode),
          ("ctime_ms", rest.headD mtime)]
    | _ => .error (.fileSystemError ("cannot stat path: " ++ path))

def targetMetadata (w : SrcWorld) (path : String) : Except MulpError (List (String × String)) :=
  readMetadata path (w.tree.metadataText w.pwd path)

def realFileMetadata (w : SrcWorld) (path : String) : Except MulpError (List (String × String)) :=
  readMetadata path (w.tree.metadataText w.pwd path)

def vinylKindFromMetadata (kind : Option String) : VinylKind :=
  if kind = some "directory" then .directory
  else if kind = some "symlink" then .symbolicLink
  else .file

/-- The digit that a turn of `parse_octal_int` matches. -/
def octalDigit : Char → Option Int
  | '0' => some 0
  | '1' => some 1
  | '2' => some 2
  | '3' => some 3
  | '4' => some 4
  | '5' => some 5
  | '6' => some 6
  | '7' => some 7
  | _ => none

/-- The loop of `parse_octal_int`, in 32-bit arithmetic; it aborts like that of
`parse_int64`. -/
def parseOctalFrom (result : Int) : List Char → Option (Option Int)
  | [] => some (some result)
  | c :: rest =>
      if 0xFFFF < c.toNat then none
      else
        match octalDigit c with
        | some digit => parseOctalFrom ((result * 8 + digit).bmod (2 ^ 32)) rest
        | none => some none

def parseOctalInt (value : String) : Option (Option Int) :=
  if value = "" then some none else parseOctalFrom 0 value.toList

/-- `vinyl_stat_from_metadata`, unless it aborts. -/
def vinylStatFromMetadata (metadata : List (String × String)) : Option VinylStat :=
  let mode :=
    match metadataValue metadata "mode" with
    | some mode => parseOctalInt mode
    | none => some none
  let mtimeMs :=
    match metadataValue metadata "mtime_ms" with
    | some mtime => parseInt64 mtime
    | none => some none
  match mode, mtimeMs with
  | some mode, some mtimeMs => some ⟨vinylKindFromMetadata (metadataValue metadata "kind"), mode, mtimeMs⟩
  | _, _ => none

/-! ## One file -/

/-- The contents of `vinyl_contents_for`, a byte stream as an object: it gives the
bytes of the file chunk by chunk. -/
def sourceContents (n : Nat) (d : Disk) (path : String) (kind : Option String) (options : SrcOptions)
    (st : Store) : Option (Except MulpError (VinylContents Nat × Store)) :=
  match vinylContentsFor n d path kind options with
  | none => none
  | some (.error err) => some (.error err)
  | some (.ok .null) => some (.ok (.null, st))
  | some (.ok (.buffer bytes)) => some (.ok (.buffer bytes, st))
  | some (.ok (.stream _)) =>
      let chunks := ((d.read path).getD []).toChunks options.chunkSize.toNat
      let (i, st) := st.addStream (.chunks chunks none 0)
      some (.ok (.stream i, st))

/-- `source_map_for`; there is no answer if it has not returned. -/
def sourceMapFor (n : Nat) (d : Disk) (path : String) (options : SrcOptions) : Option (Option String) :=
  if !options.sourcemaps then some none
  else
    match fileByteStream d (path ++ ".map") options.chunkSize with
    | .error _ => some none
    | .ok bytes =>
        match (bytes.readAll n 67108864 ()).1 with
        | none => none
        | some (.ok sourceMap) => some (some sourceMap)
        | some (.error _) => some none

/-- The arguments of `vinyl_file` in `source_file_for`. -/
def sourceArgs (w : SrcWorld) (path : String) (options : SrcOptions) (metadata : List (String × String))
    (contents : VinylContents Nat) (stat : VinylStat) (sourceMap : Option String) : VinylFileArgs where
  cwd := options.cwd
  base := options.base
  path := some path
  contents
  stat := some stat
  symlink :=
    if metadataValue metadata "kind" = some "symlink" && !options.resolveSymlinks then
      some (w.readSymlinkBytes path)
    else none
  sourceMap
  metadata := if options.read then metadata else withMetadataValue metadata "vinyl_fs_read" "false"

def sourceFileFor (n : Nat) (w : SrcWorld) (rel : String) (options : SrcOptions) (st : Store) :
    Option (Except MulpError (Option (VinylFile Nat Nat) × Store)) :=
  let path := joinPath options.cwd rel
  match realFileMetadata w path with
  | .error err => some (.error err)
  | .ok linkMetadata =>
      match
        if metadataValue linkMetadata "kind" = some "symlink" && options.resolveSymlinks then
          targetMetadata w path
        else .ok linkMetadata with
      | .error err => some (.error err)
      | .ok metadata =>
          match modifiedAfter metadata options.since with
          | none => none
          | some false => some (.ok (none, st))
          | some true =>
              match sourceContents n w.disk path (metadataValue metadata "kind") options st with
              | none => none
              | some (.error err) => some (.error err)
              | some (.ok (contents, st)) =>
                  match vinylStatFromMetadata metadata, sourceMapFor n w.disk path options with
                  | some stat, some sourceMap =>
                      let (file, st) :=
                        vinylFile (sourceArgs w path options metadata contents stat sourceMap) st
                      some (.ok (some file, st))
                  | _, _ => none

/-! ## `src` -/

/-- The loop of `validate_globs`: an empty glob is refused, and one without magic has to be there,
unless the options allow that it is not. -/
def validateEach (w : SrcWorld) (options : SrcOptions) : List String → Except MulpError Unit
  | [] => .ok ()
  | glob :: rest =>
      if glob = "" then .error (.taskFailed "src" "glob must not be empty")
      else if !hasPrefix glob "!" && !hasGlobMagic glob then
        match targetMetadata w (joinPath options.cwd glob) with
        | .ok _ => validateEach w options rest
        | .error _ =>
            if options.allowEmpty then validateEach w options rest
            else .error (.fileSystemError ("file not found: " ++ glob))
      else validateEach w options rest

def validateGlobs (w : SrcWorld) (globs : List String) (options : SrcOptions) : Except MulpError Unit :=
  if globs.length = 0 then .error (.taskFailed "src" "glob array must not be empty")
  else validateEach w options globs

/-- The loop of `src` over the selected paths. -/
def sourceFiles (n : Nat) (w : SrcWorld) (options : SrcOptions) :
    List String → Store → Option (Except MulpError (List (VinylFile Nat Nat) × Store))
  | [], st => some (.ok ([], st))
  | rel :: rest, st =>
      match sourceFileFor n w rel options st with
      | none => none
      | some (.error err) => some (.error err)
      | some (.ok (found, st)) =>
          match sourceFiles n w options rest st with
          | none => none
          | some (.error err) => some (.error err)
          | some (.ok (files, st)) => some (.ok (found.toList ++ files, st))

/-- `src`: the files it makes a stream of, or the error. -/
def src (n : Nat) (w : SrcWorld) (globs : List String) (options : SrcOptions) (st : Store) :
    Option (Except MulpError (List (VinylFile Nat Nat) × Store)) :=
  match validateGlobs w globs options with
  | .error err => some (.error err)
  | .ok _ =>
      sourceFiles n w options
        (selectGlobStreamPaths (discoveredPaths w options.cwd) globs options.dot) st

end Mulp.VinylFs
