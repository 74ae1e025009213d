import Mulp.Through2.Vinyl
import Mulp.VinylFs.Codecs
import Mulp.VinylFs.SourceMap

/-! Writing vinyl files to the disk (`vinyl_fs/dest.mbt`).

The world is the disk with the store of streams, since a write may read a stream; it is
`none` once a slice has aborted, and then nothing is answered any more. -/
namespace Mulp.VinylFs

open Mulp.Core Mulp.Stream Mulp.Text Mulp.Vinyl Pull

structure DestOptions where
  cwd : String := "."
  mode : Option Int := none
  dirMode : Option Int := none
  overwrite : Bool := true
  append : Bool := false
  sourcemaps : Option String := none
  inlineSourcemaps : Bool := false
  relativeSymlinks : Bool := false
  encoding : DestEncoding := .utf8

/-! ## The file to write -/

def joinDestPath (dir rel : String) : String :=
  if rel = "" then dir
  else if hasSuffix dir "/" then dir ++ rel
  else dir ++ "/" ++ rel

def resolveDestDir (outDir cwd : String) : String :=
  if hasPrefix outDir "/" then outDir else joinDestPath cwd outDir

def destStat (input : VinylFile Nat Nat) (options : DestOptions) : Option VinylStat :=
  let kind : VinylKind :=
    if input.isDirectory then .directory else if input.isSymbolic then .symbolicLink else .file
  let mode : Option Int :=
    if input.isDirectory then
      match options.dirMode with
      | some value => some value
      | none =>
          match input.stat with
          | some stat => stat.mode
          | none => options.mode
    else
      match options.mode with
      | some value => some value
      | none =>
          match input.stat with
          | some stat => stat.mode
          | none => none
  some ⟨kind, mode, input.stat.bind (·.mtimeMs)⟩

def withMetadataValue (metadata : List (String × String)) (key value : String) :
    List (String × String) :=
  let next := metadata.map fun item => if item.1 = key then (key, value) else item
  if metadata.any fun item => item.1 = key then next else next ++ [(key, value)]

def destMetadata (input : VinylFile Nat Nat) (stat : Option VinylStat) : List (String × String) :=
  match stat with
  | some value =>
      match value.mode with
      | some mode => withMetadataValue input.metadata "mode" (toString mode)
      | none => input.metadata
  | none => input.metadata

def withDestFile (input : VinylFile Nat Nat) (options : DestOptions) (base : String) (st : Store) :
    VinylFile Nat Nat × Store :=
  let stat := destStat input options
  let args : VinylFileArgs := {
    cwd := options.cwd
    base
    path := some (joinDestPath base input.relative)
    contents := input.contents
    stat
    symlink := input.symlink
    sourceMap := input.sourceMap
    metadata := destMetadata input stat }
  vinylFile args st

def destOutputFiles (file : VinylFile Nat Nat) (options : DestOptions) (st : Store) :
    List (VinylFile Nat Nat) × Store :=
  if options.inlineSourcemaps then
    let (output, st) := inlineSourceMapFile file st
    ([output], st)
  else
    match options.sourcemaps with
    | some location =>
        match sourceMapFile file location st with
        | (some map, st) => ([file, map], st)
        | (none, st) => ([file], st)
    | none => ([file], st)

/-! ## Writing one file -/

def streamContentsFromVinyl (file : VinylFile Nat Nat) : FileContents Nat :=
  if file.isDirectory then .directory
  else if file.isSymbolic then
    match file.symlink with
    | some target => .symlink target
    | none => .empty
  else
    match file.contents with
    | .null => .empty
    | .buffer bytes => .buffer bytes
    | .stream stream => .bytes stream

/-- `file.path().unwrap_or("")`. -/
def pathText (file : VinylFile Nat Nat) : String := file.path.getD ""

def streamFileFromVinyl (file : VinylFile Nat Nat) : File Nat where
  cwd := file.cwd
  base := file.base
  path := pathText file
  contents := streamContentsFromVinyl file
  metadata := file.metadata
  sourceMap := none

def writeVinylBytes (path : String) (contents : Bytes) (options : DestOptions) (w : World) :
    Except MulpError Bool × World :=
  match w.disk.openDestWriter path options.append options.overwrite with
  | (.failed, disk) => (.error (cannotWrite path), { w with disk })
  | (.skipped, disk) => (.ok false, { w with disk := (disk.writerClose .skipped).2 })
  | (writer, disk) =>
      match disk.writerWrite writer contents with
      | (false, disk) =>
          (.error (cannotWrite path), { w with disk := (disk.writerClose writer).2 })
      | (true, disk) =>
          match disk.writerClose writer with
          | (true, disk) => (.ok true, { w with disk })
          | (false, disk) => (.error (cannotWrite path), { w with disk })

/-- `write_vinyl_stream`; there is no answer if the loop has not ended. -/
def writeVinylStream (n : Nat) (path : String) (stream : Nat) (options : DestOptions) (w : World) :
    Option (Except MulpError Bool) × World :=
  match w.disk.openDestWriter path options.append options.overwrite with
  | (.failed, disk) => (some (.error (cannotWrite path)), { w with disk })
  | (.skipped, disk) => (some (.ok false), { w with disk := (disk.writerClose .skipped).2 })
  | (writer, disk) =>
      match loop (writeTurn n stream path writer) n () { w with disk } with
      | (some (.ok ()), _, w) => (some (.ok true), w)
      | (some (.error err), _, w) => (some (.error err), w)
      | (none, _, w) => (none, w)

def writeVinylFile (n : Nat) (file : VinylFile Nat Nat) (options : DestOptions) (w : World) :
    Option (Except MulpError Bool) × World :=
  if file.isNull && !file.isDirectory && !file.isSymbolic then (some (.ok false), w)
  else if file.isSymbolic && file.symlink.isNone then
    (some (.error (.taskFailed "dest" "symbolic vinyl file is missing symlink target")), w)
  else if file.isSymbolic && !options.overwrite && w.disk.lstat (pathText file) then
    (some (.ok false), w)
  else if !file.isDirectory && !file.isSymbolic then
    match file.contents with
    | .buffer bytes =>
        (writeVinylBytes (pathText file) (encodeDestBytes bytes options.encoding) options w).map some id
    | .stream stream => writeVinylStream n (pathText file) stream options w
    | .null => (some (.ok false), w)
  else
    let stream := (FileStream.fileStream [streamFileFromVinyl file]).piped (fileDest n file.base)
    match stream.next n (some w) with
    | (some (.ok (some _)), _, some w) => (some (.ok true), w)
    | (some (.ok none), _, some w) => (some (.ok false), w)
    | (some (.error err), _, some w) => (some (.error err), w)
    | _ => (none, w)

def applyWrittenMetadata (file : VinylFile Nat Nat) (wrote : Bool) (w : World) : TaskResult × World :=
  if !wrote || file.isSymbolic then (.ok (), w)
  else
    match file.stat with
    | none => (.ok (), w)
    | some stat =>
        let path := pathText file
        let changeTime (w : World) : TaskResult × World :=
          match stat.mtimeMs with
          | some mtimeMs =>
              w.onDisk (·.access (.setMtime path mtimeMs))
                (.fileSystemError ("cannot update file time: " ++ path))
          | none => (.ok (), w)
        match stat.mode with
        | some mode =>
            match w.onDisk (·.access (.chmod path mode))
              (.fileSystemError ("cannot chmod file: " ++ path)) with
            | (.ok (), w) => changeTime w
            | (.error err, w) => (.error err, w)
        | none => changeTime w

/-- What the pull closures of `dest_with_options` and `symlink_with_options` do
with the file it is the turn of. -/
def destFile (n : Nat) (options : DestOptions) (file : VinylFile Nat Nat) (w : World) :
    Option TaskResult × World :=
  match writeVinylFile n file options w with
  | (none, w) => (none, w)
  | (some (.error err), w) => (some (.error err), w)
  | (some (.ok wrote), w) => (applyWrittenMetadata file wrote w).map some id

/-! ## The transforms -/

/-- The pull closure of the two transforms, over worlds that are `none` once a
call has not returned. Every earlier pull has emitted a file. -/
def destPull (n : Nat) (options : DestOptions) (files : List (VinylFile Nat Nat)) (index : Nat) :
    Option World → FileReply (VinylFile Nat Nat) × Option World
  | none => (.ok none, none)
  | some w =>
      match files[index]? with
      | none => (.ok none, some w)
      | some file =>
          match destFile n options file w with
          | (none, _) => (.ok none, none)
          | (some (.ok ()), w) => (.ok (some file), some w)
          | (some (.error err), w) => (.error err, some w)

def destStream (n : Nat) (options : DestOptions) (files : List (VinylFile Nat Nat)) :
    FileStream (Option World) (VinylFile Nat Nat) := .fromPull (destPull n options files)

/-- The files of `dest_with_options`. -/
def destFiles (outDir : String) (options : DestOptions) (input : VinylFile Nat Nat) (st : Store) :
    List (VinylFile Nat Nat) × Store :=
  let (prepared, st) := withDestFile input options (resolveDestDir outDir options.cwd) st
  destOutputFiles prepared options st

def destWithOptions (n : Nat) (outDir : String) (options : DestOptions) (input : VinylFile Nat Nat)
    (w : Option World) : FileStream (Option World) (VinylFile Nat Nat) × Option World :=
  match w with
  | none => (destStream n options [], none)
  | some w =>
      let (files, store) := destFiles outDir options input w.store
      (destStream n options files, some { w with store })

def dest (n : Nat) (outDir : String) :
    VinylFile Nat Nat → Option World → FileStream (Option World) (VinylFile Nat Nat) × Option World :=
  destWithOptions n outDir {}

/-- `path_parts` of `vinyl_fs/dest.mbt`. -/
def nonEmptyParts (path : String) : List String := (splitSlash path).filter (· ≠ "")

def relativePathFrom (base target : String) : String :=
  let index := commonLength (nonEmptyParts base) (nonEmptyParts target)
  let relative := List.replicate ((nonEmptyParts base).length - index) ".." ++
    (nonEmptyParts target).drop index
  if relative = [] then "." else joinSlash relative

/-- The file of `symlink_with_options`: a link at the path below the output directory, to the target
of the input if it has one, and otherwise to the path of the input. -/
def symlinkFile (outDir : String) (options : DestOptions) (input : VinylFile Nat Nat) (st : Store) :
    VinylFile Nat Nat × Store :=
  let base := resolveDestDir outDir options.cwd
  let absoluteTarget := input.symlink.getD (pathText input)
  let target :=
    if options.relativeSymlinks then relativePathFrom base absoluteTarget else absoluteTarget
  let args : VinylFileArgs := {
    cwd := options.cwd
    base
    path := some (joinDestPath base input.relative)
    contents := .null
    stat := some ⟨.symbolicLink, none, none⟩
    symlink := some target
    sourceMap := input.sourceMap
    metadata := input.metadata }
  vinylFile args st

def symlinkWithOptions (n : Nat) (outDir : String) (options : DestOptions)
    (input : VinylFile Nat Nat) (w : Option World) :
    FileStream (Option World) (VinylFile Nat Nat) × Option World :=
  match w with
  | none => (destStream n options [], none)
  | some w =>
      let (prepared, store) := symlinkFile outDir options input w.store
      (destStream n options [prepared], some { w with store })

theorem isNull_iff {file : VinylFile Nat Nat} : file.isNull = true ↔ file.contents = .null := by
  rw [VinylFile.isNull]
  cases file.contents <;> simp

theorem prepareContents_null (st : Store) (contents : VinylContents Nat) :
    (st.prepareContents contents).1.1 = .null ↔ contents = .null := by
  cases contents <;> simp [Store.prepareContents]

end Mulp.VinylFs
