import Mulp.Stream.Disk
import Mulp.Stream.FileStream
import Mulp.Text.Path
import Mulp.Vinyl.Store

/-! Writing the files of a `FileStream` to the disk (`stream/file_dest.mbt`).

A write is some calls on the disk, of which each may fail; what has been done by then
stays. The disk is a part of the world that a pipeline's callbacks act on. -/
namespace Mulp.Stream

open Mulp.Core Mulp.Text Mulp.Vinyl Pull

/-- `@utf8.encode`. -/
def utf8Encode (text : String) : Bytes := text.toList.flatMap String.utf8EncodeChar

/-- The objects and the disk that streams work on. -/
structure World where
  store : Store
  disk : Disk

/-- The file `path` cannot be written. -/
def cannotWrite (path : String) : MulpError := .fileSystemError ("cannot write file: " ++ path)

/-- The loop body of `write_real_file_stream` and `write_vinyl_stream`: a chunk
goes from stream `i` to the writer on `path`. -/
def writeTurn (n i : Nat) (path : String) (writer : Writer) (_ : Unit) (w : World) :
    Turn TaskResult × Unit × World :=
  match w.store.readNext n i with
  | (none, store) => (.stuck, (), { w with store })
  | (some (.ok (some chunk)), store) =>
      match w.disk.writerWrite writer chunk with
      | (true, disk) => (.again, (), ⟨store, disk⟩)
      | (false, disk) =>
          (.reply (.error (cannotWrite path)), (), ⟨store, (disk.writerClose writer).2⟩)
  | (some (.ok none), store) =>
      match w.disk.writerClose writer with
      | (true, disk) => (.reply (.ok ()), (), ⟨store, disk⟩)
      | (false, disk) => (.reply (.error (cannotWrite path)), (), ⟨store, disk⟩)
  | (some (.error err), store) =>
      (.reply (.error err), (), ⟨store, (w.disk.writerClose writer).2⟩)

/-- A call that ends by an answer of a native call on the disk. -/
def World.onDisk (w : World) (call : Disk → Bool × Disk) (err : MulpError) : TaskResult × World :=
  match call w.disk with
  | (true, disk) => (.ok (), { w with disk })
  | (false, disk) => (.error err, { w with disk })

def writeRealFileStream (n : Nat) (path : String) (stream : Nat) (w : World) :
    Option TaskResult × World :=
  match w.disk.openFileWriter path with
  | (.failed, disk) => (some (.error (cannotWrite path)), { w with disk })
  | (writer, disk) =>
      ((loop (writeTurn n stream path writer) n () { w with disk }).1,
        (loop (writeTurn n stream path writer) n () { w with disk }).2.2)

def writeFileContents (n : Nat) (file : File Nat) (w : World) : Option TaskResult × World :=
  match file.contents with
  | .text contents =>
      (w.onDisk (·.writeFileBytes file.path (utf8Encode contents)) (cannotWrite file.path)).map some id
  | .buffer contents =>
      (w.onDisk (·.writeFileBytes file.path contents) (cannotWrite file.path)).map some id
  | .bytes stream => writeRealFileStream n file.path stream w
  | .empty => (w.onDisk (·.writeFileBytes file.path []) (cannotWrite file.path)).map some id
  | .directory =>
      (w.onDisk (·.access (.makeDirectory file.path))
        (.fileSystemError ("cannot create directory: " ++ file.path))).map some id
  | .symlink target =>
      (w.onDisk (·.access (.makeSymlink target file.path))
        (.fileSystemError ("cannot create symlink: " ++ file.path))).map some id

def joinRealDestPath (dir rel : String) : String :=
  if hasSuffix dir "/" then dir ++ rel else dir ++ "/" ++ rel

def resolveRealDestDir (outDir : String) (cwd : Option String) : String :=
  if hasPrefix outDir "/" then outDir
  else
    match cwd with
    | some root => joinRealDestPath root outDir
    | none => outDir

def withRealDestPath {β : Type} (file : File β) (path : String) : File β := { file with path }

/-- The pull closure of `file_dest_with_options`, over worlds that are `none` once
a call has not returned. Every earlier pull has emitted the file. -/
def fileDestPull (n : Nat) (output : File Nat) (emitted : Nat) :
    Option World → FileReply (File Nat) × Option World
  | none => (.ok none, none)
  | some w =>
      if emitted ≠ 0 then (.ok none, some w)
      else
        match writeFileContents n output w with
        | (none, _) => (.ok none, none)
        | (some (.ok ()), w) => (.ok (some output), some w)
        | (some (.error err), w) => (.error err, some w)

def fileDestWithOptions (n : Nat) (outDir : String) (cwd : Option String) (input : File Nat) :
    FileStream (Option World) (File Nat) :=
  let outDir := resolveRealDestDir outDir cwd
  .fromPull (fileDestPull n (withRealDestPath input (joinRealDestPath outDir input.relativePath)))

/-- `file_dest`, the transform of a pipe. -/
def fileDest (n : Nat) (outDir : String) (input : File Nat) (w : Option World) :
    FileStream (Option World) (File Nat) × Option World :=
  (fileDestWithOptions n outDir none input, w)

end Mulp.Stream
