import Mathlib.Logic.Function.Basic
import Mulp.Stream.FileBytes
import Mulp.Stream.FileDest
import Mulp.Stream.OnceEach

/-! A destination in memory (`stream/memory_io.mbt`).

The byte streams of files are objects with mutable fields, referred to by number.
Callbacks of the streams act on a world `υ` of their own. -/
namespace Mulp.Stream

open Mulp.Core Mulp.Text Pull

inductive WriteMode where
  | overwrite
  | append
  deriving DecidableEq

/-- `MemoryDest`; its map is seen through lookups. -/
structure MemoryDest where
  written : List (File Nat)
  contents : String → Option Bytes

namespace MemoryDest

/-- `memory_dest`. -/
def empty : MemoryDest := ⟨[], fun _ => none⟩

def files (self : MemoryDest) : List (File Nat) := self.written

def contentsBytesFor (self : MemoryDest) (path : String) : Option Bytes := self.contents path

def set (self : MemoryDest) (path : String) (bytes : Bytes) : MemoryDest :=
  { self with contents := Function.update self.contents path (some bytes) }

def appendBytes (previous : Option Bytes) (contents : Bytes) (writeMode : WriteMode) : Bytes :=
  match writeMode with
  | .overwrite => contents
  | .append =>
      match previous with
      | some before => before ++ contents
      | none => contents

def writeByteContents (self : MemoryDest) (path : String) (contents : Bytes) (writeMode : WriteMode) :
    MemoryDest :=
  match writeMode with
  | .overwrite => self.set path contents
  | .append => self.set path (appendBytes (self.contents path) contents .append)

def writeTextContents (self : MemoryDest) (path contents : String) (writeMode : WriteMode) :
    MemoryDest :=
  let encoded := utf8Encode contents
  match writeMode with
  | .overwrite => self.set path encoded
  | .append => self.set path (appendBytes (self.contents path) encoded .append)

def joinPath (dir rel : String) : String :=
  if hasSuffix dir "/" then dir ++ rel else dir ++ "/" ++ rel

def withPath (file : File Nat) (path : String) : File Nat := { file with path }

def withMetadataValue (file : File Nat) (key : String) (value : Option String) : File Nat :=
  match value with
  | none => file
  | some next =>
      let metadata := file.metadata.map fun item => if item.1 = key then (key, next) else item
      let replaced := file.metadata.any fun item => item.1 = key
      { file with metadata := if replaced then metadata else metadata ++ [(key, next)] }

def withDestModes (file : File Nat) (mode dirMode : Option String) : File Nat :=
  match file.contents with
  | .directory => withMetadataValue file "mode" dirMode
  | _ => withMetadataValue file "mode" mode

end MemoryDest

/-- The byte streams, what they act on, and the sink. -/
structure MemoryWorld (υ : Type) where
  streams : List (ByteStream υ)
  user : υ
  sink : MemoryDest

variable {υ : Type}

/-- `max_bytes` of `record_contents`. -/
def maxBytes : Int := 16 * 1024 * 1024

/-- `read_all_bytes` on a stream; there is no answer if it has not returned. -/
def MemoryWorld.readAllBytes (n i : Nat) (w : MemoryWorld υ) :
    Option (Except MulpError Bytes) × MemoryWorld υ :=
  match w.streams[i]? with
  | none => (none, w)
  | some stream =>
      match stream.readAllBytes n maxBytes w.user with
      | (r, stream, user) => (r, { w with streams := w.streams.set i stream, user })

def recordContents (n : Nat) (file : File Nat) (writeMode : WriteMode) (w : MemoryWorld υ) :
    Option TaskResult × MemoryWorld υ :=
  match file.contents with
  | .buffer contents =>
      (some (.ok ()), { w with sink := w.sink.writeByteContents file.path contents writeMode })
  | .text contents =>
      (some (.ok ()), { w with sink := w.sink.writeTextContents file.path contents writeMode })
  | .bytes stream =>
      match w.readAllBytes n stream with
      | (none, w) => (none, w)
      | (some (.ok contents), w) =>
          (some (.ok ()), { w with sink := w.sink.writeByteContents file.path contents writeMode })
      | (some (.error err), w) => (some (.error err), w)
  | .empty | .directory | .symlink _ => (some (.ok ()), w)

/-- `sink.written.push`, and the source map if there is one to write. -/
def recordFile (output : File Nat) (writeMode : WriteMode) (sourcemaps : Bool) (sink : MemoryDest) :
    MemoryDest :=
  let sink := { sink with written := sink.written ++ [output] }
  if sourcemaps then
    match output.sourceMap with
    | some map => sink.writeTextContents (output.path ++ ".map") map writeMode
    | none => sink
  else sink

/-- The first call of the pull closure of `dest_with_write_mode_and_sourcemaps`,
over worlds that are `none` once a call has not returned. -/
def memoryDestWork (n : Nat) (output : File Nat) (writeMode : WriteMode) (sourcemaps : Bool) :
    Option (MemoryWorld υ) → FileReply (File Nat) × Option (MemoryWorld υ)
  | none => (.ok none, none)
  | some w =>
      match recordContents n output writeMode w with
      | (none, _) => (.ok none, none)
      | (some (.ok ()), w) =>
          (.ok (some output), some { w with sink := recordFile output writeMode sourcemaps w.sink })
      | (some (.error err), w) => (.error err, some w)

def destWithWriteModeAndSourcemaps (n : Nat) (outDir : String) (writeMode : WriteMode)
    (sourcemaps : Bool) (input : File Nat) :
    FileStream (Option (MemoryWorld υ)) (File Nat) :=
  let output := MemoryDest.withPath input (MemoryDest.joinPath outDir input.relativePath)
  .fromPull (oncePull (memoryDestWork n output writeMode sourcemaps))

/-- `dest_with_options`. -/
def memoryDestWithOptions (n : Nat) (outDir : String) (sourcemaps : Bool) (input : File Nat) :
    FileStream (Option (MemoryWorld υ)) (File Nat) :=
  destWithWriteModeAndSourcemaps n outDir .overwrite sourcemaps input

def destWithWriteMode (n : Nat) (outDir : String) (writeMode : WriteMode) (input : File Nat) :
    FileStream (Option (MemoryWorld υ)) (File Nat) :=
  destWithWriteModeAndSourcemaps n outDir writeMode false input

/-- `dest_with_modes`; it writes no source maps. -/
def destWithModes (n : Nat) (outDir : String) (mode dirMode : Option String) (input : File Nat) :
    FileStream (Option (MemoryWorld υ)) (File Nat) :=
  let output := MemoryDest.withDestModes
    (MemoryDest.withPath input (MemoryDest.joinPath outDir input.relativePath)) mode dirMode
  .fromPull (oncePull (memoryDestWork n output .overwrite false))

/-- A transform into a sink in memory: one of the functions that make one, with its arguments. -/
inductive MemoryTransform where
  | options (outDir : String) (sourcemaps : Bool)
  | writeMode (outDir : String) (mode : WriteMode)
  | modes (outDir : String) (mode dirMode : Option String)
  | writeModeAndSourcemaps (outDir : String) (mode : WriteMode) (sourcemaps : Bool)

namespace MemoryTransform

def stream (n : Nat) (input : File Nat) :
    MemoryTransform → FileStream (Option (MemoryWorld υ)) (File Nat)
  | options outDir sourcemaps => memoryDestWithOptions n outDir sourcemaps input
  | writeMode outDir mode => destWithWriteMode n outDir mode input
  | modes outDir mode dirMode => destWithModes n outDir mode dirMode input
  | writeModeAndSourcemaps outDir mode sourcemaps =>
      destWithWriteModeAndSourcemaps n outDir mode sourcemaps input

/-- The file that is written. -/
def output (input : File Nat) : MemoryTransform → File Nat
  | options outDir _ | writeMode outDir _ | writeModeAndSourcemaps outDir _ _ =>
      { input with path := MemoryDest.joinPath outDir input.relativePath }
  | modes outDir mode dirMode =>
      MemoryDest.withDestModes { input with path := MemoryDest.joinPath outDir input.relativePath }
        mode dirMode

def mode : MemoryTransform → WriteMode
  | options _ _ | modes _ _ _ => .overwrite
  | writeMode _ mode | writeModeAndSourcemaps _ mode _ => mode

def sourcemaps : MemoryTransform → Bool
  | options _ sourcemaps | writeModeAndSourcemaps _ _ sourcemaps => sourcemaps
  | writeMode _ _ | modes _ _ _ => false

theorem stream_eq (n : Nat) (input : File Nat) (transform : MemoryTransform) :
    transform.stream n input =
      (.fromPull (oncePull (memoryDestWork n (transform.output input) transform.mode
        transform.sourcemaps)) : FileStream (Option (MemoryWorld υ)) (File Nat)) := by
  cases transform <;> rfl

end MemoryTransform

end Mulp.Stream
