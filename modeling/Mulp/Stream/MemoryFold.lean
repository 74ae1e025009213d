import Mulp.Stream.MemoryIo

/-! The writes that a sink in memory is made of (`stream/memory_io.mbt`).

The sink keeps the bytes of each path and the list of the files it has been given. What
it holds at a path is the fold of the writes to it, in which an overwriting one forgets
those before. -/
namespace Mulp.Stream

open Mulp.Core Pull

/-! ## Writes -/

/-- Bytes written to a path. -/
structure Write where
  path : String
  mode : WriteMode
  bytes : Bytes

namespace Write

def apply (contents : String → Option Bytes) (write : Write) : String → Option Bytes :=
  Function.update contents write.path
    (some (MemoryDest.appendBytes (contents write.path) write.bytes write.mode))

/-- The writes from the last overwrite on; all of them if there is none. -/
def last : List Write → List Write
  | [] => []
  | write :: rest => if rest.any (·.mode = .overwrite) then last rest else write :: rest

/-- What a path holds after the writes: nothing if there were none to it. -/
def held (path : String) (writes : List Write) : Option Bytes :=
  let here := writes.filter (·.path = path)
  if here = [] then none else some ((last here).flatMap (·.bytes))

theorem last_concat (writes : List Write) (write : Write) :
    last (writes ++ [write]) =
      if write.mode = .overwrite then [write] else last writes ++ [write] := by
  induction writes with
  | nil => simp [last]
  | cons first rest ih =>
      rw [List.cons_append, last, ih]
      by_cases hmode : write.mode = .overwrite
      · simp [hmode]
      · by_cases hrest : rest.any (·.mode = .overwrite) = true
        · simp [hmode, last, hrest]
        · simp [hmode, last, hrest]

theorem held_concat_self (writes : List Write) (write : Write) :
    held write.path (writes ++ [write]) =
      some (MemoryDest.appendBytes (held write.path writes) write.bytes write.mode) := by
  have hfilter : (writes ++ [write]).filter (·.path = write.path) =
      writes.filter (·.path = write.path) ++ [write] := by simp
  have hne : writes.filter (·.path = write.path) ++ [write] ≠ [] := by simp
  simp only [held, hfilter, if_neg hne, last_concat]
  cases hmode : write.mode with
  | overwrite => simp [MemoryDest.appendBytes]
  | append =>
      by_cases hnil : writes.filter (·.path = write.path) = []
      · simp [hnil, last, MemoryDest.appendBytes]
      · simp [hnil, MemoryDest.appendBytes]

theorem held_concat_ne {path : String} (writes : List Write) {write : Write}
    (h : write.path ≠ path) : held path (writes ++ [write]) = held path writes := by
  have hfilter : (writes ++ [write]).filter (·.path = path) = writes.filter (·.path = path) := by
    simp [h]
  simp only [held, hfilter]

/-- The contents are a fold of the writes. -/
theorem foldl_apply (writes : List Write) (path : String) :
    writes.foldl apply (fun _ => none) path = held path writes := by
  induction writes using List.reverseRecOn with
  | nil => rfl
  | append_singleton writes write ih =>
      rw [List.foldl_concat, apply]
      by_cases hpath : write.path = path
      · subst hpath
        rw [Function.update_self, ih, held_concat_self]
      · rw [Function.update_of_ne (Ne.symm hpath), ih, held_concat_ne writes hpath]

end Write

/-! ## Attempts -/

/-- One file that a transform has tried to write. The result is the bytes of its
contents, if they have any. -/
structure Attempt where
  input : File Nat
  transform : MemoryTransform
  result : Except MulpError (Option Bytes)

namespace Attempt

def output (a : Attempt) : File Nat := a.transform.output a.input

def failed (a : Attempt) : Bool :=
  match a.result with
  | .ok _ => false
  | .error _ => true

def reply (a : Attempt) : FileReply (File Nat) :=
  match a.result with
  | .ok _ => .ok (some a.output)
  | .error err => .error err

/-- The write of the source map, next to the file. -/
def mapWrites (a : Attempt) : List Write :=
  if a.transform.sourcemaps then
    (a.output.sourceMap.map fun map =>
      ⟨a.output.path ++ ".map", a.transform.mode, utf8Encode map⟩).toList
  else []

def writes (a : Attempt) : List Write :=
  match a.result with
  | .ok bytes =>
      (bytes.map fun bytes => ⟨a.output.path, a.transform.mode, bytes⟩).toList ++ a.mapWrites
  | .error _ => []

end Attempt

/-- What an attempt makes of a sink. One that has failed makes nothing of it, and the sink is what
it was. -/
def MemoryDest.record (sink : MemoryDest) (a : Attempt) : MemoryDest where
  written := if a.failed then sink.written else sink.written ++ [a.output]
  contents := a.writes.foldl Write.apply sink.contents

section Attempts

variable {υ : Type}

/-- The bytes of the contents of a file, if they have any. -/
def contentsBytes (n : Nat) (contents : FileContents Nat) (w : MemoryWorld υ) :
    Option (Except MulpError (Option Bytes)) × MemoryWorld υ :=
  match contents with
  | .text text => (some (.ok (some (utf8Encode text))), w)
  | .buffer bytes => (some (.ok (some bytes)), w)
  | .bytes stream =>
      match w.readAllBytes n stream with
      | (none, w) => (none, w)
      | (some (.ok bytes), w) => (some (.ok (some bytes)), w)
      | (some (.error err), w) => (some (.error err), w)
  | .empty | .directory | .symlink _ => (some (.ok none), w)

/-- A transform tries to write a file. -/
def attempt (n : Nat) (transform : MemoryTransform) (input : File Nat) (w : MemoryWorld υ) :
    Option (Attempt × MemoryWorld υ) :=
  match contentsBytes n input.contents w with
  | (none, _) => none
  | (some result, w) =>
      some (⟨input, transform, result⟩, { w with sink := w.sink.record ⟨input, transform, result⟩ })

theorem writeByteContents_eq (sink : MemoryDest) (path : String) (bytes : Bytes)
    (mode : WriteMode) :
    sink.writeByteContents path bytes mode =
      { sink with contents := Write.apply sink.contents ⟨path, mode, bytes⟩ } := by
  cases mode <;> rfl

theorem writeTextContents_eq (sink : MemoryDest) (path text : String) (mode : WriteMode) :
    sink.writeTextContents path text mode =
      { sink with contents := Write.apply sink.contents ⟨path, mode, utf8Encode text⟩ } := by
  cases mode <;> rfl

theorem MemoryTransform.output_contents (transform : MemoryTransform) (input : File Nat) :
    (transform.output input).contents = input.contents := by
  have hvalue (file : File Nat) (key : String) (value : Option String) :
      (MemoryDest.withMetadataValue file key value).contents = file.contents := by
    cases value <;> rfl
  cases transform with
  | modes outDir mode dirMode =>
      simp only [output, MemoryDest.withDestModes]
      split <;> rw [hvalue]
  | _ => rfl

/-- The contents, written. -/
def MemoryDest.put (sink : MemoryDest) (path : String) (mode : WriteMode) (bytes : Option Bytes) :
    MemoryDest :=
  { sink with
    contents := (bytes.map fun bytes => (⟨path, mode, bytes⟩ : Write)).toList.foldl Write.apply
      sink.contents }

/-- The contents of a file are read and, if that has not failed, written. -/
theorem recordContents_eq (n : Nat) (file : File Nat) (mode : WriteMode) (w : MemoryWorld υ) :
    recordContents n file mode w =
      match contentsBytes n file.contents w with
      | (none, w) => (none, w)
      | (some (.error err), w) => (some (.error err), w)
      | (some (.ok bytes), w) =>
        (some (.ok ()), { w with sink := w.sink.put file.path mode bytes }) := by
  cases hcontents : file.contents with
  | text text => simp only [recordContents, hcontents, contentsBytes, writeTextContents_eq]; rfl
  | buffer bytes => simp only [recordContents, hcontents, contentsBytes, writeByteContents_eq]; rfl
  | bytes stream =>
      simp only [recordContents, hcontents, contentsBytes]
      rcases w.readAllBytes n stream with ⟨_ | _ | bytes, w'⟩
      · rfl
      · rfl
      · simp only [writeByteContents_eq]
        rfl
  | _ => simp only [recordContents, hcontents, contentsBytes]; rfl

/-- The sink after a write that has succeeded. -/
theorem recordFile_put (sink : MemoryDest) (input : File Nat) (transform : MemoryTransform)
    (bytes : Option Bytes) :
    recordFile (transform.output input) transform.mode transform.sourcemaps
        (sink.put (transform.output input).path transform.mode bytes) =
      sink.record ⟨input, transform, .ok bytes⟩ := by
  simp only [MemoryDest.record, Attempt.failed, Attempt.writes, Attempt.mapWrites, Attempt.output,
    List.foldl_append, recordFile, MemoryDest.put]
  by_cases hmaps : transform.sourcemaps = true
  · simp only [hmaps, if_true]
    cases (transform.output input).sourceMap with
    | none => rfl
    | some map => simp only [writeTextContents_eq]; rfl
  · simp only [hmaps, Bool.false_eq_true, if_false]
    rfl

/-- The pull closure makes one attempt. -/
theorem memoryDestWork_eq (n : Nat) (transform : MemoryTransform) (input : File Nat)
    (w : MemoryWorld υ) :
    memoryDestWork n (transform.output input) transform.mode transform.sourcemaps (some w) =
      match attempt n transform input w with
      | none => (.ok none, none)
      | some (a, w) => (a.reply, some w) := by
  simp only [memoryDestWork, recordContents_eq, transform.output_contents, attempt]
  rcases contentsBytes n input.contents w with ⟨_ | err | bytes, w'⟩
  · rfl
  · rfl
  · simp only [recordFile_put]
    rfl

end Attempts

/-! ## What a log of attempts makes of a sink -/

theorem foldl_record (log : List Attempt) (sink : MemoryDest) :
    log.foldl MemoryDest.record sink =
      ⟨sink.written ++ (log.filter (!·.failed)).map Attempt.output,
        (log.flatMap Attempt.writes).foldl Write.apply sink.contents⟩ := by
  induction log generalizing sink with
  | nil => simp
  | cons a log ih =>
      rw [List.foldl_cons, ih]
      by_cases hfailed : a.failed = true
      · simp [MemoryDest.record, hfailed]
      · simp [MemoryDest.record, hfailed]

/-- A failed attempt leaves the sink as it was. -/
theorem record_failed (sink : MemoryDest) {a : Attempt} (h : a.failed = true) :
    sink.record a = sink := by
  unfold MemoryDest.record Attempt.writes
  cases hresult : a.result with
  | ok bytes =>
      rw [Attempt.failed, hresult] at h
      cases h
  | error err =>
      rw [if_pos h]
      rfl

end Mulp.Stream
