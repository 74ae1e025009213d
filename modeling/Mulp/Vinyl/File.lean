import Mulp.Stream.ByteStream

/-! Vinyl files and the streams of their clones (`vinyl/file.mbt`).

The contents of a vinyl file made from a byte stream are a reader: a byte stream
whose pull closure captures an `index` of its own and the `ReplayableStream` it
shares with the readers of all clones. Objects are referred to by number. -/
namespace Mulp.Vinyl

open Mulp.Core Mulp.Stream Pull

/-- `VinylContents`, over the type `β` of byte streams. -/
inductive VinylContents (β : Type) where
  | null
  | buffer (bytes : Bytes)
  | stream (stream : β)

inductive VinylKind where
  | file
  | directory
  | symbolicLink
  deriving DecidableEq

structure VinylStat where
  kind : VinylKind
  mode : Option Int
  mtimeMs : Option Int

/-- `VinylFile`, over the types of byte streams and of replayable streams. -/
structure VinylFile (β ρ : Type) where
  cwd : String
  base : String
  history : List String
  contents : VinylContents β
  streamReplay : Option ρ
  stat : Option VinylStat
  symlink : Option String
  sourceMap : Option String
  metadata : List (String × String)
  relativeCache : Option String

/-- `ReplayableStream`, with the answers of the calls of `source.read_next` so
far; the last one may not have returned. -/
structure ReplayableStream (ω : Type) where
  source : ByteStream ω
  cache : List Bytes
  ended : Bool
  error : Option MulpError
  reads : List (Option (Reply MulpError Bytes))

/-- A byte stream made by `ReplayableStream::reader`, by its captured `index`
and its flag, with the answers it has given. -/
structure Reader where
  index : Nat
  consumed : Bool
  replies : List (Reply MulpError Bytes)

namespace Reader

variable {ω : Type}

def fresh : Reader := ⟨0, false, []⟩

/-- The pull closure of `ReplayableStream::reader`. -/
def pull (n : Nat) (p : Reader × ReplayableStream ω) (w : ω) :
    Outcome (Reply MulpError Bytes) (Reader × ReplayableStream ω) ω :=
  let (self, replay) := p
  match replay.cache[self.index]? with
  | some chunk => (some (.ok (some chunk)), ({ self with index := self.index + 1 }, replay), w)
  | none =>
      if replay.ended then (some (.ok none), (self, replay), w)
      else
        match replay.error with
        | some err => (some (.error err), (self, replay), w)
        | none =>
            let reads := replay.reads ++ [(replay.source.readNext n w).1]
            match replay.source.readNext n w with
            | (none, source, w) => (none, (self, { replay with source, reads }), w)
            | (some (.ok (some chunk)), source, w) =>
                (some (.ok (some chunk)), ({ self with index := self.index + 1 },
                  { replay with source, cache := replay.cache ++ [chunk], reads }), w)
            | (some (.ok none), source, w) =>
                (some (.ok none), (self, { replay with source, ended := true, reads }), w)
            | (some (.error err), source, w) =>
                (some (.error err), (self, { replay with source, error := some err, reads }), w)

/-- `ByteStream::close`: a reader has no close callback. -/
def close (p : Reader × ReplayableStream ω) (w : ω) : (Reader × ReplayableStream ω) × ω :=
  (({ p.1 with consumed := true }, p.2), w)

/-- `ByteStream::read_next` on a reader. -/
def readNext (n : Nat) (p : Reader × ReplayableStream ω) (w : ω) :
    Outcome (Reply MulpError Bytes) (Reader × ReplayableStream ω) ω :=
  latched ByteStream.alreadyConsumed (fun p => p.1.consumed) close (pull n) p w

theorem readNext_closed {self : Reader} (h : self.consumed = true) (n : Nat)
    (replay : ReplayableStream ω) (w : ω) :
    readNext n (self, replay) w = (some ByteStream.alreadyConsumed, (self, replay), w) :=
  latched_closed w h

theorem readNext_open {self : Reader} (h : self.consumed = false) (n : Nat)
    (replay : ReplayableStream ω) (w : ω) :
    readNext n (self, replay) w = settled close (pull n (self, replay) w) := latched_open w h

theorem pull_agrees {n m : Nat} (hle : n ≤ m) :
    Agrees (pull n : Reader × ReplayableStream ω → ω → _) (pull m) := by
  rintro ⟨self, replay⟩ w r hr
  simp only [pull] at hr ⊢
  rcases hchunk : replay.cache[self.index]? with _ | chunk
  · rcases hended : replay.ended with _ | _
    · rcases herror : replay.error with _ | err
      · simp only [hchunk, hended, herror] at hr
        rcases hn : replay.source.readNext n w with ⟨_ | r', source, w'⟩
        · simp [hn] at hr
        · rw [ByteStream.readNext_agrees hle replay.source w r' (by rw [hn]), hn]
      · rfl
    · rfl
  · rfl

theorem readNext_agrees {n m : Nat} (hle : n ≤ m) :
    Agrees (readNext n : Reader × ReplayableStream ω → ω → _) (readNext m) :=
  latched_agrees (pull_agrees hle)

/-- The reader with the answer recorded. -/
def answered (self : Reader) (r : Reply MulpError Bytes) : Reader :=
  { self with replies := self.replies ++ [r] }

end Reader

/-- A vinyl file made from a byte stream and its clones: the files, whose stream
contents are numbers of readers, and the replayable stream they share. -/
structure Clones (ω : Type) where
  files : List (VinylFile Nat Unit)
  readers : List Reader
  replay : ReplayableStream ω

/-- `VinylFile::clone`. A stream gets a new reader, the next in number; `deep`
is ignored. -/
def VinylFile.clone (self : VinylFile Nat Unit) (contents : Bool) (readers : List Reader) :
    VinylFile Nat Unit × List Reader :=
  let (clonedContents, readers) :=
    match self.contents with
    | .stream reader =>
        match self.streamReplay with
        | some _ => (.stream readers.length, readers ++ [.fresh])
        | none => (.stream reader, readers)
    | .buffer bytes => if contents then (.buffer bytes, readers) else (self.contents, readers)
    | .null => (.null, readers)
  ({ self with contents := clonedContents }, readers)

inductive CloneOp where
  | clone (file : Nat) (contents : Bool)
  | readNext (file : Nat)

namespace Clones

variable {ω : Type}

/-- `read_next` on the contents of a file. -/
def read (n : Nat) (s : Clones ω) (file : VinylFile Nat Unit) (w : ω) :
    Outcome (Reply MulpError Bytes) (Clones ω) ω :=
  match file.contents with
  | .stream i =>
      match s.readers[i]? with
      | some reader =>
          match Reader.readNext n (reader, s.replay) w with
          | (none, (reader, replay), w) =>
              (none, { s with readers := s.readers.set i reader, replay }, w)
          | (some r, (reader, replay), w) =>
              (some r, { s with readers := s.readers.set i (reader.answered r), replay }, w)
      | none => (none, s, w)
  | _ => (none, s, w)

/-- The `clone` of a file, which comes after all others. -/
def clone (s : Clones ω) (file : VinylFile Nat Unit) (contents : Bool) : Clones ω :=
  let (copy, readers) := file.clone contents s.readers
  { s with files := s.files ++ [copy], readers }

/-- A sequence of clones and reads by the numbers of the files; one of a file
that there is not does nothing. A read that has not returned is the last one. -/
def run (n : Nat) : List CloneOp → Clones ω → ω → Outcome Unit (Clones ω) ω
  | [], s, w => (some (), s, w)
  | .clone i contents :: ops, s, w =>
      match s.files[i]? with
      | some file => run n ops (s.clone file contents) w
      | none => run n ops s w
  | .readNext i :: ops, s, w =>
      match s.files[i]? with
      | some file =>
          match s.read n file w with
          | (none, s, w) => (none, s, w)
          | (some _, s, w) => run n ops s w
      | none => run n ops s w

end Clones

end Mulp.Vinyl
