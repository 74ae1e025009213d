import Mulp.Vinyl.File

/-! The objects that vinyl files share (`vinyl/file.mbt`, `stream/byte_stream.mbt`).

Byte streams and replayable streams are objects with mutable fields, referred to
by number; an object that is made comes after all others. A stream that does not
come from the program's own adapters is one of given chunks, after which it ends or
fails. -/
namespace Mulp.Vinyl

open Mulp.Core Mulp.Stream Pull

/-- What the pull closure of a byte stream has captured, by the function that
made it: `byte_stream_from_bytes`, `ReplayableStream::reader` or
`append_stream_footer`. -/
inductive Captured where
  | chunks (chunks : List Bytes) (failure : Option MulpError) (index : Nat)
  | reader (replay index : Nat)
  | footer (stream : Nat) (footer : Bytes) (footerSent : Bool)
  deriving DecidableEq

/-- A `ByteStream`: what its pull closure has captured, and whether it has been consumed. -/
structure StreamObject where
  captured : Captured
  consumed : Bool
  deriving DecidableEq

/-- A `ReplayableStream`: the stream that it reads, what it has read of that, and how that has
ended. -/
structure ReplayObject where
  source : Nat
  cache : List Bytes
  ended : Bool
  error : Option MulpError
  deriving DecidableEq

structure Store where
  streams : List StreamObject
  replays : List ReplayObject
  deriving DecidableEq

namespace Store

def empty : Store := ⟨[], []⟩

/-- A new byte stream, and its number. -/
def addStream (st : Store) (captured : Captured) : Nat × Store :=
  (st.streams.length, { st with streams := st.streams ++ [⟨captured, false⟩] })

/-- `replayable_stream`. -/
def addReplay (st : Store) (source : Nat) : Nat × Store :=
  (st.replays.length, { st with replays := st.replays ++ [⟨source, [], false, none⟩] })

def capture (st : Store) (i : Nat) (captured : Captured) : Store :=
  { st with streams := st.streams.modify i fun s => { s with captured } }

def setReplay (st : Store) (p : Nat) (f : ReplayObject → ReplayObject) : Store :=
  { st with replays := st.replays.modify p f }

/-- `ByteStream::close`: none of these streams has a close callback. -/
def close (st : Store) (i : Nat) : Store :=
  { st with streams := st.streams.modify i fun s => { s with consumed := true } }

section Fields

variable (st : Store) {i j : Nat} (captured : Captured) {p q : Nat} (f : ReplayObject → ReplayObject)

theorem capture_self {s : StreamObject} (h : st.streams[i]? = some s) :
    (st.capture i captured).streams[i]? = some { s with captured } := by
  simp [capture, h]

theorem capture_ne (h : i ≠ j) : (st.capture i captured).streams[j]? = st.streams[j]? :=
  List.getElem?_modify_ne _ _ h

@[simp] theorem capture_replays : (st.capture i captured).replays = st.replays := rfl

theorem close_self {s : StreamObject} (h : st.streams[i]? = some s) :
    (st.close i).streams[i]? = some { s with consumed := true } := by
  simp [close, h]

theorem close_ne (h : i ≠ j) : (st.close i).streams[j]? = st.streams[j]? :=
  List.getElem?_modify_ne _ _ h

@[simp] theorem close_replays : (st.close i).replays = st.replays := rfl

theorem setReplay_self {r : ReplayObject} (h : st.replays[p]? = some r) :
    (st.setReplay p f).replays[p]? = some (f r) := by
  simp [setReplay, h]

theorem setReplay_ne (h : p ≠ q) : (st.setReplay p f).replays[q]? = st.replays[q]? :=
  List.getElem?_modify_ne _ _ h

@[simp] theorem setReplay_streams : (st.setReplay p f).streams = st.streams := rfl

end Fields

/-- The pull closure of stream `i`; `next` is `read_next` of other streams. -/
def pull (next : Nat → Store → Option (Reply MulpError Bytes) × Store) (i : Nat) (st : Store) :
    Captured → Option (Reply MulpError Bytes) × Store
  | .chunks chunks failure index =>
      match chunks[index]? with
      | none =>
          match failure with
          | none => (some (.ok none), st)
          | some err => (some (.error err), st)
      | some chunk => (some (.ok (some chunk)), st.capture i (.chunks chunks failure (index + 1)))
  | .reader p index =>
      match st.replays[p]? with
      | none => (none, st)
      | some replay =>
          match replay.cache[index]? with
          | some chunk => (some (.ok (some chunk)), st.capture i (.reader p (index + 1)))
          | none =>
              if replay.ended then (some (.ok none), st)
              else
                match replay.error with
                | some err => (some (.error err), st)
                | none =>
                    match next replay.source st with
                    | (some (.ok (some chunk)), st) =>
                        (some (.ok (some chunk)),
                          (st.setReplay p fun r => { r with cache := r.cache ++ [chunk] }).capture i
                            (.reader p (index + 1)))
                    | (some (.ok none), st) =>
                        (some (.ok none), st.setReplay p fun r => { r with ended := true })
                    | (some (.error err), st) =>
                        (some (.error err), st.setReplay p fun r => { r with error := some err })
                    | (none, st) => (none, st)
  | .footer stream footer footerSent =>
      if footerSent then (some (.ok none), st)
      else
        match next stream st with
        | (some (.ok none), st) => (some (.ok (some footer)), st.capture i (.footer stream footer true))
        | other => other

/-- `ByteStream::read_next`. Streams read one another, so it takes fuel. -/
def readNext : Nat → Nat → Store → Option (Reply MulpError Bytes) × Store
  | 0, _, st => (none, st)
  | n + 1, i, st =>
      match st.streams[i]? with
      | none => (none, st)
      | some s =>
          if s.consumed then (some ByteStream.alreadyConsumed, st)
          else
            match pull (readNext n) i st s.captured with
            | (some (.ok (some chunk)), st) => (some (.ok (some chunk)), st)
            | (some r, st) => (some r, st.close i)
            | (none, st) => (none, st)

/-- `prepare_contents`: a stream is read through a reader of a new replayable
stream over it. -/
def prepareContents (contents : VinylContents Nat) (st : Store) :
    (VinylContents Nat × Option Nat) × Store :=
  match contents with
  | .stream source =>
      let (replay, st) := st.addReplay source
      let (reader, st) := st.addStream (.reader replay 0)
      ((.stream reader, some replay), st)
  | other => ((other, none), st)

end Store

end Mulp.Vinyl
