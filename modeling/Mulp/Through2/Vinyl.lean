import Mulp.Through2.Contract
import Mulp.Vinyl.File

/-! The three adapters of `through2` together: over byte streams, file streams
and vinyl file streams. -/
namespace Mulp.VinylFs

open Mulp.Core Mulp.Stream Mulp.Vinyl

/-- `VinylFileStream` (`vinyl_fs/dest.mbt`), whose constructor, `next` and `close`
are those of `FileStream` over `VinylFile`. -/
abbrev VinylFileStream (ω : Type) :=
  FileStream ω (VinylFile (ByteStream ω) (ReplayableStream ω))

end Mulp.VinylFs

namespace Mulp.Through2

open Mulp.Core Mulp.Stream Mulp.Vinyl Mulp.VinylFs Pull

variable {ω : Type}

def throughBytesFlatWithFlush (flatMap : Bytes → ω → Except MulpError (List Bytes) × ω)
    (flush : ω → Except MulpError (List Bytes) × ω) : ByteStream ω → ByteStream ω :=
  ByteStream.throughFlatWithFlush flatMap flush

def throughFileStreamFlatWithFlush
    (flatMap : File (ByteStream ω) → ω → Except MulpError (List (File (ByteStream ω))) × ω)
    (flush : ω → Except MulpError (List (File (ByteStream ω))) × ω) :
    FileStream ω (File (ByteStream ω)) → FileStream ω (File (ByteStream ω)) :=
  FileStream.throughFlatWithFlush flatMap flush

def throughVinylStreamFlatWithFlush
    (flatMap : VinylFile (ByteStream ω) (ReplayableStream ω) → ω →
      Except MulpError (List (VinylFile (ByteStream ω) (ReplayableStream ω))) × ω)
    (flush : ω → Except MulpError (List (VinylFile (ByteStream ω) (ReplayableStream ω))) × ω) :
    VinylFileStream ω → VinylFileStream ω :=
  FileStream.throughFlatWithFlush flatMap flush

/-- The adapters keep one contract; a byte stream that is over answers with an
error, a file stream with the end. -/
theorem adapters_contract (ω : Type) :
    (∀ (s : ByteStream ω) sc flatMap flush, s.Built → (ByteStream.machine ω).Plays sc s →
      ThroughContract (ByteStream.machine ω) s flatMap flush
        (throughBytesFlatWithFlush flatMap flush s) sc ByteStream.alreadyConsumed
        ByteStream.events ByteStream.upstreamRuns) ∧
    (∀ (s : FileStream ω (File (ByteStream ω))) sc flatMap flush, s.Built → s.Plays sc →
      ThroughContract (FileStream.machine ω _) s flatMap flush
        (throughFileStreamFlatWithFlush flatMap flush s) sc (.ok none) FileStream.events
        FileStream.upstreamRuns) ∧
    ∀ (s : VinylFileStream ω) sc flatMap flush, s.Built → s.Plays sc →
      ThroughContract (FileStream.machine ω _) s flatMap flush
        (throughVinylStreamFlatWithFlush flatMap flush s) sc (.ok none) FileStream.events
        FileStream.upstreamRuns := by
  refine ⟨?_, ?_, ?_⟩
  · intro s sc flatMap flush hbuilt hs
    exact ByteStream.through_contract hbuilt hs flatMap flush
  · intro s sc flatMap flush hbuilt hs
    exact FileStream.through_contract hbuilt hs flatMap flush
  · intro s sc flatMap flush hbuilt hs
    exact FileStream.through_contract hbuilt hs flatMap flush

/-- Chunks, and then the stream is lost. -/
def losing : ByteStream Nat :=
  .fromPullWithClose (fun index w => match index with
    | 0 => (.ok (some [1]), w)
    | 1 => (.ok (some [2]), w)
    | _ => (.error (.streamError "lost"), w)) id

/-- `flat_map` doubles a chunk and counts its calls. -/
def doubling (x : Bytes) (w : Nat) : Except MulpError (List Bytes) × Nat := (.ok [x, x], w + 1)

/-- A source of bytes that fails after two chunks, and empty sources of files;
`flat_map` doubles and drops. -/
theorem failing_bytes_contract :
    ThroughContract (ByteStream.machine Nat) losing doubling (fun w => (.ok [[0]], w))
      (throughBytesFlatWithFlush doubling (fun w => (.ok [[0]], w)) losing)
      (.item [1] (.item [2] (.fail (.streamError "lost"))))
      ByteStream.alreadyConsumed ByteStream.events ByteStream.upstreamRuns ∧
    ThroughContract (FileStream.machine Nat (File (ByteStream Nat))) (.fileStream [])
      (fun _ w => (.ok [], w)) (fun w => (.error (.taskFailed "flush" "no"), w))
      (throughFileStreamFlatWithFlush (fun _ w => (.ok [], w))
        (fun w => (.error (.taskFailed "flush" "no"), w)) (.fileStream []))
      .done (.ok none) FileStream.events FileStream.upstreamRuns ∧
    ThroughContract (FileStream.machine Nat (VinylFile (ByteStream Nat) (ReplayableStream Nat)))
      (.fileStream []) (fun x w => (.ok [x, x], w)) (fun w => (.ok [], w))
      (throughVinylStreamFlatWithFlush (fun x w => (.ok [x, x], w)) (fun w => (.ok [], w))
        (.fileStream []))
      .done (.ok none) FileStream.events FileStream.upstreamRuns :=
  ⟨(adapters_contract Nat).1 _ _ _ _ (.source _ _)
      fun w => ⟨1, _, w, rfl, fun w => ⟨1, _, w, rfl, fun w => ⟨1, _, w, rfl⟩⟩⟩,
    (adapters_contract Nat).2.1 _ _ _ _ (.source _ _) (FileStream.fileStream_plays []),
    (adapters_contract Nat).2.2 _ _ _ _ (.source _ _) (FileStream.fileStream_plays [])⟩

end Mulp.Through2
