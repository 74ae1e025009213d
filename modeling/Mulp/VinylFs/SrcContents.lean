import Mulp.Stream.FileBytes
import Mulp.Vinyl.File
import Mulp.VinylFs.Fixed

/-! The contents of source files (`vinyl_fs/src.mbt`).

A file is read whole and decoded, or handed on as a stream of its bytes as they are on
the disk. -/
namespace Mulp.VinylFs

open Mulp.Core Mulp.Stream Mulp.Vinyl

/-- `SrcOptions`, with the defaults of `src_options`; `since` is a 64-bit integer. -/
structure SrcOptions where
  cwd : String
  base : String := cwd
  read : Bool := true
  buffer : Bool := true
  since : Option Int := none
  resolveSymlinks : Bool := true
  dot : Bool := false
  allowEmpty : Bool := false
  removeBom : Bool := true
  encoding : SrcEncoding := .utf8
  sourcemaps : Bool := false
  chunkSize : Int := 65536

/-- `vinyl_contents_for`; there is no answer if it has aborted or not returned. -/
def vinylContentsFor (n : Nat) (d : Disk) (path : String) (kind : Option String)
    (options : SrcOptions) : Option (Except MulpError (VinylContents (ByteStream Unit))) :=
  if !options.read || kind = some "directory" || kind = some "symlink" && !options.resolveSymlinks then
    some (.ok .null)
  else if options.buffer then
    match fileByteStream d path options.chunkSize with
    | .ok bytes =>
        match (bytes.readAllBytes n 67108864 ()).1 with
        | none => none
        | some (.ok contents) =>
            (decodeSrcBytes contents options.encoding options.removeBom).map (.ok <| .buffer ·)
        | some (.error err) => some (.error err)
    | .error err => some (.error err)
  else
    match fileByteStream d path options.chunkSize with
    | .ok bytes => some (.ok (.stream bytes))
    | .error err => some (.error err)

/-- The options and the kind of the file ask for its contents. -/
def WantsContents (kind : Option String) (options : SrcOptions) : Prop :=
  options.read = true ∧ kind ≠ some "directory" ∧ (kind = some "symlink" → options.resolveSymlinks = true)

/-- The file has contents whether it is buffered or streamed, and these are the same bytes. The
stream is compared by reading all of it, within the limit that `read_all_bytes` has there. -/
def ContentsAgree (d : Disk) (path : String) (kind : Option String) (options : SrcOptions) : Prop :=
  ∃ N, ∀ n, N ≤ n → ∃ bytes stream,
    vinylContentsFor n d path kind { options with buffer := true } = some (.ok (.buffer bytes)) ∧
    vinylContentsFor n d path kind { options with buffer := false } = some (.ok (.stream stream)) ∧
    (stream.readAllBytes n 67108864 ()).1 = some (.ok bytes)

section Agree

variable {d : Disk} {path : String} {kind : Option String} {options : SrcOptions} {content : Bytes}

theorem vinylContentsFor_buffer {n : Nat} {stream : ByteStream Unit}
    (hkind : WantsContents kind options)
    (hopen : fileByteStream d path options.chunkSize = .ok stream)
    (hread : (stream.readAllBytes n 67108864 ()).1 = some (.ok content)) :
    vinylContentsFor n d path kind { options with buffer := true } =
      (decodeSrcBytes content options.encoding options.removeBom).map (.ok <| .buffer ·) := by
  obtain ⟨hwants, hdirectory, hsymlink⟩ := hkind
  rw [vinylContentsFor, if_neg, if_pos rfl]
  · simp only [hopen, hread]
  · simp only [hwants, hdirectory, Bool.not_true, decide_false, Bool.or_self, Bool.false_or,
      Bool.and_eq_true, decide_eq_true_eq, Bool.not_eq_true', not_and, Bool.not_eq_false]
    exact hsymlink

theorem vinylContentsFor_stream {stream : ByteStream Unit} (hkind : WantsContents kind options)
    (hopen : fileByteStream d path options.chunkSize = .ok stream) (n : Nat) :
    vinylContentsFor n d path kind { options with buffer := false } =
      some (.ok (.stream stream)) := by
  obtain ⟨hwants, hdirectory, hsymlink⟩ := hkind
  rw [vinylContentsFor, if_neg, if_neg (by simp)]
  · simp only [hopen]
  · simp only [hwants, hdirectory, Bool.not_true, decide_false, Bool.or_self, Bool.false_or,
      Bool.and_eq_true, decide_eq_true_eq, Bool.not_eq_true', not_and, Bool.not_eq_false]
    exact hsymlink

theorem contentsAgree_decode (hkind : WantsContents kind options)
    (hread : d.read path = some content) (hlength : content.length ≤ 67108864)
    (hchunk : 0 < options.chunkSize) :
    ContentsAgree d path kind options ↔
      decodeSrcBytes content options.encoding options.removeBom = some content := by
  have hall (n : Nat) (hn : content.length < n) :=
    @ByteStream.readAllBytes_fileByteStream content d path options.chunkSize 67108864 n hread hchunk
      (by omega) (by omega) hn
  obtain ⟨stream, hopen, -⟩ := hall (content.length + 1) (Nat.lt_succ_self _)
  -- the streamed contents are never decoded, so they are the bytes of the file
  have hstream (n : Nat) (hn : content.length < n) :
      (stream.readAllBytes n 67108864 ()).1 = some (.ok content) := by
    obtain ⟨stream', hopen', hbytes⟩ := hall n hn
    rw [hopen] at hopen'
    cases hopen'
    exact hbytes
  constructor
  · rintro ⟨N, hN⟩
    obtain ⟨bytes, stream', hbuffer, hstreamed, hbytes⟩ := hN (N + content.length + 1) (by omega)
    rw [vinylContentsFor_stream hkind hopen] at hstreamed
    cases hstreamed
    rw [hstream _ (by omega)] at hbytes
    cases hbytes
    rw [vinylContentsFor_buffer hkind hopen (hstream _ (by omega))] at hbuffer
    obtain ⟨decoded, hdecode, hsame⟩ := Option.map_eq_some_iff.mp hbuffer
    cases hsame
    exact hdecode
  · intro hdecode
    refine ⟨content.length + 1, fun n hn => ⟨content, stream, ?_, ?_, hstream n hn⟩⟩
    · rw [vinylContentsFor_buffer hkind hopen (hstream n hn), hdecode]
      rfl
    · exact vinylContentsFor_stream hkind hopen n

/-- Buffered and streamed contents are the same exactly when decoding keeps those
of the file. -/
theorem contentsAgree_iff (hkind : WantsContents kind options) (hread : d.read path = some content)
    (hlength : content.length ≤ 67108864) (hchunk : 0 < options.chunkSize) :
    ContentsAgree d path kind options ↔ DecodingKeeps options.encoding options.removeBom content :=
  (contentsAgree_decode hkind hread hlength hchunk).trans (decodeSrcBytes_eq_iff ..)

end Agree

/-- A disk with one file. -/
def oneFile (file : String) (content : Bytes) : Disk where
  read path := if path = file then some content else none
  stat _ := true
  lstat _ := true
  succeeds _ _ := true
  accesses := []
  place path := path

/-- The second chunk ends within a character, and in UTF-16 the same bytes are other
characters. -/
theorem contentsAgree_text :
    ContentsAgree (oneFile "/a" [0x61, 0x62, 0x63, 0xC3, 0xA9, 0x0A]) "/a" (some "file")
      { cwd := "/", chunkSize := 2 } ∧
    ¬ ContentsAgree (oneFile "/a" [0x61, 0x62, 0x63, 0xC3, 0xA9, 0x0A]) "/a" (some "file")
      { cwd := "/", chunkSize := 2, encoding := .charset "utf16le" } := by
  constructor
  · exact (contentsAgree_iff ⟨rfl, by decide, by decide⟩ rfl (by decide) (by decide)).mpr (.inr rfl)
  · intro h
    have hkeeps := (contentsAgree_iff ⟨rfl, by decide, by decide⟩ rfl (by decide) (by decide)).mp h
    change _ = [] ∨ _ = _ at hkeeps
    revert hkeeps
    decide

/-- The byte order mark of a streamed file is left in. -/
theorem not_contentsAgree_bom :
    ¬ ContentsAgree (oneFile "/a" [0xEF, 0xBB, 0xBF, 0x61]) "/a" (some "file") { cwd := "/" } := by
  have hagree := @contentsAgree_decode (oneFile "/a" [0xEF, 0xBB, 0xBF, 0x61]) "/a" (some "file")
    { cwd := "/" } _ ⟨rfl, by decide, by decide⟩ rfl (by decide) (by decide)
  exact fun h => absurd (hagree.mp h) (by decide)

end Mulp.VinylFs
