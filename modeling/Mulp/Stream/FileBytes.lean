import Mathlib.Algebra.Group.Int.Defs
import Mathlib.Algebra.Group.Nat.Defs
import Mathlib.Tactic.SplitIfs
import Mulp.Lib.Utf8
import Mulp.Stream.Disk

/-! Files as byte streams, and whole streams as bytes
(`stream/file_byte_stream.mbt`, `stream/byte_stream.mbt`). -/
namespace Mulp.Stream

open Mulp.Core Pull

/-! ## `file_byte_stream` -/

/-- `mulp_file_reader_read` after `index` earlier reads. -/
def fileReaderRead (content : Bytes) (chunkSize index : Nat) : Bytes :=
  (content.drop (index * chunkSize)).take chunkSize

/-- The pull closure of `file_byte_stream`. -/
def filePull (content : Bytes) (chunkSize index : Nat) (w : Unit) :
    Reply MulpError Bytes × Unit :=
  let chunk := fileReaderRead content chunkSize index
  (.ok (if chunk.length = 0 then none else some chunk), w)

def fileByteStream (d : Disk) (path : String) (chunkSize : Int) : Except MulpError (ByteStream Unit) :=
  if chunkSize ≤ 0 then .error (.streamError "file byte stream chunk size must be positive")
  else
    match d.read path with
    | none => .error (.fileSystemError ("cannot open file: " ++ path))
    | some content => .ok (.fromPullWithClose (filePull content chunkSize.toNat) id)

def exceeded (maxBytes : Int) : MulpError :=
  .streamError ("byte stream exceeded " ++ toString maxBytes ++ " bytes")

namespace ByteStream

variable {ω : Type}

/-! ## `read_all_bytes` -/

/-- The closure of `concat_byte_chunks`: the byte at the captured `chunk_index`
and `chunk_offset`, and where it moves these; it aborts beyond the chunks. -/
def chunkByte (chunks : List Bytes) (chunkIndex chunkOffset : Nat) : Option (UInt8 × Nat × Nat) :=
  match chunks[chunkIndex]? with
  | none => none
  | some chunk =>
      match chunk[chunkOffset]? with
      | none => none
      | some byte =>
          if chunkOffset + 1 ≥ chunk.length then some (byte, chunkIndex + 1, 0)
          else some (byte, chunkIndex, chunkOffset + 1)

/-- `Bytes::makei` with that closure. -/
def makeBytes (chunks : List Bytes) : Nat → Nat → Nat → Option Bytes
  | 0, _, _ => some []
  | n + 1, chunkIndex, chunkOffset =>
      match chunkByte chunks chunkIndex chunkOffset with
      | none => none
      | some (byte, chunkIndex, chunkOffset) =>
          (makeBytes chunks n chunkIndex chunkOffset).map (byte :: ·)

/-- `concat_byte_chunks`; a negative length makes no bytes. The length is the total of 32 bits,
which need not be that of the chunks. -/
def concatByteChunks (chunks : List Bytes) (total : Int) : Option Bytes :=
  if total = 0 then some [] else makeBytes chunks total.toNat 0 0

/-- The loop body of `read_all_bytes`, on the stream and the local `chunks` and
`total`, a 32-bit integer. -/
def readAllBytesTurn (next : ByteStream ω → ω → Outcome (Reply MulpError Bytes) (ByteStream ω) ω)
    (maxBytes : Int) :
    ByteStream ω × List Bytes × Int → ω →
      Turn (Except MulpError Bytes) × (ByteStream ω × List Bytes × Int) × ω
  | (self, chunks, total), w =>
      match next self w with
      | (none, self, w) => (.stuck, (self, chunks, total), w)
      | (some (.ok (some chunk)), self, w) =>
          let total := (total + chunk.length).bmod (2 ^ 32)
          if total > maxBytes then
            (.reply (.error (.streamError ("byte stream exceeded " ++ toString maxBytes ++ " bytes"))),
              ((self.close w).1, chunks, total), (self.close w).2)
          else (.again, (self, if chunk.length > 0 then chunks ++ [chunk] else chunks, total), w)
      | (some (.ok none), self, w) =>
          match concatByteChunks chunks total with
          | some bytes => (.reply (.ok bytes), (self, chunks, total), w)
          | none => (.stuck, (self, chunks, total), w)
      | (some (.error err), self, w) => (.reply (.error err), (self, chunks, total), w)

def readAllBytes (n : Nat) (maxBytes : Int) (self : ByteStream ω) (w : ω) :
    Outcome (Except MulpError Bytes) (ByteStream ω) ω :=
  (loop (readAllBytesTurn (readNext n) maxBytes) n (self, [], 0) w).map Prod.fst

/-! ## `read_all` -/

/-- The loop body of `read_all`, as that of `read_all_bytes`; each chunk is decoded
by itself. -/
def readAllTurn (next : ByteStream ω → ω → Outcome (Reply MulpError Bytes) (ByteStream ω) ω)
    (maxBytes : Int) :
    ByteStream ω × List String × Int → ω →
      Turn (Except MulpError String) × (ByteStream ω × List String × Int) × ω
  | (self, chunks, total), w =>
      match next self w with
      | (none, self, w) => (.stuck, (self, chunks, total), w)
      | (some (.ok (some chunk)), self, w) =>
          let total := (total + chunk.length).bmod (2 ^ 32)
          if total > maxBytes then
            (.reply (.error (.streamError ("byte stream exceeded " ++ toString maxBytes ++ " bytes"))),
              ((self.close w).1, chunks, total), (self.close w).2)
          else (.again, (self, chunks ++ [String.ofList (Utf8.decodeLossy chunk)], total), w)
      | (some (.ok none), self, w) => (.reply (.ok (String.join chunks)), (self, chunks, total), w)
      | (some (.error err), self, w) => (.reply (.error err), (self, chunks, total), w)

def readAll (n : Nat) (maxBytes : Int) (self : ByteStream ω) (w : ω) :
    Outcome (Except MulpError String) (ByteStream ω) ω :=
  (loop (readAllTurn (readNext n) maxBytes) n (self, [], 0) w).map Prod.fst

/-! ## Concatenation -/

section Concat

variable {chunks : List Bytes}

theorem chunkByte_eq {chunkIndex chunkOffset : Nat} {chunk : Bytes}
    (hchunk : chunks[chunkIndex]? = some chunk) (hlt : chunkOffset < chunk.length) :
    chunkByte chunks chunkIndex chunkOffset =
      some (chunk[chunkOffset],
        if chunkOffset + 1 ≥ chunk.length then (chunkIndex + 1, 0) else (chunkIndex, chunkOffset + 1)) := by
  simp only [chunkByte, hchunk, List.getElem?_eq_getElem hlt]
  split_ifs <;> rfl

/-- The closure goes through the bytes of chunks that are not empty. -/
theorem makeBytes_eq (hchunks : ∀ chunk ∈ chunks, chunk ≠ []) {bytes more : Bytes} :
    ∀ chunkIndex chunkOffset,
      (chunkOffset = 0 ∨ ∃ chunk, chunks[chunkIndex]? = some chunk ∧ chunkOffset < chunk.length) →
      (chunks.drop chunkIndex).flatten.drop chunkOffset = bytes ++ more →
      makeBytes chunks bytes.length chunkIndex chunkOffset = some bytes := by
  induction bytes with
  | nil => exact fun _ _ _ _ => rfl
  | cons byte rest ih =>
      intro chunkIndex chunkOffset hpos hbytes
      have hindex : chunkIndex < chunks.length := by
        by_contra hge
        rw [List.drop_eq_nil_of_le (Nat.le_of_not_lt hge)] at hbytes
        simp at hbytes
      have hchunk := List.getElem?_eq_getElem hindex
      have hlt : chunkOffset < chunks[chunkIndex].length := by
        rcases hpos with rfl | ⟨chunk, hget, hlt⟩
        · exact List.length_pos_iff.mpr (hchunks _ (List.getElem_mem hindex))
        · rw [hchunk] at hget
          cases hget
          exact hlt
      rw [List.drop_eq_getElem_cons hindex, List.flatten_cons,
        List.drop_append_of_le_length (Nat.le_of_lt hlt), List.drop_eq_getElem_cons hlt,
        List.cons_append, List.cons_append] at hbytes
      obtain ⟨rfl, hrest⟩ := List.cons.inj hbytes
      rw [List.length_cons, makeBytes, chunkByte_eq hchunk hlt]
      -- at the end of its chunk a byte is followed by the first one of the next
      split_ifs with hlast
      · rw [List.drop_eq_nil_of_le hlast, List.nil_append] at hrest
        simp only [ih (chunkIndex + 1) 0 (.inl rfl) hrest, Option.map_some]
      · have hnext : chunkOffset + 1 < chunks[chunkIndex].length := by omega
        have hrest' : (chunks.drop chunkIndex).flatten.drop (chunkOffset + 1) = rest ++ more := by
          rw [List.drop_eq_getElem_cons hindex, List.flatten_cons,
            List.drop_append_of_le_length (Nat.le_of_lt hnext), hrest]
        simp only [ih chunkIndex (chunkOffset + 1) (.inr ⟨_, hchunk, hnext⟩) hrest',
          Option.map_some]

/-- The cursors stay within the chunks up to the sum of their lengths. -/
theorem concatByteChunks_take (hchunks : ∀ chunk ∈ chunks, chunk ≠ []) {total : Int}
    (htotal : total ≤ chunks.flatten.length) :
    concatByteChunks chunks total = some (chunks.flatten.take total.toNat) := by
  have hlength : (chunks.flatten.take total.toNat).length = total.toNat := by
    rw [List.length_take]
    omega
  have hmake := makeBytes_eq hchunks 0 0 (.inl rfl)
    (List.take_append_drop total.toNat chunks.flatten).symm
  rw [hlength] at hmake
  rw [concatByteChunks]
  split_ifs with hzero
  · rw [hzero]
    rfl
  · exact hmake

theorem concatByteChunks_eq (hchunks : ∀ chunk ∈ chunks, chunk ≠ []) :
    concatByteChunks chunks chunks.flatten.length = some chunks.flatten := by
  rw [concatByteChunks_take hchunks (Int.le_refl _), Int.toNat_natCast, List.take_length]

end Concat

/-! ## A file, read to its end -/

section File

variable {content : Bytes} {chunkSize k : Nat}

/-- The stream of an open file that has been read `k` times. -/
def reading (content : Bytes) (chunkSize k : Nat) : ByteStream Unit :=
  .source (filePull content chunkSize) id (List.replicate k .pull) false

theorem readNext_reading (content : Bytes) (chunkSize k n : Nat) (w : Unit) :
    (reading content chunkSize k).readNext (n + 1) w =
      settled close
        (some (filePull content chunkSize k w).1, reading content chunkSize (k + 1), w) := by
  show settled close (pull (readNext n) n (reading content chunkSize k) w) = _
  rw [reading, pull, List.count_replicate_self, ← List.replicate_succ']
  rfl

theorem fileReaderRead_eq_nil (hsize : 0 < chunkSize) :
    (fileReaderRead content chunkSize k).length = 0 ↔ content.length ≤ k * chunkSize := by
  rw [fileReaderRead, List.length_take, List.length_drop]
  omega

theorem readAllBytesTurn_reading {n : Nat} {maxBytes : Int} {chunks : List Bytes} (w : Unit)
    (hsize : 0 < chunkSize) (hmax : content.length ≤ maxBytes) (hbound : content.length < 2 ^ 31)
    (hchunks : chunks.flatten = content.take (k * chunkSize))
    (hmore : k * chunkSize < content.length) :
    readAllBytesTurn (readNext (n + 1)) maxBytes
        (reading content chunkSize k, chunks, chunks.flatten.length) w =
      (Turn.again, (reading content chunkSize (k + 1),
        chunks ++ [fileReaderRead content chunkSize k],
        ((chunks ++ [fileReaderRead content chunkSize k]).flatten.length : Int)), w) := by
  have hne : ¬ (fileReaderRead content chunkSize k).length = 0 := by
    rw [fileReaderRead_eq_nil hsize]
    omega
  have hnext : (reading content chunkSize k).readNext (n + 1) w =
      (some (.ok (some (fileReaderRead content chunkSize k))),
        reading content chunkSize (k + 1), w) := by
    rw [readNext_reading, filePull]
    simp only [if_neg hne]
    rfl
  have hsum : chunks.flatten.length + (fileReaderRead content chunkSize k).length ≤
      content.length := by
    rw [hchunks, fileReaderRead, List.length_take, List.length_take, List.length_drop]
    omega
  have htotal : ((chunks.flatten.length : Int) + (fileReaderRead content chunkSize k).length).bmod
      (2 ^ 32) = (chunks ++ [fileReaderRead content chunkSize k]).flatten.length := by
    rw [List.flatten_append, List.flatten_singleton, List.length_append, Int.bmod_eq_of_le]
    · omega
    · omega
    · omega
  simp only [readAllBytesTurn, hnext, htotal]
  rw [if_neg, if_pos (Nat.pos_of_ne_zero hne)]
  rw [List.flatten_append, List.flatten_singleton, List.length_append]
  omega

theorem readAllBytesTurn_over {n : Nat} {maxBytes : Int} {chunks : List Bytes} (w : Unit)
    (hsize : 0 < chunkSize) (hne : ∀ chunk ∈ chunks, chunk ≠ [])
    (hchunks : chunks.flatten = content.take (k * chunkSize))
    (hover : content.length ≤ k * chunkSize) :
    ∃ st, readAllBytesTurn (readNext (n + 1)) maxBytes
        (reading content chunkSize k, chunks, chunks.flatten.length) w =
      (Turn.reply (.ok content), st, w) := by
  obtain ⟨s, hnext⟩ : ∃ s, (reading content chunkSize k).readNext (n + 1) w =
    (some (.ok none), s, w) := by
    rw [readNext_reading, filePull]
    simp only [if_pos ((fileReaderRead_eq_nil hsize).mpr hover)]
    exact ⟨_, rfl⟩
  refine ⟨(s, chunks, chunks.flatten.length), ?_⟩
  simp only [readAllBytesTurn, hnext, concatByteChunks_eq hne]
  rw [hchunks, List.take_of_length_le hover]

/-- The loop of `read_all_bytes` on a file within the limit. -/
theorem loop_reading {n m : Nat} {maxBytes : Int} (w : Unit) (hsize : 0 < chunkSize)
    (hmax : content.length ≤ maxBytes) (hbound : content.length < 2 ^ 31) {chunks : List Bytes}
    (hne : ∀ chunk ∈ chunks, chunk ≠ []) (hchunks : chunks.flatten = content.take (k * chunkSize))
    (hm : content.length ≤ k * chunkSize + m) :
    (loop (readAllBytesTurn (readNext (n + 1)) maxBytes) (m + 1)
      (reading content chunkSize k, chunks, chunks.flatten.length) w).1 = some (.ok content) := by
  induction m generalizing k chunks with
  | zero =>
      obtain ⟨st, hturn⟩ := @readAllBytesTurn_over content chunkSize k n maxBytes chunks w hsize hne
        hchunks hm
      rw [loop_reply hturn]
  | succ m ih =>
      by_cases hmore : k * chunkSize < content.length
      · rw [loop_again (readAllBytesTurn_reading w hsize hmax hbound hchunks hmore)]
        refine ih ?_ ?_ ?_
        · intro chunk hchunk
          rcases List.mem_append.mp hchunk with hchunk | hchunk
          · exact hne chunk hchunk
          · rw [List.mem_singleton.mp hchunk]
            refine mt List.length_eq_zero_iff.mpr ?_
            rw [fileReaderRead_eq_nil hsize]
            omega
        · rw [List.flatten_append, List.flatten_singleton, hchunks, fileReaderRead, ← List.take_add,
            Nat.add_mul, Nat.one_mul]
        · rw [Nat.add_mul, Nat.one_mul]
          omega
      · obtain ⟨st, hturn⟩ :=
          @readAllBytesTurn_over content chunkSize k n maxBytes chunks w hsize hne
            hchunks (Nat.le_of_not_lt hmore)
        rw [loop_reply hturn]

/-- `read_all_bytes` gives the content of a file within the limit back. -/
theorem readAllBytes_fileByteStream {d : Disk} {path : String} {size maxBytes : Int} {n : Nat}
    (hread : d.read path = some content) (hsize : 0 < size) (hmax : content.length ≤ maxBytes)
    (hbound : content.length < 2 ^ 31) (hn : content.length < n) :
    ∃ s, fileByteStream d path size = .ok s ∧
      (s.readAllBytes n maxBytes ()).1 = some (.ok content) := by
  obtain ⟨m, rfl⟩ : ∃ m, n = m + 1 := ⟨n - 1, by omega⟩
  refine ⟨reading content size.toNat 0, ?_, ?_⟩
  · rw [fileByteStream, if_neg (by omega), hread]
    rfl
  · exact @loop_reading content size.toNat 0 m m maxBytes () (by omega) hmax hbound [] (by simp)
      (by simp) (by omega)

end File

end ByteStream

end Mulp.Stream
