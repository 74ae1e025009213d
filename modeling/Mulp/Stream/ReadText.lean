import Mulp.Lib.Utf8Chunks
import Mulp.Stream.FileBytes

/-! Files as text, read in chunks (`stream/byte_stream.mbt`,
`cmd/mulp/real_config.mbt`).

A file is read in chunks of one size, wherever these cut a character, and each chunk is
decoded for itself. -/
namespace Mulp.Stream

open Mulp.Core Pull

/-! ## Chunks -/

/-- The chunks of what is left of a file, at most `n` of them. -/
def chunksFrom (chunkSize : Nat) : Nat → Bytes → List Bytes
  | 0, _ => []
  | n + 1, rest =>
      if rest = [] then [] else rest.take chunkSize :: chunksFrom chunkSize n (rest.drop chunkSize)

/-- As many as there are bytes are enough. -/
theorem chunksFrom_of_le {chunkSize n : Nat} {rest : Bytes} (hsize : 0 < chunkSize)
    (h : rest.length ≤ n) :
    chunksFrom chunkSize n rest = chunksFrom chunkSize rest.length rest := by
  induction n using Nat.strongRecOn generalizing rest with
  | _ n ih =>
      cases n with
      | zero => rw [Nat.le_zero.mp h]
      | succ n =>
          cases rest with
          | nil => rfl
          | cons byte rest =>
              have hdrop : ((byte :: rest).drop chunkSize).length ≤ rest.length := by
                rw [List.length_drop, List.length_cons]
                omega
              rw [List.length_cons] at h
              rw [List.length_cons, chunksFrom, chunksFrom, if_neg (by simp), if_neg (by simp),
                ih n (Nat.lt_succ_self n) (by omega), ih rest.length (by omega) hdrop]

theorem flatten_chunksFrom {chunkSize n : Nat} {rest : Bytes} (hsize : 0 < chunkSize)
    (h : rest.length ≤ n) :
    (chunksFrom chunkSize n rest).flatten = rest := by
  induction n generalizing rest with
  | zero => rw [List.length_eq_zero_iff.mp (Nat.le_zero.mp h), chunksFrom, List.flatten_nil]
  | succ n ih =>
      rw [chunksFrom]
      split_ifs with hnil
      · rw [hnil, List.flatten_nil]
      · have hpos := List.length_pos_iff.mpr hnil
        have hdrop : (rest.drop chunkSize).length ≤ n := by
          rw [List.length_drop]
          omega
        rw [List.flatten_cons, ih hdrop, List.take_append_drop]

/-- The chunks that a file is read in. -/
def fileChunks (chunkSize : Nat) (content : Bytes) : List Bytes := chunksFrom chunkSize content.length content

def decodeChunk (chunk : Bytes) : String := String.ofList (Utf8.decodeLossy chunk)

/-- The text of the chunks, each of them decoded by itself. -/
def decodeChunks (chunks : List Bytes) : String := String.join (chunks.map decodeChunk)

theorem toList_join (parts : List String) :
    (String.join parts).toList = parts.flatMap String.toList := by
  induction parts with
  | nil => rfl
  | cons part rest ih => rw [String.join_cons, String.toList_append, ih, List.flatMap_cons]

theorem toList_decodeChunks (chunks : List Bytes) :
    (decodeChunks chunks).toList = chunks.flatMap Utf8.decodeLossy := by
  rw [decodeChunks, toList_join, List.flatMap_map]
  simp [decodeChunk]

/-- The text of a file comes back exactly if no chunk ends within a character. -/
theorem decodeChunks_iff {chunkSize : Nat} (hsize : 0 < chunkSize) (text : String) :
    decodeChunks (fileChunks chunkSize (Utf8.encode text.toList)) = text ↔
      ∀ chunk ∈ fileChunks chunkSize (Utf8.encode text.toList), Utf8.Valid chunk := by
  have hflatten : (fileChunks chunkSize (Utf8.encode text.toList)).flatten =
      Utf8.encode text.toList :=
    flatten_chunksFrom hsize (Nat.le_refl _)
  rw [← Utf8.flatMap_decodeLossy_iff hflatten, ← toList_decodeChunks, String.toList_inj]

namespace ByteStream

section Read

variable {content rest : Bytes} {chunkSize k n : Nat} {maxBytes : Int} {done : List String}

theorem readNext_reading_end (hrest : content.drop (k * chunkSize) = []) :
    ∃ s, (reading content chunkSize k).readNext (n + 1) () = (some (.ok none), s, ()) := by
  rw [readNext_reading, filePull, fileReaderRead, hrest, List.take_nil]
  exact ⟨_, rfl⟩

theorem readNext_reading_chunk (hsize : 0 < chunkSize) (hrest : content.drop (k * chunkSize) ≠ []) :
    (reading content chunkSize k).readNext (n + 1) () =
      (some (.ok (some ((content.drop (k * chunkSize)).take chunkSize))),
        reading content chunkSize (k + 1), ()) := by
  have hne : ¬ ((content.drop (k * chunkSize)).take chunkSize).length = 0 := by
    have hpos := List.length_pos_iff.mpr hrest
    rw [List.length_take]
    omega
  rw [readNext_reading, filePull, fileReaderRead]
  simp only [if_neg hne]
  rfl

/-- The loop of `read_all` at the end of a file. -/
theorem loop_readAll_end {m : Nat} (hrest : content.drop (k * chunkSize) = []) {total : Int} :
    (loop (readAllTurn (readNext (n + 1)) maxBytes) (m + 1)
      (reading content chunkSize k, done, total) ()).1 =
      some (.ok (String.join done)) := by
  obtain ⟨s, hnext⟩ := @readNext_reading_end content chunkSize k n hrest
  have hturn : readAllTurn (readNext (n + 1)) maxBytes
      (reading content chunkSize k, done, total) () =
      (Turn.reply (.ok (String.join done)), (s, done, total), ()) := by
    simp only [readAllTurn, hnext]
  rw [loop_reply hturn]

/-- The loop of `read_all` on an open file. -/
theorem loop_readAll {m : Nat} (hsize : 0 < chunkSize) (hbound : maxBytes + chunkSize < 2 ^ 31)
    (hrest : content.drop (k * chunkSize) = rest) (hm : rest.length ≤ m)
    (htotal : (content.length : Int) - rest.length ≤ maxBytes) :
    (loop (readAllTurn (readNext (n + 1)) maxBytes) (m + 1)
      (reading content chunkSize k, done, (content.length : Int) - rest.length) ()).1 =
      some (if content.length ≤ maxBytes then
        .ok (String.join (done ++ (chunksFrom chunkSize m rest).map decodeChunk))
        else .error (exceeded maxBytes)) := by
  have hlength (hnil : rest = []) : (content.length : Int) ≤ maxBytes := by
    rw [hnil, List.length_nil] at htotal
    omega
  induction m generalizing k rest done with
  | zero =>
      have hnil : rest = [] := List.length_eq_zero_iff.mp (by omega)
      rw [loop_readAll_end (hrest.trans hnil), if_pos (hlength hnil), chunksFrom, List.map_nil,
        List.append_nil]
  | succ m ih =>
      by_cases hnil : rest = []
      · rw [loop_readAll_end (hrest.trans hnil), if_pos (hlength hnil), chunksFrom, if_pos hnil,
          List.map_nil, List.append_nil]
      · have hnext := @readNext_reading_chunk content chunkSize k n hsize (hrest ▸ hnil)
        rw [hrest] at hnext
        have hle : rest.length ≤ content.length := by
          rw [← hrest, List.length_drop]
          exact Nat.sub_le _ _
        have hpos := List.length_pos_iff.mpr hnil
        have htake : (rest.take chunkSize).length = min chunkSize rest.length := List.length_take
        have hdrop : (rest.drop chunkSize).length = rest.length - chunkSize := List.length_drop
        -- the limit and one chunk are below 2^31, so the sum does not wrap
        have hsum : ((content.length : Int) - rest.length + (rest.take chunkSize).length).bmod
            (2 ^ 32) =
            (content.length : Int) - (rest.drop chunkSize).length := by
          rw [Int.bmod_eq_of_le]
          · omega
          · omega
          · omega
        by_cases hover : (content.length : Int) - (rest.drop chunkSize).length > maxBytes
        · have hturn : ∃ st, readAllTurn (readNext (n + 1)) maxBytes
              (reading content chunkSize k, done, (content.length : Int) - rest.length) () =
                (Turn.reply (.error (exceeded maxBytes)), st, ()) := by
            simp only [readAllTurn, hnext, hsum, if_pos hover]
            exact ⟨_, rfl⟩
          obtain ⟨st, hturn⟩ := hturn
          -- what is read already is more than the limit
          rw [loop_reply hturn, if_neg (by omega)]
        · have hturn : readAllTurn (readNext (n + 1)) maxBytes
              (reading content chunkSize k, done, (content.length : Int) - rest.length) () =
                (Turn.again, (reading content chunkSize (k + 1),
                  done ++ [decodeChunk (rest.take chunkSize)],
                  (content.length : Int) - (rest.drop chunkSize).length), ()) := by
            simp only [readAllTurn, hnext, hsum, if_neg hover]
            rfl
          have hrest' : content.drop ((k + 1) * chunkSize) = rest.drop chunkSize := by
            rw [← hrest, List.drop_drop, Nat.add_mul, Nat.one_mul]
          have hchunks : chunksFrom chunkSize (m + 1) rest =
              rest.take chunkSize :: chunksFrom chunkSize m (rest.drop chunkSize) := by
            rw [chunksFrom, if_neg hnil]
          have hlast (hnil : rest.drop chunkSize = []) : (content.length : Int) ≤ maxBytes := by
            rw [hnil, List.length_nil] at hover
            omega
          rw [loop_again hturn, ih hrest' (by omega) (by omega) hlast, hchunks, List.map_cons,
            List.append_assoc, List.singleton_append]

end Read

/-- `read_all` of a file, which must not be longer than the limit. -/
theorem readAll_fileByteStream {d : Disk} {path : String} {content : Bytes} {size maxBytes : Int}
    {n : Nat} (hread : d.read path = some content) (hsize : 0 < size) (hmax : 0 ≤ maxBytes)
    (hbound : maxBytes + size < 2 ^ 31) (hn : content.length < n) :
    ∃ s, fileByteStream d path size = .ok s ∧ (s.readAll n maxBytes ()).1 =
      some (if content.length ≤ maxBytes then .ok (decodeChunks (fileChunks size.toNat content))
        else .error (exceeded maxBytes)) := by
  obtain ⟨m, rfl⟩ : ∃ m, n = m + 1 := ⟨n - 1, by omega⟩
  refine ⟨reading content size.toNat 0, ?_, ?_⟩
  · rw [fileByteStream, if_neg (by omega), hread]
    rfl
  · have hloop := @loop_readAll content content size.toNat 0 m maxBytes [] m (by omega) (by omega)
      (by rw [Nat.zero_mul, List.drop_zero]) (by omega) (by omega)
    rw [Int.sub_self, List.nil_append, chunksFrom_of_le (by omega) (by omega)] at hloop
    exact hloop

end ByteStream

end Mulp.Stream
