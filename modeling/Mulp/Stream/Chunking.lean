import Mulp.Stream.ReadLimit
import Mulp.Stream.ReadText

/-! `read_all` and `read_all_bytes` on the same chunks (`stream/byte_stream.mbt`).

The one decodes every chunk for itself, the other collects bytes. A text that is cut
between two bytes of one character decodes to replacement characters on both sides;
where no chunk ends within such a piece, decoding goes through the concatenation. -/
namespace Mulp.Stream

open Mulp.Core Pull

namespace ByteStream

variable {ω : Type}

/-! ## `read_all` -/

def keepText (texts : List String) (chunk : Bytes) : List String := texts ++ [decodeChunk chunk]

def joinTexts (texts : List String) (_total : Int) : Option String := some (String.join texts)

theorem readAllTurn_eq (next : ByteStream ω → ω → Outcome (Reply MulpError Bytes) (ByteStream ω) ω)
    (maxBytes : Int) : readAllTurn next maxBytes = readTurn keepText joinTexts next maxBytes := by
  funext ⟨self, texts, total⟩ w
  rcases hn : next self w with ⟨_ | _ | _ | chunk, s', w'⟩ <;>
    simp only [readAllTurn, readTurn, hn, joinTexts]
  rfl

theorem readAll_agrees (maxBytes : Int) {n m : Nat} (hle : n ≤ m) :
    Agrees (readAll n maxBytes : ByteStream ω → ω → _) (readAll m maxBytes) := by
  intro self w r hr
  unfold readAll at hr ⊢
  rw [readAllTurn_eq] at hr ⊢
  rw [readAllTurn_eq, loop_agrees (readTurn_agrees (readNext_agrees hle)) hle _ w r hr]

section Chunks

variable {maxBytes : Int} {s : ByteStream ω}

/-- Within the limit the total does not wrap. -/
theorem readScriptWith_texts (hint : maxBytes < 2 ^ 31) (chunks : List Bytes) (texts : List String)
    (n : Nat) (hmax : (n + chunks.flatten.length : Int) ≤ maxBytes) :
    readScriptWith keepText joinTexts maxBytes texts n (.ofList chunks) =
      some (.ok (String.join (texts ++ chunks.map decodeChunk))) := by
  induction chunks generalizing texts n with
  | nil =>
      rw [Script.ofList, readScriptWith, joinTexts, List.map_nil, List.append_nil]
      rfl
  | cons chunk rest ih =>
      rw [List.flatten_cons, List.length_append] at hmax
      have htotal : ((n : Int) + chunk.length).bmod (2 ^ 32) = (n + chunk.length : Nat) := by
        rw [← Int.natCast_add]
        exact int32_of_lt (by omega)
      rw [Script.ofList, readScriptWith]
      simp only [htotal]
      rw [if_neg (by omega), ih _ _ (by omega), keepText, List.append_assoc, List.map_cons]
      rfl

/-- Each chunk is decoded by itself. -/
theorem readAll_plays {chunks : List Bytes} (hint : maxBytes < 2 ^ 31)
    (hmax : (chunks.flatten.length : Int) ≤ maxBytes)
    (hplays : (machine ω).Plays (.ofList chunks) s) (w : ω) :
    ∃ N, ∀ n, N ≤ n → (s.readAll n maxBytes w).1 = some (.ok (decodeChunks chunks)) := by
  have hscript := readScriptWith_texts hint chunks [] 0 (by simpa using hmax)
  obtain ⟨N, st, w', hN⟩ := loop_readTurn hplays hscript w
  have hN : (s.readAll N maxBytes w).1 = some (.ok (decodeChunks chunks)) := by
    rw [readAll, readAllTurn_eq]
    exact congrArg Prod.fst hN
  exact ⟨N, fun n hn => by rw [readAll_agrees maxBytes hn s w _ hN, hN]⟩

theorem readAllBytes_ofList {chunks : List Bytes} (hint : maxBytes < 2 ^ 31)
    (hmax : (chunks.flatten.length : Int) ≤ maxBytes)
    (hplays : (machine ω).Plays (.ofList chunks) s) (w : ω) :
    ∃ N, ∀ n, N ≤ n → (s.readAllBytes n maxBytes w).1 = some (.ok chunks.flatten) := by
  have hsum : (totalLength (Script.ofList chunks : Script MulpError Bytes).items : Int) ≤
      maxBytes := by
    rw [Script.items_ofList, ← length_flatten]
    exact hmax
  have henforces := (enforces_readWrapped_iff (by omega) hint).mpr (.inr (.inl hsum)) chunks.flatten
  have hread := henforces.mpr ⟨Script.ending_ofList chunks, hsum, by rw [Script.items_ofList]⟩
  obtain ⟨N, s', w', hN⟩ := @readAllBytes_wrapped ω maxBytes s _ hplays w
  rw [hread] at hN
  exact ⟨N, fun n hn => by rw [readAllBytes_agrees maxBytes hn s w _ (by rw [hN]), hN]⟩

end Chunks

end ByteStream

/-- Chunks decoded by themselves give the text of the whole exactly if none ends within a piece
of it. -/
theorem decodeChunks_eq_iff {chunks : List Bytes} :
    decodeChunks chunks = decodeChunk chunks.flatten ↔ Utf8.Aligned chunks := by
  rw [← Utf8.flatMap_decodeLossy_eq, ← toList_decodeChunks, ← String.toList_inj, decodeChunk,
    String.toList_ofList]

namespace ByteStream

/-- A stream that is read as text within the limit gives the text of its bytes exactly if no chunk
ends within a piece of them. -/
theorem readAll_decodes_iff {ω : Type} {s : ByteStream ω} {chunks : List Bytes} {maxBytes : Int}
    (hint : maxBytes < 2 ^ 31) (hmax : (chunks.flatten.length : Int) ≤ maxBytes)
    (hplays : (machine ω).Plays (.ofList chunks) s) (w : ω) :
    (∃ N, ∀ n, N ≤ n → (s.readAllBytes n maxBytes w).1 = some (.ok chunks.flatten)) ∧
      ((∃ N, ∀ n, N ≤ n → (s.readAll n maxBytes w).1 = some (.ok (decodeChunk chunks.flatten))) ↔
        Utf8.Aligned chunks) := by
  refine ⟨readAllBytes_ofList hint hmax hplays w, ?_⟩
  obtain ⟨N, hN⟩ := readAll_plays hint hmax hplays w
  rw [← decodeChunks_eq_iff]
  constructor
  · rintro ⟨M, hM⟩
    have htwice := (hN _ (Nat.le_max_left N M)).symm.trans (hM _ (Nat.le_max_right N M))
    exact Except.ok.inj (Option.some.inj htwice)
  · intro heq
    rw [heq] at hN
    exact ⟨N, hN⟩

theorem readAll_decodes_ascii :
    (∃ N, ∀ n, N ≤ n → ((fromBytes [[0x61], [], [0x62]] : ByteStream Unit).readAllBytes n 2 ()).1 =
        some (.ok [0x61, 0x62])) ∧
      ((∃ N, ∀ n, N ≤ n → ((fromBytes [[0x61], [], [0x62]] : ByteStream Unit).readAll n 2 ()).1 =
          some (.ok (decodeChunk [0x61, 0x62]))) ↔ Utf8.Aligned [[0x61], [], [0x62]]) :=
  readAll_decodes_iff (by decide) (by decide) (fromBytes_plays _) ()

/-- `é` in two chunks becomes two replacement characters. -/
theorem not_decodes_split :
    (∃ N, ∀ n, N ≤ n → ((fromBytes [[0xC3], [0xA9]] : ByteStream Unit).readAll n 2 ()).1 =
        some (.ok "\uFFFD\uFFFD")) ∧
      decodeChunk [0xC3, 0xA9] = "é" ∧ "\uFFFD\uFFFD" ≠ "é" := by
  have htext : decodeChunks [[0xC3], [0xA9]] = "\uFFFD\uFFFD" := by decide
  refine ⟨?_, by decide, by decide⟩
  rw [← htext]
  exact readAll_plays (by decide) (by decide) (fromBytes_plays _) ()

end ByteStream

end Mulp.Stream
