import Mulp.Stream.FileBytes
import Mulp.Stream.Kleisli

/-! Whole streams: `read_all_bytes` and `read_all` (`stream/byte_stream.mbt`).

Both are one loop over the answers of the stream, with another way to add a chunk to
what has been read; the lemmas are about the loop. -/
namespace Mulp.Stream.ByteStream

open Mulp.Core Pull

variable {ω : Type}

/-! ## The two loops -/

section Read

variable {κ ρ : Type} {keep : κ → Bytes → κ} {finish : κ → Int → Option ρ}

/-- The loop body that `read_all` and `read_all_bytes` share: they keep the chunks in
their own way, and finish with what they kept. -/
def readTurn (keep : κ → Bytes → κ) (finish : κ → Int → Option ρ)
    (next : ByteStream ω → ω → Outcome (Reply MulpError Bytes) (ByteStream ω) ω) (maxBytes : Int) :
    ByteStream ω × κ × Int → ω → Turn (Except MulpError ρ) × (ByteStream ω × κ × Int) × ω
  | (self, kept, total), w =>
      match next self w with
      | (none, self, w) => (.stuck, (self, kept, total), w)
      | (some (.ok (some chunk)), self, w) =>
          let total := (total + chunk.length).bmod (2 ^ 32)
          if total > maxBytes then
            (.reply (.error (exceeded maxBytes)), ((self.close w).1, kept, total), (self.close w).2)
          else (.again, (self, keep kept chunk, total), w)
      | (some (.ok none), self, w) =>
          match finish kept total with
          | some r => (.reply (.ok r), (self, kept, total), w)
          | none => (.stuck, (self, kept, total), w)
      | (some (.error err), self, w) => (.reply (.error err), (self, kept, total), w)

/-- What the loop makes of the rest of a script. -/
def readScriptWith (keep : κ → Bytes → κ) (finish : κ → Int → Option ρ) (maxBytes : Int) :
    κ → Int → Script MulpError Bytes → Option (Except MulpError ρ)
  | kept, total, .done => (finish kept total).map .ok
  | _, _, .fail err => some (.error err)
  | kept, total, .item chunk rest =>
      let total := (total + chunk.length).bmod (2 ^ 32)
      if total > maxBytes then some (.error (exceeded maxBytes))
      else readScriptWith keep finish maxBytes (keep kept chunk) total rest

variable {maxBytes : Int}

theorem readTurn_agrees
    {next next' : ByteStream ω → ω → Outcome (Reply MulpError Bytes) (ByteStream ω) ω}
    (h : Agrees next next') :
    BodyAgrees (readTurn keep finish next maxBytes) (readTurn keep finish next' maxBytes) := by
  rintro ⟨self, kept, total⟩ w hturn
  unfold readTurn at hturn ⊢
  rcases hn : next self w with ⟨_ | r, s', w'⟩
  · simp only [hn] at hturn
    exact absurd rfl hturn
  · simp only [h self w r (by rw [hn]), hn]

/-- A turn that leaves the loop leaves a stream that is consumed. -/
theorem readTurn_consumed {n : Nat} (st : ByteStream ω × κ × Int) (w : ω) :
    Meets (fun _ _ => True) (fun r st _ => r.isSome → st.1.consumed = true)
      (readTurn keep finish (readNext n) maxBytes st w) := by
  obtain ⟨s, kept, total⟩ := st
  rcases hn : readNext n s w with ⟨_ | err | _ | chunk, s', w'⟩
  · simp only [readTurn, hn, Meets]
    exact nofun
  · simp only [readTurn, hn, Meets]
    exact fun _ => consumed_of_end hn rfl
  · simp only [readTurn, hn]
    cases finish kept total with
    | none => exact fun hsome => absurd hsome (by simp)
    | some r => exact fun _ => consumed_of_end hn rfl
  · simp only [readTurn, hn]
    by_cases hmax : (total + chunk.length).bmod (2 ^ 32) > maxBytes
    · rw [if_pos hmax]
      exact fun _ => consumed_close s' w'
    · rw [if_neg hmax]
      exact trivial

theorem readTurn_sound {n : Nat} (st : ByteStream ω × κ × Int) (w : ω) (h : Sound st.1) :
    Sound (readTurn keep finish (readNext n) maxBytes st w).2.1.1 := by
  obtain ⟨s, kept, total⟩ := st
  have hnext := Sound.readNext h n w
  dsimp only at hnext
  rcases hn : readNext n s w with ⟨_ | err | _ | chunk, s', w'⟩ <;> rw [hn] at hnext <;>
    simp only [readTurn, hn]
  · exact hnext
  · exact hnext
  · cases finish kept total <;> exact hnext
  · split_ifs
    · exact hnext.close w'
    · exact hnext

/-- The loop on a stream that plays a script. -/
theorem loop_readTurn {sc : Script MulpError Bytes} {s : ByteStream ω} {kept : κ} {total : Int}
    {r : Except MulpError ρ} (h : (machine ω).Plays sc s)
    (hr : readScriptWith keep finish maxBytes kept total sc = some r) (w : ω) :
    ∃ n st w', loop (readTurn keep finish (readNext n) maxBytes) n (s, kept, total) w =
      (some r, st, w') := by
  have hagrees {n m : Nat} (hle : n ≤ m) :
      BodyAgrees (readTurn keep finish (readNext n : ByteStream ω → ω → _) maxBytes)
        (readTurn keep finish (readNext m) maxBytes) := readTurn_agrees (readNext_agrees hle)
  induction sc generalizing s kept total w with
  | done =>
      obtain ⟨n, s', w', hn⟩ := h w
      have hn : s.readNext n w = (some (.ok none), s', w') := hn
      obtain ⟨result, hfinish, rfl⟩ := Option.map_eq_some_iff.mp hr
      have hturn : readTurn keep finish (readNext n) maxBytes (s, kept, total) w =
          (.reply (.ok result), (s', kept, total), w') := by
        simp only [readTurn, hn, hfinish]
      exact ⟨n + 1, _, w', loop_now hagrees hturn⟩
  | fail err =>
      obtain ⟨n, s', w', hn⟩ := h w
      have hn : s.readNext n w = (some (.error err), s', w') := hn
      obtain rfl := Option.some.inj hr
      have hturn : readTurn keep finish (readNext n) maxBytes (s, kept, total) w =
          (.reply (.error err), (s', kept, total), w') := by
        simp only [readTurn, hn]
      exact ⟨n + 1, _, w', loop_now hagrees hturn⟩
  | item chunk rest ih =>
      obtain ⟨n, s', w', hn, hrest⟩ := h w
      have hn : s.readNext n w = (some (.ok (some chunk)), s', w') := hn
      rw [readScriptWith] at hr
      by_cases hmax : (total + chunk.length).bmod (2 ^ 32) > maxBytes
      · simp only [if_pos hmax] at hr
        obtain rfl := Option.some.inj hr
        have hturn : readTurn keep finish (readNext n) maxBytes (s, kept, total) w =
            (.reply (.error (exceeded maxBytes)),
              ((s'.close w').1, kept, (total + chunk.length).bmod (2 ^ 32)), (s'.close w').2) := by
          simp only [readTurn, hn, if_pos hmax]
        exact ⟨n + 1, _, _, loop_now hagrees hturn⟩
      · simp only [if_neg hmax] at hr
        have hturn : readTurn keep finish (readNext n) maxBytes (s, kept, total) w =
            (.again, (s', keep kept chunk, (total + chunk.length).bmod (2 ^ 32)), w') := by
          simp only [readTurn, hn, if_neg hmax]
        obtain ⟨k, st, w'', hk⟩ := ih hrest hr w'
        exact ⟨max n k + 1, st, w'', loop_after hagrees hturn hk⟩

end Read

/-! ## `read_all_bytes` -/

/-- Empty chunks are not kept. -/
def keepChunk (chunks : List Bytes) (chunk : Bytes) : List Bytes :=
  if chunk.length > 0 then chunks ++ [chunk] else chunks

theorem readAllBytesTurn_eq
    (next : ByteStream ω → ω → Outcome (Reply MulpError Bytes) (ByteStream ω) ω) (maxBytes : Int) :
    readAllBytesTurn next maxBytes = readTurn keepChunk concatByteChunks next maxBytes := by
  funext ⟨self, chunks, total⟩ w
  rcases hn : next self w with ⟨_ | _ | _ | chunk, s', w'⟩ <;> simp only [readAllBytesTurn, readTurn, hn]
  · cases concatByteChunks chunks total <;> rfl
  · rfl

theorem readAllBytes_agrees (maxBytes : Int) {n m : Nat} (hle : n ≤ m) :
    Agrees (readAllBytes n maxBytes : ByteStream ω → ω → _) (readAllBytes m maxBytes) := by
  intro self w r hr
  unfold readAllBytes at hr ⊢
  rw [readAllBytesTurn_eq] at hr ⊢
  rw [readAllBytesTurn_eq, loop_agrees (readTurn_agrees (readNext_agrees hle)) hle _ w r hr]

/-- A stream that has been read is consumed. -/
theorem consumed_of_readAllBytes {n : Nat} {maxBytes : Int} {self s' : ByteStream ω} {w w' : ω}
    {r : Except MulpError Bytes} (h : self.readAllBytes n maxBytes w = (some r, s', w')) :
    s'.consumed = true := by
  have hrule := @loop_rule (Except MulpError Bytes) (ByteStream ω × List Bytes × Int) ω
    (readAllBytesTurn (readNext n) maxBytes) (self, [], 0) w (fun _ _ => True)
    (fun r st _ => r.isSome → st.1.consumed = true) (fun _ _ _ hsome => by cases hsome)
    (fun st w _ => readAllBytesTurn_eq (readNext n) maxBytes ▸ readTurn_consumed st w) n trivial
  have hr : (loop (readAllBytesTurn (readNext n) maxBytes) n (self, [], 0) w).1 = some r :=
    congrArg Prod.fst h
  have hs : (loop (readAllBytesTurn (readNext n) maxBytes) n (self, [], 0) w).2.1.1 = s' :=
    congrArg (fun o => o.2.1) h
  rw [← hs]
  exact hrule (by rw [hr]; rfl)

theorem Sound.readAllBytes {self : ByteStream ω} (h : Sound self) (n : Nat) (maxBytes : Int)
    (w : ω) :
    Sound (self.readAllBytes n maxBytes w).2.1 := by
  rw [ByteStream.readAllBytes, readAllBytesTurn_eq]
  exact loop_preserves (fun st : ByteStream ω × List Bytes × Int => Sound st.1)
    (fun st w hs => readTurn_sound st w hs) n h

theorem readAllBytes_consumed {self : ByteStream ω} (h : self.consumed = true) (n : Nat)
    (maxBytes : Int) (w : ω) :
    self.readAllBytes (n + 1) maxBytes w =
      (some (.error (.streamError "byte stream already consumed")), self, w) := by
  have hturn : readAllBytesTurn (readNext (n + 1)) maxBytes (self, [], 0) w =
      (.reply (.error (.streamError "byte stream already consumed")), (self, [], 0), w) := by
    simp only [readAllBytesTurn, readNext_of_consumed h]
    rfl
  rw [readAllBytes, loop_reply hturn]
  rfl

/-! ## Scripts -/

/-- A number of bytes as a 32-bit integer. -/
def int32 (n : Nat) : Int := (n : Int).bmod (2 ^ 32)

/-- What `read_all_bytes` makes of the rest of a script, with the bytes so far, whose total
may wrap. -/
def readWrapped (maxBytes : Int) : Bytes → Script MulpError Bytes → Except MulpError Bytes
  | bytes, .done => .ok (bytes.take (int32 bytes.length).toNat)
  | _, .fail err => .error err
  | bytes, .item chunk rest =>
      if int32 (bytes ++ chunk).length > maxBytes then .error (exceeded maxBytes)
      else readWrapped maxBytes (bytes ++ chunk) rest

/-- `readWrapped` where the total does not wrap. -/
def readScript (maxBytes : Int) : Bytes → Script MulpError Bytes → Except MulpError Bytes
  | bytes, .done => .ok bytes
  | _, .fail err => .error err
  | bytes, .item chunk rest =>
      if (bytes.length + chunk.length : Int) > maxBytes then
        .error (.streamError ("byte stream exceeded " ++ toString maxBytes ++ " bytes"))
      else readScript maxBytes (bytes ++ chunk) rest

/-- The chunks are too short for the 32-bit sum to overflow. -/
def Fits (maxBytes : Int) : Script MulpError Bytes → Prop
  | .done => True
  | .fail _ => True
  | .item chunk rest => maxBytes + chunk.length < 2 ^ 31 ∧ Fits maxBytes rest

section Plays

variable {maxBytes : Int} {s : ByteStream ω} {sc : Script MulpError Bytes} {chunks : List Bytes}

theorem flatten_keepChunk (chunks : List Bytes) (chunk : Bytes) :
    (keepChunk chunks chunk).flatten = chunks.flatten ++ chunk := by
  rw [keepChunk]
  split_ifs with hchunk
  · rw [List.flatten_append, List.flatten_singleton]
  · rw [List.eq_nil_of_length_eq_zero (Nat.eq_zero_of_not_pos hchunk), List.append_nil]

theorem keepChunk_ne_nil (h : ∀ chunk ∈ chunks, chunk ≠ []) (chunk : Bytes) :
    ∀ kept ∈ keepChunk chunks chunk, kept ≠ [] := by
  rw [keepChunk]
  split_ifs with hchunk
  · intro kept hkept
    rcases List.mem_append.mp hkept with hkept | hkept
    · exact h kept hkept
    · rw [List.mem_singleton.mp hkept]
      exact List.length_pos_iff.mp hchunk
  · exact h

theorem int32_le (n : Nat) : int32 n ≤ n := by
  unfold int32
  rw [Int.bmod_def]
  split_ifs <;> omega

theorem int32_of_lt {n : Nat} (h : n < 2 ^ 31) : int32 n = n := by
  unfold int32
  apply Int.bmod_eq_of_le <;> omega

theorem int32_add (n m : Nat) : (int32 n + m).bmod (2 ^ 32) = int32 (n + m) := by
  unfold int32
  rw [Int.bmod_add_bmod, Int.natCast_add]

/-- The total is the sum of the lengths as a 32-bit integer, and the kept chunks are not
empty, so that concatenating them does not leave them. -/
theorem readScriptWith_bytes (hne : ∀ chunk ∈ chunks, chunk ≠ []) :
    readScriptWith keepChunk concatByteChunks maxBytes chunks (int32 chunks.flatten.length) sc =
      some (readWrapped maxBytes chunks.flatten sc) := by
  induction sc generalizing chunks with
  | done =>
      rw [readScriptWith, concatByteChunks_take hne (int32_le _), readWrapped]
      rfl
  | fail err => rfl
  | item chunk rest ih =>
      have hrest := ih (keepChunk_ne_nil hne chunk)
      rw [flatten_keepChunk] at hrest
      rw [readScriptWith, readWrapped]
      simp only [int32_add, ← List.length_append, hrest]
      split_ifs <;> rfl

/-- `read_all_bytes` on a stream that plays a script. -/
theorem readAllBytes_wrapped (h : (machine ω).Plays sc s) (w : ω) :
    ∃ n s' w', s.readAllBytes n maxBytes w = (some (readWrapped maxBytes [] sc), s', w') := by
  have hne : ∀ chunk ∈ ([] : List Bytes), chunk ≠ [] := by simp
  obtain ⟨n, st, w', hn⟩ := loop_readTurn h (readScriptWith_bytes hne) w
  refine ⟨n, st.1, w', ?_⟩
  rw [readAllBytes, readAllBytesTurn_eq]
  exact congrArg (Outcome.map Prod.fst) hn

theorem readWrapped_eq (hfits : Fits maxBytes sc) {bytes : Bytes} (hint : bytes.length < 2 ^ 31)
    (hmax : (bytes.length : Int) ≤ maxBytes) :
    readWrapped maxBytes bytes sc = readScript maxBytes bytes sc := by
  induction sc generalizing bytes with
  | done => rw [readWrapped, readScript, int32_of_lt hint, Int.toNat_natCast, List.take_length]
  | fail err => rfl
  | item chunk rest ih =>
      have hbound := hfits.1
      have hlength : (bytes ++ chunk).length = bytes.length + chunk.length := List.length_append
      rw [readWrapped, readScript, int32_of_lt (by omega), hlength, Int.natCast_add]
      split_ifs with hover
      · rfl
      · exact ih hfits.2 (by omega) (by omega)

/-- The same within the limits. -/
theorem readAllBytes_plays (hfits : Fits maxBytes sc) (h : (machine ω).Plays sc s)
    (hmax : 0 ≤ maxBytes) (w : ω) : ∃ n s' w', s.readAllBytes n maxBytes w =
    (some (readScript maxBytes [] sc), s', w') := by
  have hwrapped := @readWrapped_eq maxBytes sc hfits [] (by decide) hmax
  rw [← hwrapped]
  exact readAllBytes_wrapped h w

end Plays

/-! ## `byte_stream_from_bytes` -/

/-- A stream of chunks that has been read `k` times. -/
def given (chunks : List Bytes) (k : Nat) : ByteStream ω :=
  .source (fun index w => (.ok chunks[index]?, w)) id (List.replicate k .pull) false

theorem readNext_given (chunks : List Bytes) (k n : Nat) (w : ω) :
    (given chunks k : ByteStream ω).readNext (n + 1) w =
      settled close (some (.ok chunks[k]?), given chunks (k + 1), w) := by
  show settled close (pull (readNext n) n (given chunks k) w) = _
  rw [given, pull, List.count_replicate_self, ← List.replicate_succ']
  rfl

theorem given_plays {chunks rest : List Bytes} {k : Nat} (h : chunks.drop k = rest) :
    (machine ω).Plays (.ofList rest) (given chunks k) := by
  induction rest generalizing k with
  | nil =>
      intro w
      have hnone : chunks[k]? = none := List.getElem?_eq_none (List.drop_eq_nil_iff.mp h)
      have hnext := readNext_given chunks k 0 w
      rw [hnone] at hnext
      exact ⟨1, _, _, hnext⟩
  | cons chunk rest ih =>
      intro w
      have hsome : chunks[k]? = some chunk := by
        rw [← List.head?_drop, h]
        rfl
      have hrest : chunks.drop (k + 1) = rest := by
        rw [← List.drop_drop, h]
        rfl
      have hnext := readNext_given chunks k 0 w
      rw [hsome] at hnext
      exact ⟨1, _, _, hnext, ih hrest⟩

theorem fromBytes_plays (chunks : List Bytes) :
    (machine ω).Plays (.ofList chunks) (fromBytes chunks) :=
  given_plays (k := 0) rfl

end Mulp.Stream.ByteStream
