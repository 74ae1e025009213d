import Mulp.Lib.Base64
import Mulp.Stream.ReadAll
import Mulp.VinylFs.SourceMap

/-! Inline source maps in files with contents of any kind, also of streams that fail
(`vinyl_fs/sourcemap.mbt`, `vinyl/file.mbt`). -/
namespace Mulp.VinylFs

open Mulp.Core Mulp.Stream Mulp.Vinyl Pull

variable {ω : Type}

/-! ## Streams over streams -/

/-- A byte stream from outside, or one of the program over another stream, by the
function that made it: `ReplayableStream::reader`, for the only reader of its
replayable stream, or `append_stream_footer`. -/
inductive Derived (ω : Type) where
  | outside (stream : ByteStream ω)
  | reader (source : Derived ω) (cache : List Bytes) (ended : Bool) (error : Option MulpError)
      (index : Nat) (consumed : Bool)
  | appended (stream : Derived ω) (footer : Bytes) (footerSent consumed : Bool)

namespace Derived

def consumed : Derived ω → Bool
  | .outside stream => stream.consumed
  | .reader _ _ _ _ _ consumed => consumed
  | .appended _ _ _ consumed => consumed

/-- `ByteStream::close`: the streams of the program have no close callback. -/
def close : Derived ω → ω → Derived ω × ω
  | .outside stream, w => (.outside (stream.close w).1, (stream.close w).2)
  | .reader source cache ended error index _, w => (.reader source cache ended error index true, w)
  | .appended stream footer footerSent _, w => (.appended stream footer footerSent true, w)

/-- The call of the pull closure; `next` is `read_next` of the stream below. -/
def pull (next : Derived ω → ω → Outcome (Reply MulpError Bytes) (Derived ω) ω) (n : Nat) :
    Derived ω → ω → Outcome (Reply MulpError Bytes) (Derived ω) ω
  | .outside stream, w => (stream.pull (ByteStream.readNext n) n w).map .outside
  | .reader source cache ended error index consumed, w =>
      match cache[index]? with
      | some chunk =>
          (some (.ok (some chunk)), .reader source cache ended error (index + 1) consumed, w)
      | none =>
          if ended then (some (.ok none), .reader source cache ended error index consumed, w)
          else
            match error with
            | some err =>
                (some (.error err), .reader source cache ended (some err) index consumed, w)
            | none =>
                match next source w with
                | (none, source, w) => (none, .reader source cache ended none index consumed, w)
                | (some (.ok (some chunk)), source, w) =>
                    (some (.ok (some chunk)),
                      .reader source (cache ++ [chunk]) ended none (index + 1) consumed, w)
                | (some (.ok none), source, w) =>
                    (some (.ok none), .reader source cache true none index consumed, w)
                | (some (.error err), source, w) =>
                    (some (.error err), .reader source cache ended (some err) index consumed, w)
  | .appended stream footer footerSent consumed, w =>
      if footerSent then (some (.ok none), .appended stream footer footerSent consumed, w)
      else
        match next stream w with
        | (some (.ok none), stream, w) =>
            (some (.ok (some footer)), .appended stream footer true consumed, w)
        | (r, stream, w) => (r, .appended stream footer footerSent consumed, w)

def readNext : Nat → Derived ω → ω → Outcome (Reply MulpError Bytes) (Derived ω) ω
  | 0, s, w => (none, s, w)
  | n + 1, s, w => latched ByteStream.alreadyConsumed consumed close (pull (readNext n) n) s w

theorem pull_agrees {next next' : Derived ω → ω → Outcome (Reply MulpError Bytes) (Derived ω) ω}
    (h : Agrees next next') {n m : Nat} (hle : n ≤ m) : Agrees (pull next n) (pull next' m) := by
  intro s w r hr
  cases s with
  | outside stream =>
      rw [pull, pull, ByteStream.pull_agrees (ByteStream.readNext_agrees hle) hle stream w r hr]
  | reader source cache ended error index consumed =>
      simp only [pull] at hr ⊢
      rcases hchunk : cache[index]? with _ | chunk
      · rcases ended with _ | _
        · rcases error with _ | err
          · simp only [hchunk] at hr
            rcases hnext : next source w with ⟨_ | r', source', w'⟩
            · simp [hnext] at hr
            · rw [h source w r' (by rw [hnext]), hnext]
          · rfl
        · rfl
      · rfl
  | appended stream footer footerSent consumed =>
      simp only [pull] at hr ⊢
      rcases footerSent with _ | _
      · rcases hnext : next stream w with ⟨_ | r', stream', w'⟩
        · simp [hnext] at hr
        · rw [h stream w r' (by rw [hnext]), hnext]
      · rfl

theorem readNext_agrees {n m : Nat} (hle : n ≤ m) :
    Agrees (readNext n : Derived ω → ω → _) (readNext m) := by
  induction n generalizing m with
  | zero =>
      intro s w r hr
      cases hr
  | succ n ih =>
      obtain ⟨k, rfl⟩ : ∃ k, m = k + 1 := ⟨m - 1, by omega⟩
      intro s w r hr
      exact latched_agrees (pull_agrees (ih (by omega)) (by omega)) s w r hr

def machine (ω : Type) : Machine (Derived ω) ω MulpError Bytes := ⟨readNext, close, readNext_agrees⟩

/-! ## What they say -/

/-- A stream from outside is read as it is. -/
theorem readNext_outside (stream : ByteStream ω) (n : Nat) (w : ω) :
    readNext n (.outside stream) w = (stream.readNext n w).map .outside := by
  cases n with
  | zero => rfl
  | succ n =>
      rw [readNext, ByteStream.readNext]
      cases hconsumed : stream.consumed with
      | true =>
          have houtside : consumed (.outside stream) = true := hconsumed
          rw [latched_closed w houtside, latched_closed w hconsumed]
          rfl
      | false =>
          have houtside : consumed (.outside stream) = false := hconsumed
          rw [latched_open w houtside, latched_open w hconsumed, pull]
          exact settled_map (fun (_ : ByteStream ω) _ => rfl) _

theorem plays_outside {sc : Script MulpError Bytes} {stream : ByteStream ω}
    (h : (ByteStream.machine ω).Plays sc stream) : (machine ω).Plays sc (.outside stream) := by
  have hnext {n w r stream' w'} (stream : ByteStream ω)
      (hn : stream.readNext n w = (some r, stream', w')) :
      (machine ω).next n (.outside stream) w = (some r, .outside stream', w') := by
    show readNext n (.outside stream) w = _
    rw [readNext_outside, hn]
    rfl
  induction sc generalizing stream with
  | done =>
      intro w
      obtain ⟨n, stream', w', hn⟩ := h w
      exact ⟨n, _, w', hnext stream hn⟩
  | fail e =>
      intro w
      obtain ⟨n, stream', w', hn⟩ := h w
      exact ⟨n, _, w', hnext stream hn⟩
  | item chunk rest ih =>
      intro w
      obtain ⟨n, stream', w', hn, hrest⟩ := h w
      exact ⟨n, _, w', hnext stream hn, ih hrest⟩

section Next

variable {s s' t : Derived ω} {n : Nat} {w w' : ω} {chunk : Bytes} {r : Reply MulpError Bytes}

theorem next_item (hopen : s.consumed = false)
    (hpull : pull (readNext n) n s w = (some (.ok (some chunk)), s', w')) :
    (machine ω).next (n + 1) s w = (some (.ok (some chunk)), s', w') := by
  show latched _ _ _ _ s w = _
  rw [latched_open w hopen, hpull]
  rfl

theorem next_end (hopen : s.consumed = false) (hr : r.isEnd = true)
    (hpull : pull (readNext n) n s w = (some r, s', w')) :
    ∃ s'' w'', (machine ω).next (n + 1) s w = (some r, s'', w'') := by
  refine ⟨(s'.close w').1, (s'.close w').2, ?_⟩
  show latched _ _ _ _ s w = _
  rw [latched_open w hopen, hpull, settled_end hr]

end Next

/-- The only reader of a replayable stream says what the stream says. -/
theorem plays_reader {sc : Script MulpError Bytes} {source : Derived ω}
    (h : (machine ω).Plays sc source) (cache : List Bytes) :
    (machine ω).Plays sc (.reader source cache false none cache.length false) := by
  have hseen (cache : List Bytes) : cache[cache.length]? = none :=
    List.getElem?_eq_none_iff.mpr (Nat.le_refl _)
  induction sc generalizing source cache with
  | done =>
      intro w
      obtain ⟨n, source', w', hn⟩ := h w
      have hn : readNext n source w = (some (.ok none), source', w') := hn
      obtain ⟨s, w'', hnext⟩ := @next_end ω (.reader source cache false none cache.length false)
        (.reader source' cache true none cache.length false) n w w' (.ok none) rfl rfl
        (by simp only [pull, hseen, Bool.false_eq_true, if_false, hn])
      exact ⟨n + 1, s, w'', hnext⟩
  | fail e =>
      intro w
      obtain ⟨n, source', w', hn⟩ := h w
      have hn : readNext n source w = (some (.error e), source', w') := hn
      obtain ⟨s, w'', hnext⟩ := @next_end ω (.reader source cache false none cache.length false)
        (.reader source' cache false (some e) cache.length false) n w w' (.error e) rfl rfl
        (by simp only [pull, hseen, Bool.false_eq_true, if_false, hn])
      exact ⟨n + 1, s, w'', hnext⟩
  | item chunk rest ih =>
      intro w
      obtain ⟨n, source', w', hn, hrest⟩ := h w
      have hn : readNext n source w = (some (.ok (some chunk)), source', w') := hn
      have hplays := ih hrest (cache ++ [chunk])
      rw [List.length_append, List.length_singleton] at hplays
      refine ⟨n + 1, _, w', next_item rfl ?_, hplays⟩
      simp only [pull, hseen, Bool.false_eq_true, if_false, hn]

/-- The footer comes once, after what the stream says, and not after an error. -/
theorem plays_appended {sc : Script MulpError Bytes} {stream : Derived ω}
    (h : (machine ω).Plays sc stream) (footer : Bytes) :
    (machine ω).Plays (sc.append (.pure footer)) (.appended stream footer false false) := by
  induction sc generalizing stream with
  | done =>
      intro w
      obtain ⟨n, stream', w', hn⟩ := h w
      have hn : readNext n stream w = (some (.ok none), stream', w') := hn
      refine ⟨n + 1, .appended stream' footer true false, w', next_item rfl ?_, ?_⟩
      · simp only [pull, Bool.false_eq_true, if_false, hn]
      · intro w
        obtain ⟨s, w'', hnext⟩ :=
          @next_end ω (.appended stream' footer true false) _ 0 w w (.ok none) rfl rfl rfl
        exact ⟨1, s, w'', hnext⟩
  | fail e =>
      intro w
      obtain ⟨n, stream', w', hn⟩ := h w
      have hn : readNext n stream w = (some (.error e), stream', w') := hn
      obtain ⟨s, w'', hnext⟩ := @next_end ω (.appended stream footer false false)
        (.appended stream' footer false false) n w w' (.error e) rfl rfl
        (by simp only [pull, Bool.false_eq_true, if_false, hn])
      exact ⟨n + 1, s, w'', hnext⟩
  | item chunk rest ih =>
      intro w
      obtain ⟨n, stream', w', hn, hrest⟩ := h w
      have hn : readNext n stream w = (some (.ok (some chunk)), stream', w') := hn
      refine ⟨n + 1, _, w', next_item rfl ?_, ih hrest⟩
      simp only [pull, Bool.false_eq_true, if_false, hn]

/-! ## Files -/

def prepareContents : VinylContents (Derived ω) → VinylContents (Derived ω) × Option Unit
  | .stream source => (.stream (.reader source [] false none 0 false), some ())
  | other => (other, none)

def withContents (self : VinylFile (Derived ω) Unit) (contents : VinylContents (Derived ω)) :
    VinylFile (Derived ω) Unit :=
  let (contents, streamReplay) := prepareContents contents
  { self with contents, streamReplay }

def concatBytes (left right : Bytes) : Bytes :=
  List.ofFn fun index : Fin (left.length + right.length) =>
    if h : index < left.length then left[index] else right[index - left.length]

def appendStreamFooter (stream : Derived ω) (footer : Bytes) : Derived ω :=
  .appended stream footer false false

def inlineSourceMapFile (file : VinylFile (Derived ω) Unit) : VinylFile (Derived ω) Unit :=
  match file.sourceMap with
  | none => file
  | some sourceMap =>
      let footer := utf8Encode (inlineSourceMapComment sourceMap)
      match file.contents with
      | .buffer bytes => withContents file (.buffer (concatBytes bytes footer))
      | .stream stream => withContents file (.stream (appendStreamFooter stream footer))
      | .null => file

theorem concatBytes_eq (left right : Bytes) : concatBytes left right = left ++ right := by
  have hlength : (concatBytes left right).length = (left ++ right).length := by
    rw [concatBytes, List.length_ofFn, List.length_append]
  refine List.ext_getElem hlength fun index hleft hright => ?_
  simp only [concatBytes, List.getElem_ofFn, List.getElem_append, Fin.getElem_fin]

section Inline

variable {file : VinylFile (Derived ω) Unit} {sourceMap : String}

theorem inlineSourceMapFile_buffer (hmap : file.sourceMap = some sourceMap) {bytes : Bytes}
    (h : file.contents = .buffer bytes) :
    (inlineSourceMapFile file).contents =
      .buffer (bytes ++ utf8Encode (inlineSourceMapComment sourceMap)) := by
  rw [inlineSourceMapFile, hmap, h, ← concatBytes_eq]
  rfl

/-- A stream with a footer, as a file has it. -/
def inlinedStream (stream : Derived ω) (footer : Bytes) : Derived ω :=
  .reader (appendStreamFooter stream footer) [] false none 0 false

theorem inlineSourceMapFile_stream (hmap : file.sourceMap = some sourceMap) {stream : Derived ω}
    (h : file.contents = .stream stream) :
    (inlineSourceMapFile file).contents =
      .stream (inlinedStream stream (utf8Encode (inlineSourceMapComment sourceMap))) := by
  rw [inlineSourceMapFile, hmap, h]
  rfl

theorem plays_inlinedStream {sc : Script MulpError Bytes} {stream : Derived ω}
    (h : (machine ω).Plays sc stream) (footer : Bytes) :
    (machine ω).Plays (sc.append (.pure footer)) (inlinedStream stream footer) :=
  plays_reader (plays_appended h footer) []

/-- The contents are these bytes, in any chunks. A stream is said to contain them if it plays a
script of such chunks that ends normally. -/
def Contains (contents : VinylContents (Derived ω)) (bytes : Bytes) : Prop :=
  match contents with
  | .null => False
  | .buffer found => found = bytes
  | .stream stream => ∃ chunks, chunks.flatten = bytes ∧ (machine ω).Plays (.ofList chunks) stream

end Inline

end Derived

/-! ## The payload -/

theorem toList_base64Digit {v : Nat} (h : v < 64) : (base64Digit v).toList = [Base64.digit v] := by
  have hall : ∀ v < 64, (base64Digit v).toList = [Base64.digit v] := by decide +kernel
  exact hall v h

section Groups

variable (first second third : UInt8)

theorem toList_base64Encode_one : (base64Encode [first]).toList =
    [Base64.digit (first.toNat / 4), Base64.digit (first.toNat % 4 * 16), '=', '='] := by
  have hfirst := first.toNat_lt
  rw [base64Encode, String.toList_append, String.toList_append, String.toList_append,
    toList_base64Digit (by omega), toList_base64Digit (by omega)]
  rfl

theorem toList_base64Encode_two : (base64Encode [first, second]).toList =
    [Base64.digit (first.toNat / 4), Base64.digit (first.toNat % 4 * 16 + second.toNat / 16),
      Base64.digit (second.toNat % 16 * 4), '='] := by
  have hfirst := first.toNat_lt
  have hsecond := second.toNat_lt
  rw [base64Encode, String.toList_append, String.toList_append, String.toList_append,
    toList_base64Digit (by omega), toList_base64Digit (by omega), toList_base64Digit (by omega)]
  rfl

theorem toList_base64Encode_three (rest : Bytes) :
    (base64Encode (first :: second :: third :: rest)).toList =
      Base64.digit (first.toNat / 4) :: Base64.digit (first.toNat % 4 * 16 + second.toNat / 16) ::
      Base64.digit (second.toNat % 16 * 4 + third.toNat / 64) :: Base64.digit (third.toNat % 64) ::
      (base64Encode rest).toList := by
  have hfirst := first.toNat_lt
  have hsecond := second.toNat_lt
  have hthird := third.toNat_lt
  rw [base64Encode, String.toList_append, String.toList_append, String.toList_append,
    String.toList_append, toList_base64Digit (by omega), toList_base64Digit (by omega),
    toList_base64Digit (by omega), toList_base64Digit (by omega)]
  rfl

end Groups

theorem decode_base64Encode (bytes : Bytes) :
    Base64.decode (base64Encode bytes).toList = some bytes := by
  induction bytes using base64Encode.induct with
  | case1 => rfl
  | case2 first =>
      rw [toList_base64Encode_one]
      exact Base64.decode_one first
  | case3 first second =>
      rw [toList_base64Encode_two]
      exact Base64.decode_two first second
  | case4 first second third rest ih =>
      rw [toList_base64Encode_three, Base64.decode_three, ih]
      rfl

/-- Four digits for every three bytes that have begun. -/
theorem length_base64Encode (bytes : Bytes) :
    (base64Encode bytes).toList.length = 4 * ((bytes.length + 2) / 3) := by
  induction bytes using base64Encode.induct with
  | case1 => rfl
  | case2 first => simp [toList_base64Encode_one]
  | case3 first second => simp [toList_base64Encode_two]
  | case4 first second third rest ih =>
      rw [toList_base64Encode_three]
      simp only [List.length_cons, ih]
      omega

/-! ## Inline source maps -/

/-- What comes before the payload. -/
def mapPrefix : String := "//# sourceMappingURL=data:application/json;charset=utf-8;base64,"

theorem utf8Encode_append (first second : String) :
    utf8Encode (first ++ second) = utf8Encode first ++ utf8Encode second := by
  rw [utf8Encode, String.toList_append, List.flatMap_append]
  rfl

theorem utf8Encode_comment (sourceMap : String) : utf8Encode (inlineSourceMapComment sourceMap) =
    0x0A :: utf8Encode mapPrefix ++ utf8Encode (base64Encode (utf8Encode sourceMap)) := by
  have hcomment : inlineSourceMapComment sourceMap =
      "\n" ++ mapPrefix ++ base64Encode (utf8Encode sourceMap) := rfl
  have hnewline : utf8Encode "\n" = [0x0A] := by decide
  rw [hcomment, utf8Encode_append, utf8Encode_append, hnewline]
  rfl

theorem append_ofList (chunks : List Bytes) (footer : Bytes) :
    (Script.ofList chunks : Script MulpError Bytes).append (.pure footer) =
      .ofList (chunks ++ [footer]) := by
  induction chunks with
  | nil => rfl
  | cons chunk rest ih => rw [Script.ofList, Script.append, ih, List.cons_append, Script.ofList]

theorem append_failing {sc : Script MulpError Bytes} {err : MulpError} (h : sc.ending = .error err)
    (footer : Bytes) : sc.append (.pure footer) = sc := by
  induction sc with
  | done => cases h
  | fail => rfl
  | item chunk rest ih => rw [Script.append, ih h]

open Derived in
/-- A file made from a stream has what the stream delivers. -/
theorem contains_prepareContents {source : ByteStream ω} {chunks : List Bytes}
    (h : (ByteStream.machine ω).Plays (.ofList chunks) source) :
    Contains (Derived.prepareContents (.stream (.outside source))).1 chunks.flatten :=
  ⟨chunks, rfl, plays_reader (plays_outside h) []⟩

open Derived in
/-- The inline source map comes after the contents, in a chunk of its own if they are a
stream, unless that fails; and its payload is the map. -/
theorem inlineSourceMapFile_appends (file : VinylFile (Derived ω) Unit) {sourceMap : String}
    (hmap : file.sourceMap = some sourceMap) :
    (∃ payload footer, footer = 0x0A :: utf8Encode mapPrefix ++ utf8Encode payload ∧
      Base64.decode payload.toList = some (utf8Encode sourceMap) ∧
      (∀ bytes, Contains file.contents bytes →
        Contains (Derived.inlineSourceMapFile file).contents (bytes ++ footer)) ∧
      ∀ stream, file.contents = .stream stream → ∃ inlined,
        (Derived.inlineSourceMapFile file).contents = .stream inlined ∧
        (∀ chunks, (machine ω).Plays (.ofList chunks) stream →
          (machine ω).Plays (.ofList (chunks ++ [footer])) inlined) ∧
        ∀ sc err, sc.ending = .error err → (machine ω).Plays sc stream →
          (machine ω).Plays sc inlined) ∧
    ∀ bytes, Base64.decode (base64Encode bytes).toList = some bytes ∧
      (base64Encode bytes).toList.length = 4 * ((bytes.length + 2) / 3) := by
  refine ⟨⟨_, _, utf8Encode_comment sourceMap, decode_base64Encode _, ?_, ?_⟩, fun bytes =>
    ⟨decode_base64Encode bytes, length_base64Encode bytes⟩⟩
  · intro bytes h
    cases hcontents : file.contents with
    | null =>
        rw [hcontents] at h
        exact h.elim
    | buffer found =>
        rw [hcontents] at h
        rw [inlineSourceMapFile_buffer hmap hcontents]
        exact congrArg (· ++ _) h
    | stream stream =>
        rw [hcontents] at h
        obtain ⟨chunks, rfl, hplays⟩ := h
        have hinlined := plays_inlinedStream hplays (utf8Encode (inlineSourceMapComment sourceMap))
        rw [append_ofList] at hinlined
        rw [inlineSourceMapFile_stream hmap hcontents]
        refine ⟨_, ?_, hinlined⟩
        rw [List.flatten_append, List.flatten_singleton]
  · intro stream hcontents
    refine ⟨_, inlineSourceMapFile_stream hmap hcontents, fun chunks hplays => ?_,
      fun sc err hending hplays => ?_⟩
    · have hinlined := plays_inlinedStream hplays (utf8Encode (inlineSourceMapComment sourceMap))
      rwa [append_ofList] at hinlined
    · have hinlined := plays_inlinedStream hplays (utf8Encode (inlineSourceMapComment sourceMap))
      rwa [append_failing hending] at hinlined

/-- A file with the contents `ab` in two chunks. -/
def scriptFile : VinylFile (Derived Unit) Unit :=
  { cwd := "/src", base := "/src", history := ["/src/app.js"], streamReplay := some (), stat := none
    contents := (Derived.prepareContents (.stream (.outside (.fromBytes [[0x61], [0x62]])))).1
    symlink := none, sourceMap := some "\x7b\x7d", metadata := [], relativeCache := none }

theorem inlineSourceMapFile_script : ∃ payload,
    Base64.decode payload.toList = some (utf8Encode "\x7b\x7d") ∧
      Derived.Contains (Derived.inlineSourceMapFile scriptFile).contents
        (0x61 :: 0x62 :: 0x0A :: utf8Encode mapPrefix ++ utf8Encode payload) := by
  obtain ⟨⟨payload, footer, hfooter, hpayload, hcontains, -⟩, -⟩ :=
    inlineSourceMapFile_appends scriptFile rfl
  have hplays : (ByteStream.machine Unit).Plays (.ofList [[0x61], [0x62]])
      (.fromBytes [[0x61], [0x62]]) :=
    ByteStream.fromBytes_plays _
  refine ⟨payload, hpayload, ?_⟩
  have hinlined := hcontains _ (contains_prepareContents hplays)
  rw [hfooter] at hinlined
  exact hinlined

end Mulp.VinylFs
