import Mulp.Vinyl.Delivers

/-! Reading the streams of a store that has grown (`vinyl/file.mbt`,
`stream/byte_stream.mbt`).

The objects of a store refer to one another by number. As long as they refer to
no object that is yet to be made, what is made later does not change what a
stream answers. -/
namespace Mulp.Vinyl

open Mulp.Core Mulp.Stream Pull

/-- The objects a closure has captured are among the first `streams` streams
and the first `replays` replayable streams. -/
def Captured.Refers (streams replays : Nat) : Captured → Prop
  | .chunks _ _ _ => True
  | .reader replay _ => replay < replays
  | .footer stream _ _ => stream < streams

namespace Store

/-- Every object refers to objects of the store. A store begins so, and each object that is made
refers to older ones only. -/
structure Closed (st : Store) : Prop where
  streams : ∀ s ∈ st.streams, s.captured.Refers st.streams.length st.replays.length
  replays : ∀ r ∈ st.replays, r.source < st.streams.length

/-- The store with more objects, which come after those that there are, so that these keep their
numbers. -/
def extend (st : Store) (streams : List StreamObject) (replays : List ReplayObject) : Store :=
  ⟨st.streams ++ streams, st.replays ++ replays⟩

/-- The objects are as many as before, and closed: a read changes objects, but makes none and drops
none. -/
structure Within (st st' : Store) : Prop where
  closed : st'.Closed
  streams : st'.streams.length = st.streams.length
  replays : st'.replays.length = st.replays.length

theorem Closed.within {st : Store} (h : st.Closed) : Within st st := ⟨h, rfl, rfl⟩

theorem Within.trans {st st' st'' : Store} (h : Within st st') (h' : Within st' st'') :
    Within st st'' :=
  ⟨h'.closed, h'.streams.trans h.streams, h'.replays.trans h.replays⟩

/-! ## The updates -/

section Modify

variable {α : Type} {l : List α} {i : Nat} {f : α → α}

/-- What is in a modified list was in it, or has been modified. -/
theorem of_mem_modify {x : α} (h : x ∈ l.modify i f) : x ∈ l ∨ ∃ y ∈ l, x = f y := by
  obtain ⟨j, hj⟩ := List.mem_iff_getElem?.mp h
  by_cases hij : i = j
  · rw [hij, List.getElem?_modify_eq] at hj
    obtain ⟨y, hy, rfl⟩ := Option.map_eq_some_iff.mp hj
    exact .inr ⟨y, List.mem_of_getElem? hy, rfl⟩
  · rw [List.getElem?_modify_ne _ _ hij] at hj
    exact .inl (List.mem_of_getElem? hj)

theorem modify_append_left (h : i < l.length) (more : List α) :
    (l ++ more).modify i f = l.modify i f ++ more := by
  induction l generalizing i with
  | nil => cases h
  | cons x l ih =>
      cases i with
      | zero => rfl
      | succ i => simpa using ih (by simpa using h)

end Modify

section Updates

variable {st : Store} {i p : Nat} {captured : Captured} {f : ReplayObject → ReplayObject}

theorem Closed.capture (h : st.Closed)
    (hcaptured : captured.Refers st.streams.length st.replays.length) :
    Within st (st.capture i captured) := by
  refine ⟨⟨?_, ?_⟩, List.length_modify .., rfl⟩
  · intro s hs
    simp only [Store.capture, List.length_modify] at hs ⊢
    rcases of_mem_modify hs with hs | ⟨s', -, rfl⟩
    · exact h.streams s hs
    · exact hcaptured
  · intro r hr
    simp only [Store.capture, List.length_modify]
    exact h.replays r hr

theorem Closed.close (h : st.Closed) : Within st (st.close i) := by
  refine ⟨⟨?_, ?_⟩, List.length_modify .., rfl⟩
  · intro s hs
    simp only [Store.close, List.length_modify] at hs ⊢
    rcases of_mem_modify hs with hs | ⟨s', hs', rfl⟩
    · exact h.streams s hs
    · exact h.streams s' hs'
  · intro r hr
    simp only [Store.close, List.length_modify]
    exact h.replays r hr

theorem Closed.setReplay (h : st.Closed) (hf : ∀ r, (f r).source = r.source) :
    Within st (st.setReplay p f) := by
  refine ⟨⟨?_, ?_⟩, rfl, List.length_modify ..⟩
  · intro s hs
    simp only [Store.setReplay, List.length_modify]
    exact h.streams s hs
  · intro r hr
    rcases of_mem_modify hr with hr | ⟨r', hr', rfl⟩
    · exact h.replays r hr
    · rw [hf]
      exact h.replays r' hr'

variable (streams : List StreamObject) (replays : List ReplayObject)

theorem extend_streams (h : i < st.streams.length) :
    (st.extend streams replays).streams[i]? = st.streams[i]? :=
  List.getElem?_append_left h

theorem extend_replays (h : p < st.replays.length) :
    (st.extend streams replays).replays[p]? = st.replays[p]? :=
  List.getElem?_append_left h

theorem extend_capture (h : i < st.streams.length) :
    (st.extend streams replays).capture i captured =
      (st.capture i captured).extend streams replays := by
  simp only [extend, Store.capture, modify_append_left h]

theorem extend_close (h : i < st.streams.length) :
    (st.extend streams replays).close i = (st.close i).extend streams replays := by
  simp only [extend, Store.close, modify_append_left h]

theorem extend_setReplay (h : p < st.replays.length) :
    (st.extend streams replays).setReplay p f = (st.setReplay p f).extend streams replays := by
  simp only [extend, Store.setReplay, modify_append_left h]

end Updates

/-! ## Reading -/

section Read

variable {streams : List StreamObject} {replays : List ReplayObject}

/-- A read in `st`, and the same read with more objects in the store: the answer is the same, and it
leaves the further objects as they are. It composes along the readers that a stream goes through. -/
def Unaffected (streams : List StreamObject) (replays : List ReplayObject) (st : Store)
    (read : Store → Option (Reply MulpError Bytes) × Store) : Prop :=
  Within st (read st).2 ∧
    read (st.extend streams replays) = ((read st).1, (read st).2.extend streams replays)

section Pull

variable {next : Nat → Store → Option (Reply MulpError Bytes) × Store} {st : Store} {i : Nat}

/-- A reader goes on with its cache, then with what the source still gives. -/
theorem pull_reader_unaffected
    (hnext : ∀ i st, st.Closed → i < st.streams.length → Unaffected streams replays st (next i))
    (h : st.Closed) (hi : i < st.streams.length) {p index : Nat} (hp : p < st.replays.length) :
    Unaffected streams replays st fun st => pull next i st (.reader p index) := by
  obtain ⟨replay, hreplay⟩ : ∃ replay, st.replays[p]? = some replay :=
    ⟨_, List.getElem?_eq_getElem hp⟩
  have hsource := h.replays replay (List.mem_of_getElem? hreplay)
  obtain ⟨hwithin, hread⟩ := hnext replay.source st h hsource
  simp only [Unaffected, pull, extend_replays _ _ hp, hreplay, hread]
  cases replay.cache[index]? with
  | some chunk => exact ⟨h.capture hp, by rw [extend_capture _ _ hi]⟩
  | none =>
      dsimp only
      by_cases hended : replay.ended = true
      · simp only [hended, if_true]
        exact ⟨h.within, trivial⟩
      · simp only [hended, Bool.false_eq_true, if_false]
        cases replay.error with
        | some err => exact ⟨h.within, rfl⟩
        | none =>
            dsimp only
            rcases hn : next replay.source st with ⟨_ | reply, st'⟩
            · rw [hn] at hwithin
              exact ⟨hwithin, rfl⟩
            · -- the reader and its stream are where they were before the source was read
              rw [hn] at hwithin
              have hp' : p < st'.replays.length := by rw [hwithin.replays]; exact hp
              have hi' : i < st'.streams.length := by rw [hwithin.streams]; exact hi
              cases reply with
              | error err =>
                  refine ⟨hwithin.trans (hwithin.closed.setReplay fun _ => rfl), ?_⟩
                  dsimp only
                  rw [extend_setReplay _ _ hp']
              | ok chunk =>
                  cases chunk with
                  | none =>
                      refine ⟨hwithin.trans (hwithin.closed.setReplay fun _ => rfl), ?_⟩
                      dsimp only
                      rw [extend_setReplay _ _ hp']
                  | some chunk =>
                      have hset := hwithin.closed.setReplay (p := p)
                        (f := fun r => { r with cache := r.cache ++ [chunk] }) fun _ => rfl
                      have hi'' := hi'
                      rw [← hset.streams] at hi''
                      have hp'' := hp'
                      rw [← hset.replays] at hp''
                      refine ⟨(hwithin.trans hset).trans (hset.closed.capture hp''), ?_⟩
                      dsimp only
                      rw [extend_setReplay _ _ hp', extend_capture _ _ hi'']

/-- A stream with a footer is read to its end, and then gives the footer. -/
theorem pull_footer_unaffected
    (hnext : ∀ i st, st.Closed → i < st.streams.length → Unaffected streams replays st (next i))
    (h : st.Closed) (hi : i < st.streams.length) {stream : Nat} {footer : Bytes} {footerSent : Bool}
    (hstream : stream < st.streams.length) :
    Unaffected streams replays st fun st => pull next i st (.footer stream footer footerSent) := by
  obtain ⟨hwithin, hread⟩ := hnext stream st h hstream
  simp only [Unaffected, pull, hread]
  by_cases hsent : footerSent = true
  · simp only [hsent, if_true]
    exact ⟨h.within, trivial⟩
  · simp only [hsent, Bool.false_eq_true, if_false]
    rcases hn : next stream st with ⟨_ | _ | _ | chunk, st'⟩
    all_goals rw [hn] at hwithin
    · exact ⟨hwithin, rfl⟩
    · exact ⟨hwithin, rfl⟩
    · have hi' : i < st'.streams.length := by rw [hwithin.streams]; exact hi
      have hrefers : (Captured.footer stream footer true).Refers st'.streams.length
          st'.replays.length := by
        show stream < st'.streams.length
        rw [hwithin.streams]
        exact hstream
      refine ⟨hwithin.trans (hwithin.closed.capture hrefers), ?_⟩
      dsimp only
      rw [extend_capture _ _ hi']
    · exact ⟨hwithin, rfl⟩

theorem pull_unaffected
    (hnext : ∀ i st, st.Closed → i < st.streams.length → Unaffected streams replays st (next i))
    (h : st.Closed) (hi : i < st.streams.length) {captured : Captured}
    (hcaptured : captured.Refers st.streams.length st.replays.length) :
    Unaffected streams replays st fun st => pull next i st captured := by
  cases captured with
  | chunks chunks failure index =>
      simp only [Unaffected, pull]
      cases chunks[index]? with
      | none =>
          cases failure with
          | none => exact ⟨h.within, rfl⟩
          | some err => exact ⟨h.within, rfl⟩
      | some chunk => exact ⟨h.capture trivial, by rw [extend_capture _ _ hi]⟩
  | reader p index => exact pull_reader_unaffected hnext h hi hcaptured
  | footer stream footer footerSent => exact pull_footer_unaffected hnext h hi hcaptured

end Pull

/-- A read in a larger store answers the same and changes the same objects. -/
theorem readNext_unaffected (streams : List StreamObject) (replays : List ReplayObject) (n : Nat)
    {st : Store} (h : st.Closed) {i : Nat}
    (hi : i < st.streams.length) : Unaffected streams replays st (readNext n i) := by
  induction n generalizing st i with
  | zero => exact ⟨h.within, rfl⟩
  | succ n ih =>
      obtain ⟨s, hs⟩ : ∃ s, st.streams[i]? = some s := ⟨_, List.getElem?_eq_getElem hi⟩
      have hrefers := h.streams s (List.mem_of_getElem? hs)
      obtain ⟨hwithin, hpull⟩ := pull_unaffected (fun i st hst hi => ih hst hi) h hi hrefers
      simp only [Unaffected, readNext, extend_streams _ _ hi, hs, hpull]
      by_cases hconsumed : s.consumed = true
      · simp only [hconsumed, if_true]
        exact ⟨h.within, trivial⟩
      · simp only [hconsumed, Bool.false_eq_true, if_false]
        dsimp only at hwithin
        rcases hp : pull (readNext n) i st s.captured with ⟨_ | _ | _ | chunk, st'⟩
        -- an end or an error closes the stream, a chunk leaves it open
        all_goals rw [hp] at hwithin
        · exact ⟨hwithin, rfl⟩
        · have hi' : i < st'.streams.length := by rw [hwithin.streams]; exact hi
          refine ⟨hwithin.trans hwithin.closed.close, ?_⟩
          dsimp only
          rw [extend_close _ _ hi']
        · have hi' : i < st'.streams.length := by rw [hwithin.streams]; exact hi
          refine ⟨hwithin.trans hwithin.closed.close, ?_⟩
          dsimp only
          rw [extend_close _ _ hi']
        · exact ⟨hwithin, rfl⟩

end Read

/-! ## Successive reads -/

/-- The answers of `k` successive reads of stream `i`. -/
def answers (n i : Nat) : Nat → Store → Option (List (Reply MulpError Bytes))
  | 0, _ => some []
  | k + 1, st =>
      match readNext n i st with
      | (some r, st) => (answers n i k st).map (r :: ·)
      | (none, _) => none

/-- Successive reads of stream `i` give these answers. -/
def Answers (st : Store) (i : Nat) (rs : List (Reply MulpError Bytes)) : Prop :=
  ∃ n, answers n i rs.length st = some rs

theorem answers_consumed {st : Store} {i : Nat} (h : Consumed st i) (n k : Nat) :
    answers (n + 1) i k st = some (List.replicate k ByteStream.alreadyConsumed) := by
  induction k with
  | zero => rfl
  | succ k ih =>
      simp only [answers, readNext_consumed h, ih, Option.map_some]
      rfl

/-- A stream that has answered with an end or an error is consumed. -/
theorem consumed_of_readNext {n i : Nat} {st st' : Store} {r : Reply MulpError Bytes}
    (hclosed : st.Closed) (hi : i < st.streams.length) (h : readNext n i st = (some r, st'))
    (hr : r.isEnd = true) : Consumed st' i := by
  cases n with
  | zero => cases h
  | succ n =>
      obtain ⟨s, hs⟩ : ∃ s, st.streams[i]? = some s := ⟨_, List.getElem?_eq_getElem hi⟩
      simp only [readNext, hs] at h
      by_cases hconsumed : s.consumed = true
      · simp only [hconsumed, if_true] at h
        cases h
        exact ⟨s.captured, by rw [hs, ← hconsumed]⟩
      · simp only [hconsumed, Bool.false_eq_true, if_false] at h
        have hrefers := hclosed.streams s (List.mem_of_getElem? hs)
        have hwithin := (pull_unaffected
          (fun i st hst hi => readNext_unaffected [] [] n hst hi) hclosed hi hrefers).1
        dsimp only at hwithin
        rcases hp : pull (readNext n) i st s.captured with ⟨_ | _ | _ | chunk, st₁⟩
        all_goals rw [hp] at h hwithin
        · cases h
        · cases h
          have hi₁ : i < st₁.streams.length := by rw [hwithin.streams]; exact hi
          exact consumed_close (List.getElem?_eq_getElem hi₁)
        · cases h
          have hi₁ : i < st₁.streams.length := by rw [hwithin.streams]; exact hi
          exact consumed_close (List.getElem?_eq_getElem hi₁)
        · cases h
          cases hr

theorem modify_last {α : Type} (l : List α) (x : α) (f : α → α) :
    (l ++ [x]).modify l.length f = l ++ [f x] := by
  induction l with
  | nil => rfl
  | cons y l ih => simpa using ih

/-- The store with a reader over stream `i` that has read `cache`. -/
def withReader (st : Store) (i : Nat) (cache : List Bytes) : Store :=
  st.extend [⟨.reader st.replays.length cache.length, false⟩] [⟨i, cache, false, none⟩]

section Reader

variable {st st' : Store} {i n : Nat} {cache : List Bytes}

theorem withReader_stream (st : Store) (i : Nat) (cache : List Bytes) :
    (st.withReader i cache).streams[st.streams.length]? =
      some ⟨.reader st.replays.length cache.length, false⟩ := by
  simp [withReader, extend]

theorem withReader_replay (st : Store) (i : Nat) (cache : List Bytes) :
    (st.withReader i cache).replays[st.replays.length]? = some ⟨i, cache, false, none⟩ := by
  simp [withReader, extend]

/-- The source is read as in the store without the reader. -/
theorem readNext_source (cache : List Bytes) (h : st.Closed) (hi : i < st.streams.length) {r}
    (hread : readNext n i st = (r, st')) :
    Within st st' ∧ readNext n i (st.withReader i cache) =
      (r, st'.extend [⟨.reader st.replays.length cache.length, false⟩]
        [⟨i, cache, false, none⟩]) := by
  have hun := readNext_unaffected [⟨.reader st.replays.length cache.length, false⟩]
    [⟨i, cache, false, none⟩] n h hi
  rw [Unaffected, hread] at hun
  exact hun

theorem readNext_withReader_item (h : st.Closed) (hi : i < st.streams.length) {chunk : Bytes}
    (hread : readNext n i st = (some (.ok (some chunk)), st')) :
    readNext (n + 1) st.streams.length (st.withReader i cache) =
      (some (.ok (some chunk)), st'.withReader i (cache ++ [chunk])) := by
  obtain ⟨hwithin, hsource⟩ := readNext_source cache h hi hread
  refine readNext_item (withReader_stream st i cache) ?_
  have hcache : cache[cache.length]? = none := List.getElem?_eq_none (Nat.le_refl _)
  simp only [pull, withReader_replay, hcache, Bool.false_eq_true, if_false, hsource]
  rw [← hwithin.streams, ← hwithin.replays]
  simp [withReader, extend, setReplay, capture, modify_last]

theorem readNext_withReader_end (cache : List Bytes) (h : st.Closed) (hi : i < st.streams.length)
    {r : Reply MulpError Bytes} (hr : r.isEnd = true) (hread : readNext n i st = (some r, st')) :
    ∃ st'', readNext (n + 1) st.streams.length (st.withReader i cache) = (some r, st'') ∧
      Consumed st'' st.streams.length := by
  obtain ⟨hwithin, hsource⟩ := readNext_source cache h hi hread
  have hcache : cache[cache.length]? = none := List.getElem?_eq_none (Nat.le_refl _)
  obtain ⟨last, hpull, hstreams⟩ : ∃ last, pull (readNext n) st.streams.length
      (st.withReader i cache) (.reader st.replays.length cache.length) = (some r, last) ∧
      last.streams = st'.streams ++ [⟨.reader st.replays.length cache.length, false⟩] := by
    simp only [pull, withReader_replay, hcache, Bool.false_eq_true, if_false, hsource]
    rcases r with err | _ | chunk
    · exact ⟨_, rfl, rfl⟩
    · exact ⟨_, rfl, rfl⟩
    · cases hr
  have hstream : last.streams[st.streams.length]? =
      some ⟨.reader st.replays.length cache.length, false⟩ := by
    simp [hstreams, ← hwithin.streams]
  refine ⟨last.close st.streams.length, ?_, consumed_close hstream⟩
  rcases r with err | _ | chunk
  · simp only [readNext, withReader_stream, Bool.false_eq_true, if_false, hpull]
  · simp only [readNext, withReader_stream, Bool.false_eq_true, if_false, hpull]
  · cases hr

/-- A reader over stream `i` answers as `i` does. -/
theorem answers_withReader (h : st.Closed) (hi : i < st.streams.length) (n k : Nat) :
    answers (n + 1) st.streams.length k (st.withReader i cache) = answers n i k st := by
  induction k generalizing st cache with
  | zero => rfl
  | succ k ih =>
      rcases hread : readNext n i st with ⟨_ | r, st'⟩
      · obtain ⟨-, hsource⟩ := readNext_source cache h hi hread
        have hcache : cache[cache.length]? = none := List.getElem?_eq_none (Nat.le_refl _)
        simp only [answers, hread, readNext, withReader_stream, Bool.false_eq_true, if_false, pull,
          withReader_replay, hcache, hsource]
      · have hwithin := (readNext_source cache h hi hread).1
        have hi' : i < st'.streams.length := by rw [hwithin.streams]; exact hi
        by_cases hr : r.isEnd = true
        · obtain ⟨st'', hreader, hconsumed⟩ := readNext_withReader_end cache h hi hr hread
          obtain ⟨m, rfl⟩ : ∃ m, n = m + 1 := by
            cases n with
            | zero => cases hread
            | succ m => exact ⟨m, rfl⟩
          simp only [answers, hread, hreader, answers_consumed hconsumed,
            answers_consumed (consumed_of_readNext h hi hread hr)]
        · rcases r with err | _ | chunk
          · exact absurd rfl hr
          · exact absurd rfl hr
          · simp only [answers, hread, readNext_withReader_item h hi hread]
            rw [← hwithin.streams, ih hwithin.closed hi']

end Reader

/-- Prepared contents give the same answers as the stream they are prepared from. -/
theorem answers_prepareContents {st : Store} (h : st.Closed) {i : Nat}
    (hi : i < st.streams.length) :
    ∃ reader replay, (st.prepareContents (.stream i)).1 = (.stream reader, some replay) ∧
      ∀ rs, (st.prepareContents (.stream i)).2.Answers reader rs ↔ st.Answers i rs := by
  have hstore : (st.prepareContents (.stream i)).2 = st.withReader i [] := rfl
  refine ⟨st.streams.length, st.replays.length, rfl, fun rs => ?_⟩
  rw [hstore]
  constructor
  · rintro ⟨_ | n, hn⟩
    · cases rs with
      | nil => exact ⟨0, rfl⟩
      | cons r rs => cases hn
    · exact ⟨n, by rw [← answers_withReader h hi n rs.length]; exact hn⟩
  · rintro ⟨n, hn⟩
    exact ⟨n + 1, by rw [answers_withReader h hi n rs.length]; exact hn⟩

end Store

end Mulp.Vinyl
