import Mulp.Vinyl.File

/-! The clones of a vinyl file with stream contents see the whole stream
(`vinyl/file.mbt`).

The readers share a cache that grows, an `ended` flag and an error; each has an
index of its own. The invariant is that the cache and what the source still has
to say are together what the source said at first, and that a reader has seen the
cache up to its index. -/
namespace Mulp.Vinyl

open Mulp.Core Mulp.Stream Pull

variable {ω : Type}

/-! ## A private copy -/

/-- The answers that deliver the chunks. -/
def chunkReplies (chunks : List Bytes) : List (Reply MulpError Bytes) :=
  chunks.map fun chunk => .ok (some chunk)

/-- The cache, the flags and the recorded reads of the source, when every read
of it has returned. -/
inductive Replays (sc : Script MulpError Bytes) : ReplayableStream ω → Prop
  | live {source cache left} (hplays : (ByteStream.machine ω).Plays left source)
      (heq : sc.transcript = chunkReplies cache ++ left.transcript) :
      Replays sc ⟨source, cache, false, none, (chunkReplies cache).map some⟩
  | ended {source cache} (heq : sc.transcript = chunkReplies cache ++ [.ok none]) :
      Replays sc ⟨source, cache, true, none, sc.transcript.map some⟩
  | failed {source cache err} (heq : sc.transcript = chunkReplies cache ++ [.error err]) :
      Replays sc ⟨source, cache, false, some err, sc.transcript.map some⟩

/-- The last read of the source has not returned. -/
inductive Stalled (sc : Script MulpError Bytes) : ReplayableStream ω → Prop
  | mk {source cache} {left : Script MulpError Bytes} (heq : sc.transcript = chunkReplies cache ++ left.transcript) :
      Stalled sc ⟨source, cache, false, none, (chunkReplies cache).map some ++ [none]⟩

/-- What a reader has seen of the cache: the first chunks of it, up to its index, and the end or an
error only when it has seen them all. -/
inductive Follows (sc : Script MulpError Bytes) (cache : List Bytes) : Reader → Prop
  | reading {index} (hle : index ≤ cache.length) :
      Follows sc cache ⟨index, false, chunkReplies (cache.take index)⟩
  | consumed {index k} : Follows sc cache
      ⟨index, true, sc.transcript ++ List.replicate k ByteStream.alreadyConsumed⟩

theorem Follows.mono {sc : Script MulpError Bytes} {cache cache' : List Bytes} {reader : Reader}
    (h : Follows sc cache reader) (hcache : cache <+: cache') : Follows sc cache' reader := by
  obtain ⟨more, rfl⟩ := hcache
  cases h with
  | @reading index hle =>
      have htake : (cache ++ more).take index = cache.take index :=
        List.take_append_of_le_length hle
      rw [← htake]
      exact .reading (by simp; omega)
  | consumed => exact .consumed

theorem Replays.prefix_transcript {sc : Script MulpError Bytes} {replay : ReplayableStream ω}
    (h : Replays sc replay) : chunkReplies replay.cache <+: sc.transcript := by
  cases h with
  | live _ heq => exact ⟨_, heq.symm⟩
  | ended heq => exact ⟨_, heq.symm⟩
  | failed heq => exact ⟨_, heq.symm⟩

theorem Stalled.prefix_transcript {sc : Script MulpError Bytes} {replay : ReplayableStream ω}
    (h : Stalled sc replay) : chunkReplies replay.cache <+: sc.transcript := by
  cases h with
  | mk heq => exact ⟨_, heq.symm⟩

/-- The source has been read no more often than the script has replies. Once it has ended or failed
this is kept in the cache, and no reader asks the source again. -/
def ReadsWithin (sc : Script MulpError Bytes) (replay : ReplayableStream ω) : Prop :=
  ∃ answered, answered <+: sc.transcript ∧
    (replay.reads = answered.map some ∨ replay.reads = answered.map some ++ [none]) ∧
    replay.reads.length ≤ sc.transcript.length

theorem Replays.reads {sc : Script MulpError Bytes} {replay : ReplayableStream ω}
    (h : Replays sc replay) : ReadsWithin sc replay := by
  have hcache := h.prefix_transcript
  cases h with
  | live => exact ⟨_, hcache, .inl rfl, by simpa using hcache.length_le⟩
  | ended => exact ⟨_, List.prefix_rfl, .inl rfl, by simp⟩
  | failed => exact ⟨_, List.prefix_rfl, .inl rfl, by simp⟩

theorem Stalled.reads {sc : Script MulpError Bytes} {replay : ReplayableStream ω}
    (h : Stalled sc replay) : ReadsWithin sc replay := by
  have hcache := h.prefix_transcript
  cases h with
  | @mk source cache left heq =>
      refine ⟨_, hcache, .inr rfl, ?_⟩
      have hleft := left.transcript_length_pos
      rw [heq]
      simp
      omega

theorem chunkReplies_take_succ {cache : List Bytes} {index : Nat} {chunk : Bytes}
    (h : cache[index]? = some chunk) :
    chunkReplies (cache.take (index + 1)) =
      chunkReplies (cache.take index) ++ [.ok (some chunk)] := by
  rw [List.take_add_one, h]
  simp [chunkReplies]

theorem Follows.deliver {sc : Script MulpError Bytes} {cache : List Bytes} {index : Nat}
    {chunk : Bytes} (h : cache[index]? = some chunk) :
    Follows sc cache ⟨index + 1, false, chunkReplies (cache.take index) ++ [.ok (some chunk)]⟩ := by
  obtain ⟨hlt, -⟩ := List.getElem?_eq_some_iff.mp h
  rw [← chunkReplies_take_succ h]
  exact .reading (by omega)

/-- A reader that has seen the whole cache is told the ending. -/
theorem Follows.finish {sc : Script MulpError Bytes} {cache : List Bytes} {index : Nat}
    {r : Reply MulpError Bytes} (h : sc.transcript = chunkReplies cache ++ [r])
    (hle : cache.length ≤ index) :
    Follows sc cache ⟨index, true, chunkReplies (cache.take index) ++ [r]⟩ := by
  rw [List.take_of_length_le hle, ← h, ← List.append_nil sc.transcript]
  exact @Follows.consumed sc cache index 0

/-! ## One read -/

/-- What a read comes to, from the cache and the reader before it. -/
def ReadMeets (sc : Script MulpError Bytes) (cache : List Bytes) (reader : Reader) :
    Outcome (Reply MulpError Bytes) (Reader × ReplayableStream ω) ω → Prop
  | (none, (reader', replay'), _) =>
      Stalled sc replay' ∧ replay'.cache = cache ∧ reader' = reader
  | (some r, (reader', replay'), _) =>
      Replays sc replay' ∧ Follows sc replay'.cache (reader'.answered r) ∧
        cache <+: replay'.cache

/-- A reader that has seen the whole cache while the source goes on: the only one
that reads the source. -/
theorem readSource_meets {sc left : Script MulpError Bytes} {source : ByteStream ω}
    {cache : List Bytes} (hplays : (ByteStream.machine ω).Plays left source)
    (heq : sc.transcript = chunkReplies cache ++ left.transcript) (n : Nat) (w : ω) :
    ReadMeets sc cache ⟨cache.length, false, chunkReplies (cache.take cache.length)⟩
      (Reader.readNext n (⟨cache.length, false, chunkReplies (cache.take cache.length)⟩,
        ⟨source, cache, false, none, (chunkReplies cache).map some⟩) w) := by
  have hnone : cache[cache.length]? = none := List.getElem?_eq_none_iff.mpr (Nat.le_refl _)
  rw [Reader.readNext_open rfl]
  simp only [Reader.pull, hnone]
  rcases hread : source.readNext n w with ⟨_ | r, source', w'⟩
  · exact ⟨.mk heq, rfl, rfl⟩
  · have hreads : (chunkReplies cache).map some ++ [some r] =
      (chunkReplies cache ++ [r]).map some := by
      simp
    -- the source goes on as its script does, and the cache is what it has said so far
    rcases hplays.next_cases hread with ⟨rfl, rfl⟩ | ⟨e, rfl, rfl⟩ | ⟨x, rest, rfl, rfl, hrest⟩
    · have heq : sc.transcript = chunkReplies cache ++ [.ok none] := heq
      rw [hreads, ← heq]
      exact ⟨.ended heq, .finish heq (Nat.le_refl _), List.prefix_rfl⟩
    · have heq : sc.transcript = chunkReplies cache ++ [.error e] := heq
      rw [hreads, ← heq]
      exact ⟨.failed heq, .finish heq (Nat.le_refl _), List.prefix_rfl⟩
    · have hcache : chunkReplies (cache ++ [x]) = chunkReplies cache ++ [.ok (some x)] := by
        simp [chunkReplies]
      have heq : sc.transcript = chunkReplies (cache ++ [x]) ++ rest.transcript := by
        rw [heq, hcache, List.append_assoc]
        rfl
      have hget : (cache ++ [x])[cache.length]? = some x := by simp
      have hfollows := @Follows.deliver sc (cache ++ [x]) cache.length x hget
      rw [List.take_append_of_le_length (Nat.le_refl _)] at hfollows
      rw [hreads, ← hcache]
      exact ⟨.live hrest heq, hfollows, List.prefix_append cache [x]⟩

theorem readNext_meets {sc : Script MulpError Bytes} {replay : ReplayableStream ω} {reader : Reader}
    (hreplay : Replays sc replay) (hreader : Follows sc replay.cache reader) (n : Nat) (w : ω) :
    ReadMeets sc replay.cache reader (Reader.readNext n (reader, replay) w) := by
  cases hreader with
  | @consumed index k =>
      rw [Reader.readNext_closed rfl]
      refine ⟨hreplay, ?_, List.prefix_rfl⟩
      rw [Reader.answered, List.append_assoc, ← List.replicate_succ']
      exact .consumed
  | @reading index hle =>
      rcases hchunk : replay.cache[index]? with _ | chunk
      · have hlen : replay.cache.length ≤ index := List.getElem?_eq_none_iff.mp hchunk
        cases hreplay with
        | @ended source cache heq =>
            rw [Reader.readNext_open rfl]
            simp only [Reader.pull, hchunk]
            exact ⟨.ended heq, .finish heq hlen, List.prefix_rfl⟩
        | @failed source cache err heq =>
            rw [Reader.readNext_open rfl]
            simp only [Reader.pull, hchunk]
            exact ⟨.failed heq, .finish heq hlen, List.prefix_rfl⟩
        | @live source cache left hplays heq =>
            obtain rfl : index = cache.length := Nat.le_antisymm hle hlen
            exact readSource_meets hplays heq n w
      · rw [Reader.readNext_open rfl]
        simp only [Reader.pull, hchunk]
        exact ⟨hreplay, .deliver hchunk, List.prefix_rfl⟩

/-- The state of a file and its clones; `R` is `Replays sc`, or `Stalled sc`
after a read that has not returned. -/
structure Tied (R : ReplayableStream ω → Prop) (sc : Script MulpError Bytes) (s : Clones ω) :
    Prop where
  replay : R s.replay
  readers : ∀ reader ∈ s.readers, Follows sc s.replay.cache reader
  own : s.files.map (·.contents) = (List.range s.readers.length).map .stream
  tied : ∀ file ∈ s.files, file.streamReplay = some ()

namespace Tied

variable {R : ReplayableStream ω → Prop} {sc : Script MulpError Bytes} {s : Clones ω}

/-- The contents of a file of the state are a reader of the state. -/
theorem contents_eq (h : Tied R sc s) {i : Nat} {file : VinylFile Nat Unit}
    (hfile : s.files[i]? = some file) :
    file.contents = .stream i ∧ ∃ reader, s.readers[i]? = some reader := by
  have hmap : (s.files.map (·.contents))[i]? = some file.contents := by
    rw [List.getElem?_map, hfile]
    rfl
  rw [h.own, List.getElem?_map] at hmap
  obtain ⟨j, hj, hcontents⟩ := Option.map_eq_some_iff.mp hmap
  obtain ⟨hlt, hj⟩ := List.getElem?_eq_some_iff.mp hj
  rw [List.getElem_range] at hj
  rw [List.length_range] at hlt
  subst hj
  exact ⟨hcontents.symm, s.readers[i], List.getElem?_eq_getElem hlt⟩

theorem clone (h : Tied R sc s) {i : Nat} {file : VinylFile Nat Unit}
    (hfile : s.files[i]? = some file) (contents : Bool) : Tied R sc (s.clone file contents) := by
  have hreplay := h.tied file (List.mem_of_getElem? hfile)
  have hclone : file.clone contents s.readers =
      ({ file with contents := .stream s.readers.length }, s.readers ++ [.fresh]) := by
    rw [VinylFile.clone, (h.contents_eq hfile).1]
    simp only [hreplay]
  rw [Clones.clone, hclone]
  refine ⟨h.replay, ?_, ?_, ?_⟩
  · intro reader hreader
    rcases List.mem_append.mp hreader with hreader | hreader
    · exact h.readers reader hreader
    · rw [List.mem_singleton.mp hreader]
      exact @Follows.reading sc s.replay.cache 0 (Nat.zero_le _)
  · simp [h.own, List.range_succ]
  · intro f hf
    rcases List.mem_append.mp hf with hf | hf
    · exact h.tied f hf
    · rw [List.mem_singleton.mp hf]
      exact hreplay

/-- A read of a file: the answer is recorded with its reader. -/
theorem read (h : Tied (Replays sc) sc s) {i : Nat} {file : VinylFile Nat Unit}
    (hfile : s.files[i]? = some file) (n : Nat) (w : ω) :
    ((s.read n file w).1.isSome → Tied (Replays sc) sc (s.read n file w).2.1) ∧
      ((s.read n file w).1 = none → Tied (Stalled sc) sc (s.read n file w).2.1) := by
  obtain ⟨hcontents, reader, hreader⟩ := h.contents_eq hfile
  have hmeets := readNext_meets h.replay (h.readers reader (List.mem_of_getElem? hreader)) n w
  simp only [Clones.read, hcontents, hreader]
  rcases hread : Reader.readNext n (reader, s.replay) w with ⟨_ | r, ⟨reader', replay'⟩, w'⟩
  · rw [hread] at hmeets
    obtain ⟨hstalled, hcache, hsame⟩ := hmeets
    refine ⟨fun hsome => absurd hsome (by simp), fun _ => ⟨hstalled, ?_, ?_, h.tied⟩⟩
    · intro other hother
      show Follows sc replay'.cache other
      rw [hcache]
      rcases List.mem_or_eq_of_mem_set hother with hother | rfl
      · exact h.readers other hother
      · rw [hsame]
        exact h.readers reader (List.mem_of_getElem? hreader)
    · simpa using h.own
  · rw [hread] at hmeets
    obtain ⟨hreplay, hfollows, hcache⟩ := hmeets
    refine ⟨fun _ => ⟨hreplay, ?_, ?_, h.tied⟩, fun hnone => absurd hnone (by simp)⟩
    · -- the cache has grown at most, which the other readers do not notice
      intro other hother
      rcases List.mem_or_eq_of_mem_set hother with hother | rfl
      · exact (h.readers other hother).mono hcache
      · exact hfollows
    · simpa using h.own

theorem run (h : Tied (Replays sc) sc s) (n : Nat) (ops : List CloneOp) (w : ω) :
    Tied (Replays sc) sc (Clones.run n ops s w).2.1 ∨
      Tied (Stalled sc) sc (Clones.run n ops s w).2.1 := by
  induction ops generalizing s w with
  | nil => exact .inl h
  | cons op ops ih =>
      cases op with
      | clone i contents =>
          rcases hfile : s.files[i]? with _ | file
          · simp only [Clones.run, hfile]
            exact ih h w
          · simp only [Clones.run, hfile]
            exact ih (h.clone hfile contents) w
      | readNext i =>
          rcases hfile : s.files[i]? with _ | file
          · simp only [Clones.run, hfile]
            exact ih h w
          · have hstep := h.read hfile n w
            rcases hread : s.read n file w with ⟨_ | r, s', w'⟩
            · rw [hread] at hstep
              simp only [Clones.run, hfile, hread]
              exact .inr (hstep.2 rfl)
            · rw [hread] at hstep
              simp only [Clones.run, hfile, hread]
              exact ih (hstep.1 rfl) w'

end Tied

/-! ## The clones -/

end Mulp.Vinyl
