import Mulp.Stream.FileDest
import Mulp.Vinyl.Store

/-! What the streams of a store still have to deliver (`vinyl/file.mbt`,
`stream/byte_stream.mbt`).

A stream that reads another one was made after it, so reading a stream changes
none that was made later, and no replayable stream over one that was. -/
namespace Mulp.Vinyl

open Mulp.Core Mulp.Stream Pull

namespace Store

/-- Successive reads of stream `i` give these chunks and then the end. -/
inductive Delivers (st : Store) : Nat → List Bytes → Prop where
  | chunks {i chunks index} (h : st.streams[i]? = some ⟨.chunks chunks none index, false⟩) :
      Delivers st i (chunks.drop index)
  | reader {i p index source cache rest} (h : st.streams[i]? = some ⟨.reader p index, false⟩)
      (hp : st.replays[p]? = some ⟨source, cache, false, none⟩) (hlt : source < i)
      (hindex : index ≤ cache.length) (hsource : Delivers st source rest) :
      Delivers st i (cache.drop index ++ rest)
  | replayed {i p index source cache error}
      (h : st.streams[i]? = some ⟨.reader p index, false⟩)
      (hp : st.replays[p]? = some ⟨source, cache, true, error⟩) (hlt : source < i) :
      Delivers st i (cache.drop index)
  | footer {i stream footer rest} (h : st.streams[i]? = some ⟨.footer stream footer false, false⟩)
      (hlt : stream < i) (hstream : Delivers st stream rest) : Delivers st i (rest ++ [footer])
  | footed {i stream footer} (h : st.streams[i]? = some ⟨.footer stream footer true, false⟩) :
      Delivers st i []

/-- Nothing has changed that does not concern streams up to `i`: neither a stream that was made
later, nor a replayable stream that reads such a one. By it a read of one stream leaves what another
is going to deliver. -/
structure Frame (i : Nat) (st st' : Store) : Prop where
  streams : ∀ j, i < j → st'.streams[j]? = st.streams[j]?
  replays : ∀ (p : Nat) (r : ReplayObject), st.replays[p]? = some r → i ≤ r.source → st'.replays[p]? = some r

theorem Frame.refl (i : Nat) (st : Store) : Frame i st st := ⟨fun _ _ => rfl, fun _ _ h _ => h⟩

theorem Frame.trans {i k : Nat} {st st' st'' : Store} (h : Frame i st st') (h' : Frame k st' st'')
    (hik : i ≤ k) : Frame k st st'' :=
  ⟨fun j hj => (h'.streams j hj).trans (h.streams j (by omega)),
    fun p r hr hle => h'.replays p r (h.replays p r hr (by omega)) hle⟩

theorem Frame.capture (st : Store) (i : Nat) (captured : Captured) :
    Frame i st (st.capture i captured) :=
  ⟨fun _ hj => capture_ne st captured (by omega), fun _ _ h _ => h⟩

theorem Frame.close (st : Store) (i : Nat) : Frame i st (st.close i) :=
  ⟨fun _ hj => close_ne st (by omega), fun _ _ h _ => h⟩

theorem Frame.setReplay {st : Store} {i p : Nat} {r : ReplayObject} (hp : st.replays[p]? = some r)
    (hlt : r.source < i) (f : ReplayObject → ReplayObject) : Frame i st (st.setReplay p f) := by
  refine ⟨fun _ _ => rfl, fun q r' hq hle => ?_⟩
  have hne : p ≠ q := by
    rintro rfl
    rw [hp] at hq
    cases hq
    omega
  rw [setReplay_ne st f hne, hq]

/-- What a stream delivers rests on streams up to it. -/
theorem Delivers.congr {st st' : Store} {i : Nat} {cs : List Bytes} (h : Delivers st i cs)
    (hstreams : ∀ j, j ≤ i → st'.streams[j]? = st.streams[j]?)
    (hreplays : ∀ (p : Nat) (r : ReplayObject), st.replays[p]? = some r → r.source < i →
      st'.replays[p]? = some r) :
    Delivers st' i cs := by
  induction h with
  | chunks h => exact .chunks ((hstreams _ (Nat.le_refl _)).trans h)
  | reader h hp hlt hindex hsource ih =>
      refine .reader ((hstreams _ (Nat.le_refl _)).trans h) (hreplays _ _ hp hlt) hlt hindex ?_
      exact ih (fun j hj => hstreams j (by omega)) fun p r hr hle => hreplays p r hr (by omega)
  | replayed h hp hlt =>
      exact .replayed ((hstreams _ (Nat.le_refl _)).trans h) (hreplays _ _ hp hlt) hlt
  | footer h hlt hstream ih =>
      refine .footer ((hstreams _ (Nat.le_refl _)).trans h) hlt ?_
      exact ih (fun j hj => hstreams j (by omega)) fun p r hr hle => hreplays p r hr (by omega)
  | footed h => exact .footed ((hstreams _ (Nat.le_refl _)).trans h)

/-! ## Reading -/

/-- Stream `i` has been read to its end, and answers every further read with an error. -/
def Consumed (st : Store) (i : Nat) : Prop := ∃ captured, st.streams[i]? = some ⟨captured, true⟩

section Read

variable {st st' : Store} {i n : Nat} {captured : Captured} {chunk : Bytes}

theorem readNext_item (h : st.streams[i]? = some ⟨captured, false⟩)
    (hpull : pull (readNext n) i st captured = (some (.ok (some chunk)), st')) :
    readNext (n + 1) i st = (some (.ok (some chunk)), st') := by
  simp only [readNext, h, Bool.false_eq_true, if_false, hpull]

theorem readNext_end (h : st.streams[i]? = some ⟨captured, false⟩)
    (hpull : pull (readNext n) i st captured = (some (.ok none), st')) :
    readNext (n + 1) i st = (some (.ok none), st'.close i) := by
  simp only [readNext, h, Bool.false_eq_true, if_false, hpull]

theorem readNext_consumed (h : Consumed st i) :
    readNext (n + 1) i st = (some ByteStream.alreadyConsumed, st) := by
  obtain ⟨captured, h⟩ := h
  simp only [readNext, h, if_true]

theorem consumed_close {s : StreamObject} (h : st.streams[i]? = some s) : Consumed (st.close i) i :=
  ⟨s.captured, close_self st h⟩

end Read

/-- After a read, stream `i` delivers what is left, or is consumed. -/
def Leaves (st : Store) (i : Nat) : List Bytes → Prop
  | [] => Consumed st i
  | _ :: rest => Delivers st i rest

/-- A read of stream `i` gives the first of these chunks or the end. -/
def Reads (st : Store) (i n : Nat) (cs : List Bytes) : Prop :=
  ∃ st', readNext n i st = (some (.ok cs.head?), st') ∧ Leaves st' i cs ∧ Frame i st st'

section Kinds

variable {st : Store} {i p index source stream : Nat} {cache chunks rest : List Bytes}
  {footer : Bytes}

/-- A pull that ends and changes nothing. -/
theorem reads_end {captured : Captured} (n : Nat) (h : st.streams[i]? = some ⟨captured, false⟩)
    (hpull : pull (readNext n) i st captured = (some (.ok none), st)) : Reads st i (n + 1) [] :=
  ⟨_, readNext_end h hpull, consumed_close h, .close st i⟩

theorem reads_chunks (n : Nat) (h : st.streams[i]? = some ⟨.chunks chunks none index, false⟩) :
    Reads st i (n + 1) (chunks.drop index) := by
  cases hchunk : chunks[index]? with
  | none =>
      rw [List.drop_eq_nil_of_le (List.getElem?_eq_none_iff.mp hchunk)]
      apply reads_end n h
      simp only [pull, hchunk]
  | some chunk =>
      have hpull : pull (readNext n) i st (.chunks chunks none index) =
          (some (.ok (some chunk)), st.capture i (.chunks chunks none (index + 1))) := by
        simp only [pull, hchunk]
      obtain ⟨hlt, rfl⟩ := List.getElem?_eq_some_iff.mp hchunk
      rw [List.drop_eq_getElem_cons hlt]
      exact ⟨_, readNext_item h hpull, .chunks (capture_self st _ h), .capture st i _⟩

/-- A reader that is behind the cache reads from it. -/
theorem readNext_cached {r : ReplayObject} {chunk : Bytes} (n : Nat)
    (h : st.streams[i]? = some ⟨.reader p index, false⟩) (hp : st.replays[p]? = some r)
    (hchunk : r.cache[index]? = some chunk) :
    readNext (n + 1) i st = (some (.ok (some chunk)), st.capture i (.reader p (index + 1))) := by
  apply readNext_item h
  simp only [pull, hp, hchunk]

theorem reads_replayed {error : Option MulpError} (n : Nat)
    (h : st.streams[i]? = some ⟨.reader p index, false⟩)
    (hp : st.replays[p]? = some ⟨source, cache, true, error⟩) (hlt : source < i) :
    Reads st i (n + 1) (cache.drop index) := by
  cases hchunk : cache[index]? with
  | none =>
      rw [List.drop_eq_nil_of_le (List.getElem?_eq_none_iff.mp hchunk)]
      apply reads_end n h
      simp only [pull, hp, hchunk, if_true]
  | some chunk =>
      have hread := readNext_cached n h hp hchunk
      obtain ⟨hlength, rfl⟩ := List.getElem?_eq_some_iff.mp hchunk
      rw [List.drop_eq_getElem_cons hlength]
      exact ⟨_, hread, .replayed (capture_self st _ h) hp hlt, .capture st i _⟩

theorem reads_cached {chunk : Bytes} (n : Nat)
    (h : st.streams[i]? = some ⟨.reader p index, false⟩)
    (hp : st.replays[p]? = some ⟨source, cache, false, none⟩) (hlt : source < i)
    (hsource : Delivers st source rest) (hchunk : cache[index]? = some chunk) :
    Reads st i (n + 1) (cache.drop index ++ rest) := by
  have hread := readNext_cached n h hp hchunk
  obtain ⟨hlength, rfl⟩ := List.getElem?_eq_some_iff.mp hchunk
  rw [List.drop_eq_getElem_cons hlength, List.cons_append]
  refine ⟨_, hread, .reader (capture_self st _ h) hp hlt hlength ?_, .capture st i _⟩
  exact hsource.congr (fun j hj => capture_ne st _ (by omega)) fun _ _ hr _ => hr

/-- At the end of the cache the source is read, and what it gives is added. -/
theorem reads_uncached {n : Nat} (h : st.streams[i]? = some ⟨.reader p cache.length, false⟩)
    (hp : st.replays[p]? = some ⟨source, cache, false, none⟩) (hlt : source < i)
    (hsource : Reads st source n rest) : Reads st i (n + 1) rest := by
  have hchunk : cache[cache.length]? = none := List.getElem?_eq_none_iff.mpr (Nat.le_refl _)
  obtain ⟨st', hread, hleaves, hframe⟩ := hsource
  have h' : st'.streams[i]? = some ⟨.reader p cache.length, false⟩ :=
    (hframe.streams i hlt).trans h
  have hp' := hframe.replays p _ hp (Nat.le_refl _)
  cases rest with
  | nil =>
      have hpull : pull (readNext n) i st (.reader p cache.length) =
          (some (.ok none), st'.setReplay p fun r => { r with ended := true }) := by
        simp only [pull, hp, hchunk, hread]
        rfl
      refine ⟨_, readNext_end h hpull, consumed_close h', ?_⟩
      have hset : Frame i st' (st'.setReplay p fun r => { r with ended := true }) :=
        .setReplay hp' hlt _
      exact (hframe.trans hset (by omega)).trans (.close _ i) (Nat.le_refl i)
  | cons chunk rest =>
      have hpull : pull (readNext n) i st (.reader p cache.length) = (some (.ok (some chunk)),
          (st'.setReplay p fun r => { r with cache := r.cache ++ [chunk] }).capture i
            (.reader p (cache.length + 1))) := by
        simp only [pull, hp, hchunk, hread]
        rfl
      have hset : Frame i st' (st'.setReplay p fun r => { r with cache := r.cache ++ [chunk] }) :=
        .setReplay hp' hlt _
      refine ⟨_, readNext_item h hpull, ?_,
        (hframe.trans hset (by omega)).trans (.capture _ i _) (Nat.le_refl i)⟩
      have hdrop : rest = (cache ++ [chunk]).drop (cache.length + 1) ++ rest := by simp
      show Delivers _ i rest
      rw [hdrop]
      refine .reader (capture_self _ _ h') (setReplay_self st' _ hp') hlt (by simp) ?_
      have hne_of_le (j : Nat) (hj : j ≤ source) : i ≠ j := by omega
      refine Delivers.congr hleaves (fun j hj => capture_ne _ _ (hne_of_le j hj))
        fun q r hr hle => ?_
      have hne : p ≠ q := by
        rintro rfl
        rw [hp'] at hr
        cases hr
        exact Nat.lt_irrefl _ hle
      exact (setReplay_ne st' _ hne).trans hr

/-- A footer follows the last chunk of its stream. -/
theorem reads_footer {n : Nat} (h : st.streams[i]? = some ⟨.footer stream footer false, false⟩)
    (hlt : stream < i) (hstream : Reads st stream n rest) :
    Reads st i (n + 1) (rest ++ [footer]) := by
  obtain ⟨st', hread, hleaves, hframe⟩ := hstream
  have h' : st'.streams[i]? = some ⟨.footer stream footer false, false⟩ :=
    (hframe.streams i hlt).trans h
  cases rest with
  | nil =>
      have hpull : pull (readNext n) i st (.footer stream footer false) =
          (some (.ok (some footer)), st'.capture i (.footer stream footer true)) := by
        simp only [pull, Bool.false_eq_true, if_false, hread]
        rfl
      exact ⟨_, readNext_item h hpull, .footed (capture_self st' _ h'),
        hframe.trans (.capture st' i _) (by omega)⟩
  | cons chunk rest =>
      have hpull : pull (readNext n) i st (.footer stream footer false) =
          (some (.ok (some chunk)), st') := by
        simp only [pull, Bool.false_eq_true, if_false, hread]
        rfl
      exact ⟨_, readNext_item h hpull, .footer h' hlt hleaves,
        hframe.trans (.refl i st') (by omega)⟩

end Kinds

/-- A read of a stream gives its next chunk or the end. -/
theorem Delivers.read {st : Store} {i n : Nat} {cs : List Bytes} (h : Delivers st i cs)
    (hn : i < n) :
    ∃ st', readNext n i st = (some (.ok cs.head?), st') ∧ Leaves st' i cs ∧ Frame i st st' := by
  show Reads st i n cs
  induction h generalizing n with
  | chunks h =>
      obtain ⟨n, rfl⟩ : ∃ m, n = m + 1 := ⟨n - 1, by omega⟩
      exact reads_chunks n h
  | @reader i p index source cache rest h hp hlt hindex hsource ih =>
      obtain ⟨n, rfl⟩ : ∃ m, n = m + 1 := ⟨n - 1, by omega⟩
      cases hchunk : cache[index]? with
      | some chunk => exact reads_cached n h hp hlt hsource hchunk
      | none =>
          -- the source is read for the first time beyond the cache
          obtain rfl : index = cache.length :=
            Nat.le_antisymm hindex (List.getElem?_eq_none_iff.mp hchunk)
          rw [List.drop_length, List.nil_append]
          exact reads_uncached h hp hlt (ih (by omega : source < n))
  | replayed h hp hlt =>
      obtain ⟨n, rfl⟩ : ∃ m, n = m + 1 := ⟨n - 1, by omega⟩
      exact reads_replayed n h hp hlt
  | @footer i stream footer rest h hlt hstream ih =>
      obtain ⟨n, rfl⟩ : ∃ m, n = m + 1 := ⟨n - 1, by omega⟩
      exact reads_footer h hlt (ih (by omega : stream < n))
  | footed h =>
      obtain ⟨n, rfl⟩ : ∃ m, n = m + 1 := ⟨n - 1, by omega⟩
      apply reads_end n h
      simp only [pull, if_true]

/-! ## Writing what a stream delivers -/

/-- The loop of `write_real_file_stream` and `write_vinyl_stream` on an open file. -/
theorem writeTurn_writes {st : Store} {i m n : Nat} {cs : List Bytes} {d : Disk} {path : String}
    (h : st.Delivers i cs) (hm : i < m) (hn : cs.length < n) (bytes : Bytes) :
    ∃ st', loop (writeTurn m i path (.opened path)) n () ⟨st, d.put path bytes⟩ =
        (some (.ok ()), (), ⟨st', d.put path (bytes ++ cs.flatten)⟩) ∧
      st'.Consumed i ∧ Frame i st st' := by
  induction cs generalizing st bytes n with
  | nil =>
      obtain ⟨n, rfl⟩ : ∃ k, n = k + 1 := ⟨n - 1, by omega⟩
      obtain ⟨st', hread, hconsumed, hframe⟩ := h.read hm
      refine ⟨st', loop_reply ?_, hconsumed, hframe⟩
      simp only [writeTurn, hread, List.head?_nil, Disk.writerClose, List.flatten_nil,
        List.append_nil]
  | cons chunk rest ih =>
      obtain ⟨n, rfl⟩ : ∃ k, n = k + 1 := ⟨n - 1, by omega⟩
      obtain ⟨st', hread, hrest, hframe⟩ := h.read hm
      have hturn : writeTurn m i path (.opened path) () ⟨st, d.put path bytes⟩ =
          (.again, (), ⟨st', d.put path (bytes ++ chunk)⟩) := by
        simp only [writeTurn, hread, List.head?_cons, Disk.writerWrite, Disk.put_read_self,
          Option.getD_some, Disk.put_put]
      obtain ⟨st'', hloop, hconsumed, hframe'⟩ := ih hrest (by simpa using hn) (bytes ++ chunk)
      refine ⟨st'', ?_, hconsumed, hframe.trans hframe' (Nat.le_refl i)⟩
      rw [loop_again hturn, hloop, List.flatten_cons, List.append_assoc]

/-! ## Making streams -/

theorem Delivers.lt {st : Store} {i : Nat} {cs : List Bytes} (h : Delivers st i cs) :
    i < st.streams.length := by
  cases h <;> exact (List.getElem?_eq_some_iff.mp ‹st.streams[i]? = _›).1

/-- New objects do not change what a stream delivers. -/
theorem Delivers.extend {st st' : Store} {i : Nat} {cs : List Bytes} (h : Delivers st i cs)
    (hstreams : st.streams <+: st'.streams) (hreplays : st.replays <+: st'.replays) :
    Delivers st' i cs := by
  refine h.congr (fun j hj => ?_) fun p r hr _ => ?_
  · exact (List.prefix_iff_getElem?.mp hstreams j (by have := h.lt; omega)).trans
      (List.getElem?_eq_getElem _).symm
  · obtain ⟨hp, rfl⟩ := List.getElem?_eq_some_iff.mp hr
    exact List.prefix_iff_getElem?.mp hreplays p hp

theorem addStream_self (st : Store) (captured : Captured) :
    (st.addStream captured).2.streams[st.streams.length]? = some ⟨captured, false⟩ := by
  simp [addStream]

theorem addReplay_self (st : Store) (source : Nat) :
    (st.addReplay source).2.replays[st.replays.length]? = some ⟨source, [], false, none⟩ := by
  simp [addReplay]

theorem delivers_chunks (st : Store) (chunks : List Bytes) :
    Delivers (st.addStream (.chunks chunks none 0)).2 (st.addStream (.chunks chunks none 0)).1 chunks :=
  .chunks (addStream_self st _)

end Store

/-- The contents have, or deliver, these chunks. A buffer is one chunk, whatever its length. -/
inductive Yields (st : Store) : VinylContents Nat → List Bytes → Prop where
  | buffer (bytes : Bytes) : Yields st (.buffer bytes) [bytes]
  | stream {i cs} (h : st.Delivers i cs) : Yields st (.stream i) cs

theorem Yields.ne_null {st : Store} {contents : VinylContents Nat} {cs : List Bytes}
    (h : Yields st contents cs) : contents ≠ .null := by
  rintro ⟨⟩
  cases h

/-- Prepared contents yield what they are prepared from. -/
theorem Yields.prepareContents {st : Store} {contents : VinylContents Nat} {cs : List Bytes}
    (h : Yields st contents cs) :
    Yields (st.prepareContents contents).2 (st.prepareContents contents).1.1 cs := by
  cases h with
  | buffer bytes => exact .buffer bytes
  | @stream source cs h =>
      refine .stream ?_
      have hnew : (st.addReplay source).2.Delivers source cs :=
        h.extend (List.prefix_refl _) (List.prefix_append _ _)
      exact @Store.Delivers.reader _ _ _ 0 source [] cs
        (Store.addStream_self (st.addReplay source).2 _)
        (Store.addReplay_self st source) h.lt (Nat.le_refl 0)
        (hnew.extend (List.prefix_append _ _) (List.prefix_refl _))

/-- A reader over a stream that has been read to its end fails. -/
theorem readNext_prepareContents {st : Store} {i : Nat} (h : st.Consumed i) :
    ∃ reader, (st.prepareContents (.stream i)).1.1 = .stream reader ∧ ∀ n,
      (Store.readNext (n + 2) reader (st.prepareContents (.stream i)).2).1 =
        some ByteStream.alreadyConsumed := by
  obtain ⟨captured, h⟩ := h
  have hlt : i < st.streams.length := (List.getElem?_eq_some_iff.mp h).1
  have hconsumed : (st.prepareContents (.stream i)).2.Consumed i :=
    ⟨captured, (List.getElem?_append_left hlt).trans h⟩
  have hread : (st.prepareContents (.stream i)).2.streams[st.streams.length]? = _ :=
    Store.addStream_self (st.addReplay i).2 _
  have hreplay : (st.prepareContents (.stream i)).2.replays[st.replays.length]? = _ :=
    Store.addReplay_self st i
  refine ⟨st.streams.length, rfl, fun n => ?_⟩
  rw [Store.readNext, hread]
  simp only [Bool.false_eq_true, if_false, Store.pull, hreplay, List.getElem?_nil,
    Store.readNext_consumed hconsumed]
  rfl

end Mulp.Vinyl
