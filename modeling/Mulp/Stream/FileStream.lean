import Mulp.Stream.File
import Mulp.Stream.ByteStream

/-! File streams (`stream/file_stream.mbt`).

A `FileStream` of the source is a pull closure, a close closure and a flag. The
closures are represented by the function that built them together with the state
they captured. Callbacks of the program's users are functions on a world `ω`
that they share. `VinylFileStream` (`vinyl_fs/dest.mbt`) has the same text over
`VinylFile`; the type `α` of files is left open for it. -/
namespace Mulp.Stream

open Mulp.Core Mulp.Through2 Pull

abbrev FileReply (α : Type) := Reply MulpError α

structure MergeState (σ : Type) where
  streams : List σ
  index : Nat

/-- A `next` call a pipe made on its upstream or its inner stream, with the
answer if the call has returned. -/
inductive PipeCall (α : Type) where
  | upstream (r : Option (FileReply α))
  | inner (r : Option (FileReply α))

/-- `PipeState`, with the inner streams it has dropped and the calls so far. -/
structure PipeState (σ α : Type) where
  upstream : σ
  current : Option σ
  dropped : List σ
  calls : List (PipeCall α)

/-- `ConcatState`; `buffer` and `output` are `concat_buffer` and the file built
from the first one and the contents. -/
structure ConcatState (σ α : Type) where
  upstream : σ
  buffer : α → Except MulpError String
  output : α → String → α
  emitted : Bool

/-- A stream, by the function that built its closures. A `source` has callbacks
from outside: the answer of a pull may depend on the number of earlier pulls and
on the world. Its `history` records the calls of the two. -/
inductive FileStream (ω α : Type) : Type where
  | source (pull : Nat → ω → FileReply α × ω) (close : ω → ω) (history : List Callback)
      (closed : Bool)
  | merge (state : MergeState (FileStream ω α)) (latch : Latch)
  | pipe (state : PipeState (FileStream ω α) α) (transform : α → ω → FileStream ω α × ω)
      (latch : Latch)
  | plugin (name : String) (inner : FileStream ω α) (latch : Latch)
  | concat (state : ConcatState (FileStream ω α) α) (latch : Latch)
  | through (state : ThroughState (FileStream ω α) ω α) (latch : Latch)

/-! ## The loops of the pull closures -/

section Turns

variable {σ ω α : Type} (next : σ → ω → Outcome (FileReply α) σ ω)

/-- The loop body in the pull closure of `merge_sources`. -/
def mergeTurn (st : MergeState σ) (w : ω) : Turn (FileReply α) × MergeState σ × ω :=
  match st.streams[st.index]? with
  | none => (.reply (.ok none), st, w)
  | some stream =>
      match next stream w with
      | (none, stream, w) => (.stuck, { st with streams := st.streams.set st.index stream }, w)
      | (some (.ok (some file)), stream, w) =>
          (.reply (.ok (some file)), { st with streams := st.streams.set st.index stream }, w)
      | (some (.ok none), stream, w) =>
          (.again, ⟨st.streams.set st.index stream, st.index + 1⟩, w)
      | (some (.error err), stream, w) =>
          (.reply (.error err), { st with streams := st.streams.set st.index stream }, w)

/-- The loop body in the pull closure of `FileStream::pipe`. -/
def pipeTurn (close : σ → ω → σ × ω) (transform : α → ω → σ × ω) (st : PipeState σ α) (w : ω) :
    Turn (FileReply α) × PipeState σ α × ω :=
  match st.current with
  | some current =>
      let calls := st.calls ++ [.inner (next current w).1]
      match next current w with
      | (none, current, w) => (.stuck, { st with current := some current, calls }, w)
      | (some (.ok (some file)), current, w) =>
          (.reply (.ok (some file)), { st with current := some current, calls }, w)
      | (some (.ok none), current, w) =>
          (.again, { st with
            current := none, dropped := st.dropped ++ [(close current w).1], calls },
            (close current w).2)
      | (some (.error err), current, w) =>
          (.reply (.error err), { st with current := some current, calls }, w)
  | none =>
      let calls := st.calls ++ [.upstream (next st.upstream w).1]
      match next st.upstream w with
      | (none, upstream, w) => (.stuck, { st with upstream, calls }, w)
      | (some (.ok (some file)), upstream, w) =>
          (.again, { st with upstream, current := some (transform file w).1, calls },
            (transform file w).2)
      | (some (.ok none), upstream, w) => (.reply (.ok none), { st with upstream, calls }, w)
      | (some (.error err), upstream, w) => (.reply (.error err), { st with upstream, calls }, w)

/-- The local variables `first` and `contents` of the pull closure of
`concat_plugin`, with its upstream. -/
structure ConcatLocals (σ α : Type) where
  upstream : σ
  first : Option α
  contents : String

/-- The loop body in the pull closure of `concat_plugin`. -/
def concatTurn (buffer : α → Except MulpError String) (output : α → String → α)
    (st : ConcatLocals σ α) (w : ω) : Turn (FileReply α) × ConcatLocals σ α × ω :=
  match next st.upstream w with
  | (none, upstream, w) => (.stuck, { st with upstream }, w)
  | (some (.ok (some file)), upstream, w) =>
      match buffer file with
      | .ok text =>
          (.again, ⟨upstream, st.first <|> some file, st.contents ++ text⟩, w)
      | .error err => (.reply (.error err), ⟨upstream, st.first <|> some file, st.contents⟩, w)
  | (some (.ok none), upstream, w) =>
      (.reply (.ok (st.first.map fun file => output file st.contents)), { st with upstream }, w)
  | (some (.error err), upstream, w) => (.reply (.error err), { st with upstream }, w)

/-- The pull closure of `concat_plugin`. -/
def concatPull (n : Nat) (st : ConcatState σ α) (w : ω) :
    Outcome (FileReply α) (ConcatState σ α) ω :=
  if st.emitted then (some (.ok none), st, w)
  else
    (loop (concatTurn next st.buffer st.output) n ⟨st.upstream, none, ""⟩ w).map fun l =>
      { st with emitted := true, upstream := l.upstream }

/-- The pull closure of the wrapper `FileStream::pipe_plugin` puts around an
inner stream. -/
def pluginPull (name : String) (inner : σ) (w : ω) : Outcome (FileReply α) σ ω :=
  match next inner w with
  | (none, inner, w) => (none, inner, w)
  | (some (.ok file), inner, w) => (some (.ok file), inner, w)
  | (some (.error err), inner, w) =>
      (some (.error (.streamError ("plugin " ++ name ++ ": " ++ err.message))), inner, w)

variable {next} {next' : σ → ω → Outcome (FileReply α) σ ω}

section Equations

variable {close : σ → ω → σ × ω} {transform : α → ω → σ × ω} {upstream upstream' : σ}
  {current current' : σ} {dropped : List σ} {calls : List (PipeCall α)} {w w' : ω} {file : α}
  {err : MulpError}

theorem pipeTurn_open (h : next upstream w = (some (.ok (some file)), upstream', w')) :
    pipeTurn next close transform ⟨upstream, none, dropped, calls⟩ w =
      (.again, ⟨upstream', some (transform file w').1, dropped,
        calls ++ [.upstream (some (.ok (some file)))]⟩, (transform file w').2) := by
  simp only [pipeTurn, h]

theorem pipeTurn_over (h : next upstream w = (some (.ok none), upstream', w')) :
    pipeTurn next close transform ⟨upstream, none, dropped, calls⟩ w =
      (.reply (.ok none), ⟨upstream', none, dropped, calls ++ [.upstream (some (.ok none))]⟩,
        w') := by
  simp only [pipeTurn, h]

theorem pipeTurn_upstream_error (h : next upstream w = (some (.error err), upstream', w')) :
    pipeTurn next close transform ⟨upstream, none, dropped, calls⟩ w =
      (.reply (.error err), ⟨upstream', none, dropped,
        calls ++ [.upstream (some (.error err))]⟩, w') := by
  simp only [pipeTurn, h]

theorem pipeTurn_deliver (h : next current w = (some (.ok (some file)), current', w')) :
    pipeTurn next close transform ⟨upstream, some current, dropped, calls⟩ w =
      (.reply (.ok (some file)), ⟨upstream, some current', dropped,
        calls ++ [.inner (some (.ok (some file)))]⟩, w') := by
  simp only [pipeTurn, h]

theorem pipeTurn_drop (h : next current w = (some (.ok none), current', w')) :
    pipeTurn next close transform ⟨upstream, some current, dropped, calls⟩ w =
      (.again, ⟨upstream, none, dropped ++ [(close current' w').1],
        calls ++ [.inner (some (.ok none))]⟩, (close current' w').2) := by
  simp only [pipeTurn, h]

theorem pipeTurn_inner_error (h : next current w = (some (.error err), current', w')) :
    pipeTurn next close transform ⟨upstream, some current, dropped, calls⟩ w =
      (.reply (.error err), ⟨upstream, some current', dropped,
        calls ++ [.inner (some (.error err))]⟩, w') := by
  simp only [pipeTurn, h]

theorem mergeTurn_over {streams : List σ} {index : Nat} (hs : streams[index]? = none) :
    mergeTurn next ⟨streams, index⟩ w = (.reply (.ok none), ⟨streams, index⟩, w) := by
  simp only [mergeTurn, hs]

theorem mergeTurn_deliver {streams : List σ} {index : Nat} (hs : streams[index]? = some current)
    (h : next current w = (some (.ok (some file)), current', w')) :
    mergeTurn next ⟨streams, index⟩ w =
      (.reply (.ok (some file)), ⟨streams.set index current', index⟩, w') := by
  simp only [mergeTurn, hs, h]

theorem mergeTurn_skip {streams : List σ} {index : Nat} (hs : streams[index]? = some current)
    (h : next current w = (some (.ok none), current', w')) :
    mergeTurn next ⟨streams, index⟩ w = (.again, ⟨streams.set index current', index + 1⟩, w') := by
  simp only [mergeTurn, hs, h]

theorem mergeTurn_error {streams : List σ} {index : Nat} (hs : streams[index]? = some current)
    (h : next current w = (some (.error err), current', w')) :
    mergeTurn next ⟨streams, index⟩ w =
      (.reply (.error err), ⟨streams.set index current', index⟩, w') := by
  simp only [mergeTurn, hs, h]

end Equations

theorem mergeTurn_agrees (h : Agrees next next') :
    BodyAgrees (mergeTurn next) (mergeTurn next') := by
  intro st w hturn
  unfold mergeTurn at hturn ⊢
  rcases hs : st.streams[st.index]? with _ | stream
  · rfl
  · rw [hs] at hturn
    rcases hn : next stream w with ⟨_ | r, s', w'⟩
    · simp only [hn] at hturn
      exact absurd rfl hturn
    · simp only [h stream w r (by rw [hn]), hn]

theorem pipeTurn_agrees {close : σ → ω → σ × ω} {transform : α → ω → σ × ω}
    (h : Agrees next next') :
    BodyAgrees (pipeTurn next close transform) (pipeTurn next' close transform) := by
  intro st w hturn
  unfold pipeTurn at hturn ⊢
  rcases hc : st.current with _ | current
  · rw [hc] at hturn
    rcases hn : next st.upstream w with ⟨_ | r, s', w'⟩
    · simp only [hn] at hturn
      exact absurd rfl hturn
    · simp only [h st.upstream w r (by rw [hn]), hn]
  · rw [hc] at hturn
    rcases hn : next current w with ⟨_ | r, s', w'⟩
    · simp only [hn] at hturn
      exact absurd rfl hturn
    · simp only [h current w r (by rw [hn]), hn]

theorem concatTurn_agrees {buffer : α → Except MulpError String} {output : α → String → α}
    (h : Agrees next next') :
    BodyAgrees (concatTurn next buffer output) (concatTurn next' buffer output) := by
  intro st w hturn
  unfold concatTurn at hturn ⊢
  rcases hn : next st.upstream w with ⟨_ | r, s', w'⟩
  · rw [hn] at hturn
    exact absurd rfl hturn
  · rw [h st.upstream w r (by rw [hn]), hn]

theorem concatPull_agrees (h : Agrees next next') {n m : Nat} (hle : n ≤ m) :
    Agrees (concatPull next n) (concatPull next' m) := by
  intro st w r hr
  unfold concatPull at hr ⊢
  by_cases he : st.emitted = true
  · rw [if_pos he, if_pos he]
  · rw [if_neg he] at hr
    rw [if_neg he, if_neg he, loop_agrees (concatTurn_agrees h) hle _ w r hr]

theorem pluginPull_agrees {name : String} (h : Agrees next next') :
    Agrees (pluginPull next name) (pluginPull next' name) := by
  intro s w r hr
  unfold pluginPull at hr ⊢
  rcases hn : next s w with ⟨_ | r', s', w'⟩
  · rw [hn] at hr
    cases hr
  · rw [h s w r' (by rw [hn]), hn]

end Turns

namespace FileStream

variable {ω α : Type}

/-! ## `FileStream::close` and `FileStream::next` -/

def closed : FileStream ω α → Bool
  | .source _ _ _ closed => closed
  | .merge _ latch => latch.closed
  | .pipe _ _ latch => latch.closed
  | .plugin _ _ latch => latch.closed
  | .concat _ latch => latch.closed
  | .through _ latch => latch.closed

mutual
def close : FileStream ω α → ω → FileStream ω α × ω
  | .source pull close history closed, w =>
      if closed then (.source pull close history closed, w)
      else (.source pull close (history ++ [.close]) true, close w)
  | .merge ⟨streams, index⟩ latch, w =>
      if latch.closed then (.merge ⟨streams, index⟩ latch, w)
      else (.merge ⟨(closeAll streams w).1, index⟩ latch.close, (closeAll streams w).2)
  | .pipe ⟨upstream, current, dropped, calls⟩ transform latch, w =>
      if latch.closed then (.pipe ⟨upstream, current, dropped, calls⟩ transform latch, w)
      else
        let (current', w₁) := closeCurrent current w
        let (upstream', w₂) := upstream.close w₁
        (.pipe ⟨upstream', current', dropped, calls⟩ transform latch.close, w₂)
  | .plugin name inner latch, w =>
      if latch.closed then (.plugin name inner latch, w)
      else (.plugin name (inner.close w).1 latch.close, (inner.close w).2)
  | .concat ⟨upstream, buffer, output, emitted⟩ latch, w =>
      if latch.closed then (.concat ⟨upstream, buffer, output, emitted⟩ latch, w)
      else
        (.concat ⟨(upstream.close w).1, buffer, output, emitted⟩ latch.close, (upstream.close w).2)
  | .through ⟨upstream, flatMap, flush, pending, pendingIndex, upstreamEnded, flushed, events⟩
      latch, w =>
      if latch.closed then
        (.through ⟨upstream, flatMap, flush, pending, pendingIndex, upstreamEnded, flushed, events⟩
          latch, w)
      else
        (.through ⟨(upstream.close w).1, flatMap, flush, [], pendingIndex, upstreamEnded, flushed,
          events ++ [.closed]⟩ latch.close, (upstream.close w).2)

/-- The close closure of `merge_sources`, which closes every source, those that have been read to
their ends too. -/
def closeAll : List (FileStream ω α) → ω → List (FileStream ω α) × ω
  | [], w => ([], w)
  | stream :: rest, w =>
      let (stream', w₁) := stream.close w
      let (rest', w₂) := closeAll rest w₁
      (stream' :: rest', w₂)

/-- The first half of the close closure of `FileStream::pipe`. -/
def closeCurrent : Option (FileStream ω α) → ω → Option (FileStream ω α) × ω
  | none, w => (none, w)
  | some current, w =>
      let (current', w₁) := current.close w
      (some current', w₁)
end

@[simp] theorem close_source (pull : Nat → ω → FileReply α × ω) (onClose : ω → ω)
    (history : List Callback) (w : ω) :
    (source pull onClose history false).close w =
      (source pull onClose (history ++ [.close]) true, onClose w) := rfl

section Close

variable {latch : Latch} (h : latch.closed = false) (w : ω)

include h

theorem close_merge (st : MergeState (FileStream ω α)) :
    (merge st latch).close w =
      (merge { st with streams := (closeAll st.streams w).1 } latch.close,
        (closeAll st.streams w).2) := by
  rw [close, h]
  rfl

theorem close_pipe (st : PipeState (FileStream ω α) α)
    (transform : α → ω → FileStream ω α × ω) :
    (pipe st transform latch).close w =
      (pipe { st with
          current := (closeCurrent st.current w).1,
          upstream := (st.upstream.close (closeCurrent st.current w).2).1 } transform latch.close,
        (st.upstream.close (closeCurrent st.current w).2).2) := by
  rw [close, h]
  rfl

theorem close_plugin (name : String) (inner : FileStream ω α) :
    (plugin name inner latch).close w =
      (plugin name (inner.close w).1 latch.close, (inner.close w).2) := by
  rw [close, h]
  rfl

theorem close_concat (st : ConcatState (FileStream ω α) α) :
    (concat st latch).close w =
      (concat { st with upstream := (st.upstream.close w).1 } latch.close,
        (st.upstream.close w).2) := by
  rw [close, h]
  rfl

theorem close_through (st : ThroughState (FileStream ω α) ω α) :
    (through st latch).close w =
      (through (st.close close w).1 latch.close, (st.close close w).2) := by
  rw [close, h]
  rfl

end Close

theorem close_of_closed {s : FileStream ω α} (h : s.closed = true) (w : ω) :
    s.close w = (s, w) := by
  cases s <;> exact if_pos h

@[simp] theorem closed_close (s : FileStream ω α) (w : ω) : (s.close w).1.closed = true := by
  by_cases h : s.closed = true
  · rw [close_of_closed h, h]
  · have h : s.closed = false := Bool.eq_false_iff.mpr h
    cases s with
    | source => cases h; rfl
    | merge st latch => rw [close_merge h]; rfl
    | pipe st transform latch => rw [close_pipe h]; rfl
    | plugin name inner latch => rw [close_plugin h]; rfl
    | concat st latch => rw [close_concat h]; rfl
    | through st latch => rw [close_through h]; rfl

/-- The call of the pull closure. -/
def pull (next : FileStream ω α → ω → Outcome (FileReply α) (FileStream ω α) ω) (n : Nat) :
    FileStream ω α → ω → Outcome (FileReply α) (FileStream ω α) ω
  | .source pull close history closed, w =>
      (some (pull (history.count .pull) w).1, .source pull close (history ++ [.pull]) closed,
        (pull (history.count .pull) w).2)
  | .merge st latch, w => (loop (mergeTurn next) n st w).map (.merge · latch)
  | .pipe st transform latch, w =>
      (loop (pipeTurn next close transform) n st w).map (.pipe · transform latch)
  | .plugin name inner latch, w => (pluginPull next name inner w).map (.plugin name · latch)
  | .concat st latch, w => (concatPull next n st w).map (.concat · latch)
  | .through st latch, w => (st.pull next close n w).map (.through · latch)

def next : Nat → FileStream ω α → ω → Outcome (FileReply α) (FileStream ω α) ω
  | 0, s, w => (none, s, w)
  | n + 1, s, w => latched (.ok none) closed close (pull (next n) n) s w

theorem pull_agrees {next next' : FileStream ω α → ω → Outcome (FileReply α) (FileStream ω α) ω}
    (h : Agrees next next') {n m : Nat} (hle : n ≤ m) : Agrees (pull next n) (pull next' m) := by
  intro s w r hr
  cases s with
  | source => rfl
  | merge st latch =>
      rw [pull, pull, loop_agrees (mergeTurn_agrees h) hle st w r hr]
  | pipe st transform latch =>
      rw [pull, pull, loop_agrees (pipeTurn_agrees h) hle st w r hr]
  | plugin name inner latch =>
      rw [pull, pull, pluginPull_agrees h inner w r hr]
  | concat st latch =>
      rw [pull, pull, concatPull_agrees h hle st w r hr]
  | through st latch =>
      rw [pull, pull, st.pull_agrees h hle w r hr]

theorem next_agrees {n m : Nat} (hle : n ≤ m) :
    Agrees (next n : FileStream ω α → ω → _) (next m) := by
  induction n generalizing m with
  | zero =>
      intro s w r hr
      cases hr
  | succ n ih =>
      obtain ⟨k, rfl⟩ : ∃ k, m = k + 1 := ⟨m - 1, by omega⟩
      intro s w r hr
      exact latched_agrees (pull_agrees (ih (by omega)) (by omega)) s w r hr

/-- File streams as pull machines. -/
def machine (ω α : Type) : Machine (FileStream ω α) ω MulpError α :=
  ⟨next, close, next_agrees⟩

theorem next_of_closed {s : FileStream ω α} (h : s.closed = true) (n : Nat) (w : ω) :
    s.next (n + 1) w = (some (.ok none), s, w) := latched_closed w h

/-- The end and an error close the stream. -/
theorem closed_of_end {n : Nat} {s s' : FileStream ω α} {w w' : ω} {r : FileReply α}
    (h : s.next n w = (some r, s', w')) (hend : r.isEnd = true) : s'.closed = true := by
  cases n with
  | zero => cases h
  | succ n => exact latched_end closed_close h hend

theorem machine_latches : (machine ω α).Latches := by
  intro n s w r s' w' h hend w₁
  exact ⟨1, next_of_closed (closed_of_end h hend) 0 w₁⟩

/-! ## Constructors -/

/-- `file_stream_from_pull_with_close`. -/
def fromPullWithClose (pull : Nat → ω → FileReply α × ω) (close : ω → ω) : FileStream ω α :=
  .source pull close [] false

/-- `file_stream_from_pull`. -/
def fromPull (pull : Nat → ω → FileReply α × ω) : FileStream ω α := fromPullWithClose pull id

def errorStream (err : MulpError) : FileStream ω α := fromPull fun _ w => (.error err, w)

/-- `file_stream`: every earlier pull has advanced the captured `index` by one,
up to the length of `files`. -/
def fileStream (files : List α) : FileStream ω α := fromPull fun index w => (.ok files[index]?, w)

def mergeSources (streams : List (FileStream ω α)) : FileStream ω α := .merge ⟨streams, 0⟩ .unused

/-- `FileStream::pipe`, of the method: a stream over the upstream that has no inner stream yet. -/
def piped (self : FileStream ω α) (transform : α → ω → FileStream ω α × ω) : FileStream ω α :=
  .pipe ⟨self, none, [], []⟩ transform .unused

/-- `FileStream::pipe_plugin` with the plugin's name and transform. -/
def pipePlugin (self : FileStream ω α) (name : String) (transform : α → ω → FileStream ω α × ω) :
    FileStream ω α :=
  self.piped fun file w => (.plugin name (transform file w).1 .unused, (transform file w).2)

/-- The adapters `through_file_stream_flat_with_flush` and
`through_vinyl_stream_flat_with_flush` of `through2`. -/
def throughFlatWithFlush (flatMap : α → ω → Except MulpError (List α) × ω)
    (flush : ω → Except MulpError (List α) × ω) (upstream : FileStream ω α) : FileStream ω α :=
  .through (.start upstream flatMap flush) .unused

/-! ## `FileStream::collect` -/

/-- The loop body of `FileStream::collect`, on the stream and `files`. -/
def collectTurn (next : FileStream ω α → ω → Outcome (FileReply α) (FileStream ω α) ω)
    (isCancelled : ω → Bool) (st : FileStream ω α × List α) (w : ω) :
    Turn (Except MulpError (List α)) × (FileStream ω α × List α) × ω :=
  if isCancelled w then
    (.reply (.error (.taskFailed "stream" "cancelled")), ((st.1.close w).1, st.2), (st.1.close w).2)
  else
    match next st.1 w with
    | (none, s, w) => (.stuck, (s, st.2), w)
    | (some (.ok (some file)), s, w) => (.again, (s, st.2 ++ [file]), w)
    | (some (.ok none), s, w) => (.reply (.ok st.2), (s, st.2), w)
    | (some (.error err), s, w) => (.reply (.error err), ((s.close w).1, st.2), (s.close w).2)

/-- `FileStream::collect`, where `isCancelled` reads the context's token. -/
def collect (isCancelled : ω → Bool) (n : Nat) (self : FileStream ω α) (w : ω) :
    Outcome (Except MulpError (List α)) (FileStream ω α) ω :=
  (loop (collectTurn (next n) isCancelled) n (self, []) w).map Prod.fst

end FileStream

/-! ## `concat_plugin` -/

def concatOutputPath (base outPath : String) : String :=
  if "/".toList.isPrefixOf outPath.toList then outPath
  else if "/".toList.isSuffixOf base.toList then base ++ outPath
  else base ++ "/" ++ outPath

/-- `concat_buffer`; `decodeLossy` is `@utf8.decode_lossy`. -/
def concatBuffer {β : Type} (decodeLossy : List UInt8 → String) :
    FileContents β → Except MulpError String
  | .empty => .ok ""
  | .text text => .ok text
  | .buffer bytes => .ok (decodeLossy bytes)
  | .bytes _ | .directory | .symlink _ =>
      .error (.streamError "concat only supports buffered files")

def concatPlugin {ω β : Type} (decodeLossy : List UInt8 → String) (outPath : String)
    (upstream : FileStream ω (File β)) : FileStream ω (File β) :=
  .concat {
    upstream
    buffer := fun file => concatBuffer decodeLossy file.contents
    output := fun file contents => {
      cwd := file.cwd
      base := file.base
      path := concatOutputPath file.base outPath
      contents := .text contents
      metadata := []
      sourceMap := none }
    emitted := false } .unused

end Mulp.Stream
