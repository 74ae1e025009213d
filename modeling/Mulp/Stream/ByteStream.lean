import Mulp.Through2.State

/-! Byte streams (`stream/byte_stream.mbt`), and what all kinds of streams have
in common: the callbacks of a source and the flag that guards its closing.

A `ByteStream` of the source is a pull closure, a close closure and a flag. The
closures are represented by the function that built them together with the state
they captured. Callbacks of the program's users are functions on a world `ω`
that they share. -/
namespace Mulp.Stream

open Mulp.Core Mulp.Through2 Pull

/-! ## Callbacks and latches -/

/-- A call of one of the two callbacks of a source. -/
inductive Callback where
  | pull
  | close
  deriving DecidableEq

/-- The flag `closed` of a stream, and how often its close closure has run. -/
structure Latch where
  closed : Bool
  runs : Nat
  deriving DecidableEq

namespace Latch

def unused : Latch := ⟨false, 0⟩

def close (l : Latch) : Latch := ⟨true, l.runs + 1⟩

/-- Closed once. -/
def used : Latch := ⟨true, 1⟩

end Latch

def NoPullAfterClose (history : List Callback) : Prop :=
  ∀ before after, history = before ++ .close :: after → .pull ∉ after

/-- The latch is unused, or used once with everything below the stream closed. It is set by the call
that closes, so there is no state in which it is used and something below is still open. -/
def Latched (latch : Latch) (below : Prop) : Prop := latch = .unused ∨ latch = .used ∧ below

theorem Latched.below {latch : Latch} {below : Prop} (h : Latched latch below)
    (hclosed : latch.closed = true) : below := by
  rcases h with rfl | ⟨rfl, hbelow⟩
  · cases hclosed
  · exact hbelow

theorem Latched.open_eq {latch : Latch} {below : Prop} (h : Latched latch below)
    (hopen : latch.closed = false) : latch = .unused := by
  rcases h with rfl | ⟨rfl, -⟩
  · rfl
  · cases hopen

theorem Latched.runs {latch : Latch} {below : Prop} (h : Latched latch below) :
    latch.runs = latch.closed.toNat := by
  rcases h with rfl | ⟨rfl, -⟩
  · rfl
  · rfl

theorem noPullAfterClose_pulls (k : Nat) (closed : Bool) :
    NoPullAfterClose (List.replicate k .pull ++ if closed then [.close] else []) := by
  induction k with
  | zero =>
      intro before after heq
      cases closed with
      | false => cases before <;> cases heq
      | true =>
          rcases before with _ | ⟨first, _ | _⟩
          · cases heq
            simp
          · cases heq
          · cases heq
  | succ k ih =>
      intro before after heq
      rcases before with _ | ⟨first, before⟩
      · cases heq
      · exact ih before after (List.cons.inj heq).2

/-! ## Byte streams -/

abbrev Bytes := List UInt8

/-- A stream, by the function that built its closures. A `source` has callbacks
from outside: the answer of a pull may depend on the number of earlier pulls and
on the world. Its `history` records the calls of the two. -/
inductive ByteStream (ω : Type) : Type where
  | source (pull : Nat → ω → Reply MulpError Bytes × ω) (close : ω → ω) (history : List Callback)
      (consumed : Bool)
  | through (state : ThroughState (ByteStream ω) ω Bytes) (latch : Latch)

namespace ByteStream

variable {ω : Type}

def consumed : ByteStream ω → Bool
  | .source _ _ _ consumed => consumed
  | .through _ latch => latch.closed

def close : ByteStream ω → ω → ByteStream ω × ω
  | .source pull close history consumed, w =>
      if consumed then (.source pull close history consumed, w)
      else (.source pull close (history ++ [.close]) true, close w)
  | .through ⟨upstream, flatMap, flush, pending, pendingIndex, upstreamEnded, flushed, events⟩
      latch, w =>
      if latch.closed then
        (.through ⟨upstream, flatMap, flush, pending, pendingIndex, upstreamEnded, flushed, events⟩
          latch, w)
      else
        (.through ⟨(upstream.close w).1, flatMap, flush, [], pendingIndex, upstreamEnded, flushed,
          events ++ [.closed]⟩ latch.close, (upstream.close w).2)

theorem close_through {latch : Latch} (h : latch.closed = false) (w : ω)
    (st : ThroughState (ByteStream ω) ω Bytes) :
    (through st latch).close w =
      (through (st.close close w).1 latch.close, (st.close close w).2) := by
  rw [close, h]
  rfl

theorem close_of_consumed {s : ByteStream ω} (h : s.consumed = true) (w : ω) :
    s.close w = (s, w) := by
  cases s <;> exact if_pos h

theorem consumed_close (s : ByteStream ω) (w : ω) : (s.close w).1.consumed = true := by
  by_cases h : s.consumed = true
  · rw [close_of_consumed h, h]
  · have h : s.consumed = false := Bool.eq_false_iff.mpr h
    cases s with
    | source => cases h; rfl
    | through st latch => rw [close_through h]; rfl

/-- The call of the pull closure. -/
def pull (next : ByteStream ω → ω → Outcome (Reply MulpError Bytes) (ByteStream ω) ω) (n : Nat) :
    ByteStream ω → ω → Outcome (Reply MulpError Bytes) (ByteStream ω) ω
  | .source pull close history consumed, w =>
      (some (pull (history.count .pull) w).1, .source pull close (history ++ [.pull]) consumed,
        (pull (history.count .pull) w).2)
  | .through st latch, w => (st.pull next close n w).map (.through · latch)

/-- The answer of a stream that has ended, failed or been closed. -/
def alreadyConsumed : Reply MulpError Bytes := .error (.streamError "byte stream already consumed")

def readNext : Nat → ByteStream ω → ω → Outcome (Reply MulpError Bytes) (ByteStream ω) ω
  | 0, s, w => (none, s, w)
  | n + 1, s, w => latched alreadyConsumed consumed close (pull (readNext n) n) s w

theorem pull_agrees
    {next next' : ByteStream ω → ω → Outcome (Reply MulpError Bytes) (ByteStream ω) ω}
    (h : Agrees next next') {n m : Nat} (hle : n ≤ m) : Agrees (pull next n) (pull next' m) := by
  intro s w r hr
  cases s with
  | source => rfl
  | through st latch => rw [pull, pull, st.pull_agrees h hle w r hr]

theorem readNext_agrees {n m : Nat} (hle : n ≤ m) :
    Agrees (readNext n : ByteStream ω → ω → _) (readNext m) := by
  induction n generalizing m with
  | zero =>
      intro s w r hr
      cases hr
  | succ n ih =>
      obtain ⟨k, rfl⟩ : ∃ k, m = k + 1 := ⟨m - 1, by omega⟩
      intro s w r hr
      exact latched_agrees (pull_agrees (ih (by omega)) (by omega)) s w r hr

/-- Byte streams as pull machines. -/
def machine (ω : Type) : Machine (ByteStream ω) ω MulpError Bytes :=
  ⟨readNext, close, readNext_agrees⟩

/-- `byte_stream_from_pull_with_close`. -/
def fromPullWithClose (pull : Nat → ω → Reply MulpError Bytes × ω) (close : ω → ω) :
    ByteStream ω :=
  .source pull close [] false

/-- `byte_stream_from_bytes`: every earlier pull has advanced the captured
`index` by one, up to the length of `chunks`. -/
def fromBytes (chunks : List Bytes) : ByteStream ω :=
  fromPullWithClose (fun index w => (.ok chunks[index]?, w)) id

/-- `through_bytes_flat_with_flush` of `through2`. -/
def throughFlatWithFlush (flatMap : Bytes → ω → Except MulpError (List Bytes) × ω)
    (flush : ω → Except MulpError (List Bytes) × ω) (upstream : ByteStream ω) : ByteStream ω :=
  .through (.start upstream flatMap flush) .unused

theorem readNext_of_consumed {s : ByteStream ω} (h : s.consumed = true) (n : Nat) (w : ω) :
    s.readNext (n + 1) w = (some alreadyConsumed, s, w) := latched_closed w h

theorem consumed_of_end {n : Nat} {s s' : ByteStream ω} {w w' : ω} {r : Reply MulpError Bytes}
    (h : s.readNext n w = (some r, s', w')) (hend : r.isEnd = true) : s'.consumed = true := by
  cases n with
  | zero => cases h
  | succ n => exact latched_end consumed_close h hend

/-! ## Closing -/

/-- How often the close closure of the stream has run. -/
def closeRuns : ByteStream ω → Nat
  | .source _ _ history _ => history.count .close
  | .through _ latch => latch.runs

/-- The streams made of sources and adapters, in any nesting. A claim about all streams of a program
is one about these. -/
inductive Built : ByteStream ω → Prop where
  | source (pull : Nat → ω → Reply MulpError Bytes × ω) (close : ω → ω) :
      Built (fromPullWithClose pull close)
  | through {s : ByteStream ω} (flatMap : Bytes → ω → Except MulpError (List Bytes) × ω)
      (flush : ω → Except MulpError (List Bytes) × ω) (h : Built s) :
      Built (throughFlatWithFlush flatMap flush s)

/-- The close closure has run once if the stream is consumed and not at all
otherwise; below a consumed stream all are. -/
inductive Sound : ByteStream ω → Prop where
  | source {pull onClose consumed} (k : Nat) :
      Sound (.source pull onClose (List.replicate k .pull ++ if consumed then [.close] else [])
        consumed)
  | through {st latch} (h : Sound st.upstream)
      (hlatch : Latched latch (st.upstream.consumed = true)) : Sound (.through st latch)

theorem Built.sound {s : ByteStream ω} (h : Built s) : Sound s := by
  induction h with
  | source pull close => exact @Sound.source ω pull close false 0
  | through _ _ _ ih => exact .through ih (.inl rfl)

theorem Sound.closeRuns_eq {s : ByteStream ω} (h : Sound s) : s.closeRuns = s.consumed.toNat := by
  cases h with
  | @source pull onClose consumed k =>
      cases consumed <;> simp [closeRuns, ByteStream.consumed, List.count_replicate]
  | through _ hlatch => exact hlatch.runs

theorem Sound.close {s : ByteStream ω} (h : Sound s) (w : ω) : Sound (s.close w).1 := by
  induction h generalizing w with
  | @source pull onClose consumed k =>
      cases consumed with
      | true => exact @Sound.source ω pull onClose true k
      | false => simpa [ByteStream.close] using @Sound.source ω pull onClose true k
  | through upstream hlatch ih =>
      rcases hlatch with rfl | ⟨rfl, hconsumed⟩
      · rw [close_through rfl]
        exact .through (ih w) (.inr ⟨rfl, consumed_close _ w⟩)
      · exact .through upstream (.inr ⟨rfl, hconsumed⟩)

theorem Sound.readNext {s : ByteStream ω} (h : Sound s) (n : Nat) (w : ω) :
    Sound (s.readNext n w).2.1 := by
  induction n generalizing s w with
  | zero => exact h
  | succ n ih =>
      refine latched_preserves Sound h (fun hopen => ?_) fun s w hs => hs.close w
      cases h with
      | @source pull onClose consumed k =>
          cases hopen
          simpa [ByteStream.pull, List.replicate_succ'] using
            @Sound.source ω pull onClose false (k + 1)
      | @through st latch upstream hlatch =>
          obtain rfl := hlatch.open_eq hopen
          have hup := loop_preserves (fun st : ThroughState _ ω Bytes => Sound st.upstream)
            (ThroughState.turn_upstream (fun _ w hs => ih hs w) fun _ w hs => hs.close w) n
            (w := w) upstream
          exact .through hup (.inl rfl)

end ByteStream

end Mulp.Stream
