import Mulp.Core.Error
import Mulp.Lib.Machine

/-! The state and the pull loop the three adapters of `through2` share
(`through2/byte.mbt`, `through2/file.mbt`, `through2/vinyl.mbt`).

The three copies differ in the upstream object only, here `σ` with its `next` and
`close`. The events are not in the source: they say what was done, and nothing reads
them. -/
namespace Mulp.Through2

open Mulp.Core Pull

/-- What happened, in order: a call on the upstream and its answer (of an item,
with the answer of `flat_map`), an answer of `flush`, an item handed out, the
loop left with `Ok(None)`, the close closure called. -/
inductive Event (α : Type) where
  | pull
  | mapped (x : α) (r : Except MulpError (List α))
  | ended
  | failed (err : MulpError)
  | flushed (r : Except MulpError (List α))
  | delivered (x : α)
  | finished
  | closed

/-- `ByteThroughState`, `FileThroughState`, `VinylThroughState`, with the events
so far. The callbacks act on the world `ω`. -/
structure ThroughState (σ ω α : Type) where
  upstream : σ
  flatMap : α → ω → Except MulpError (List α) × ω
  flush : ω → Except MulpError (List α) × ω
  pending : List α
  pendingIndex : Nat
  upstreamEnded : Bool
  flushed : Bool
  events : List (Event α)

namespace ThroughState

variable {σ ω α : Type}

/-- `file_state` and its siblings. -/
def start (upstream : σ) (flatMap : α → ω → Except MulpError (List α) × ω)
    (flush : ω → Except MulpError (List α) × ω) : ThroughState σ ω α :=
  { upstream, flatMap, flush, pending := [], pendingIndex := 0, upstreamEnded := false,
    flushed := false, events := [] }

def nextPending (st : ThroughState σ ω α) : Option α × ThroughState σ ω α :=
  match st.pending[st.pendingIndex]? with
  | some x =>
      (some x, { st with
        pendingIndex := st.pendingIndex + 1, events := st.events ++ [.delivered x] })
  | none => (none, { st with pending := [], pendingIndex := 0 })

/-- The body of the loop in the pull closure of the adapters. -/
def turn (next : σ → ω → Outcome (Reply MulpError α) σ ω) (close : σ → ω → σ × ω)
    (st : ThroughState σ ω α) (w : ω) :
    Turn (Reply MulpError α) × ThroughState σ ω α × ω :=
  match st.nextPending with
  | (some x, st) => (.reply (.ok (some x)), st, w)
  | (none, st) =>
      if st.upstreamEnded then
        if st.flushed then
          (.reply (.ok none), { st with events := st.events ++ [.finished] }, w)
        else
          match st.flush w with
          | (.ok xs, w) =>
              (.again, { st with
                pending := xs, pendingIndex := 0, flushed := true,
                events := st.events ++ [.flushed (.ok xs)] }, w)
          | (.error err, w) =>
              (.reply (.error err), { st with
                events := st.events ++ [.flushed (.error err)] }, w)
      else
        match next st.upstream w with
        | (none, upstream, w) =>
            (.stuck, { st with upstream, events := st.events ++ [.pull] }, w)
        | (some (.ok (some x)), upstream, w) =>
            match st.flatMap x w with
            | (.ok xs, w) =>
                (.again, { st with
                  upstream, pending := xs, pendingIndex := 0,
                  events := st.events ++ [.pull, .mapped x (.ok xs)] }, w)
            | (.error err, w) =>
                (.reply (.error err), { st with
                  upstream := (close upstream w).1,
                  events := st.events ++ [.pull, .mapped x (.error err)] }, (close upstream w).2)
        | (some (.ok none), upstream, w) =>
            (.again, { st with
              upstream, upstreamEnded := true, events := st.events ++ [.pull, .ended] }, w)
        | (some (.error err), upstream, w) =>
            (.reply (.error err), { st with
              upstream, events := st.events ++ [.pull, .failed err] }, w)

/-- The pull closure of the adapters. -/
def pull (next : σ → ω → Outcome (Reply MulpError α) σ ω) (close : σ → ω → σ × ω) (n : Nat) :
    ThroughState σ ω α → ω → Outcome (Reply MulpError α) (ThroughState σ ω α) ω :=
  loop (turn next close) n

/-- The close closure of the adapters. -/
def close (closeUpstream : σ → ω → σ × ω) (st : ThroughState σ ω α) (w : ω) :
    ThroughState σ ω α × ω :=
  ({ st with
    pending := [], upstream := (closeUpstream st.upstream w).1,
    events := st.events ++ [.closed] }, (closeUpstream st.upstream w).2)

theorem turn_agrees {next next' : σ → ω → Outcome (Reply MulpError α) σ ω}
    {close : σ → ω → σ × ω} (h : Agrees next next') :
    BodyAgrees (turn next close : ThroughState σ ω α → ω → _) (turn next' close) := by
  intro st w hturn
  unfold turn at hturn ⊢
  rcases hp : st.nextPending with ⟨_ | x, st₁⟩
  · rw [hp] at hturn
    simp only at hturn ⊢
    by_cases hended : st₁.upstreamEnded = true
    · rw [if_pos hended, if_pos hended]
    · rw [if_neg hended] at hturn
      rw [if_neg hended, if_neg hended]
      rcases hn : next st₁.upstream w with ⟨_ | r, upstream, w₁⟩
      · rw [hn] at hturn
        exact absurd rfl hturn
      · rw [h st₁.upstream w r (by rw [hn]), hn]
  · rfl

theorem pull_agrees {next next' : σ → ω → Outcome (Reply MulpError α) σ ω}
    {close : σ → ω → σ × ω} (h : Agrees next next') {n m : Nat} (hle : n ≤ m) :
    Agrees (pull next close n : ThroughState σ ω α → ω → _) (pull next' close m) :=
  loop_agrees (turn_agrees h) hle

/-- What `next` and `close` of the upstream preserve of it, a turn preserves. -/
theorem turn_upstream {next : σ → ω → Outcome (Reply MulpError α) σ ω} {close : σ → ω → σ × ω}
    {P : σ → Prop} (hnext : ∀ u w, P u → P (next u w).2.1) (hclose : ∀ u w, P u → P (close u w).1)
    (st : ThroughState σ ω α) (w : ω) (h : P st.upstream) :
    P (turn next close st w).2.1.upstream := by
  have hpending : P st.nextPending.2.upstream := by
    unfold nextPending
    split <;> exact h
  unfold turn
  rcases hp : st.nextPending with ⟨_ | x, st₁⟩
  · rw [hp] at hpending
    simp only
    by_cases hended : st₁.upstreamEnded = true
    · rw [if_pos hended]
      by_cases hflushed : st₁.flushed = true
      · rw [if_pos hflushed]
        exact hpending
      · rw [if_neg hflushed]
        rcases st₁.flush w with ⟨err | xs, w₁⟩
        · exact hpending
        · exact hpending
    · rw [if_neg hended]
      have hupstream := hnext st₁.upstream w hpending
      rcases hn : next st₁.upstream w with ⟨_ | (err | _ | x), upstream, w₁⟩ <;>
        rw [hn] at hupstream
      · exact hupstream
      · exact hupstream
      · exact hupstream
      · simp only
        rcases st₁.flatMap x w₁ with ⟨err | xs, w₂⟩
        · exact hclose upstream w₂ hupstream
        · exact hupstream
  · rw [hp] at hpending
    exact hpending

end ThroughState

end Mulp.Through2
