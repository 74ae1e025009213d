import Mulp.Through2.Trace

/-! An adapter over any upstream machine: what every call does to its events, and that
reading reaches the end when the upstream plays a script.

The events are a log that the model keeps beside the fields of the source. All that is
claimed of an adapter is read off it: what the upstream answered, what the two callbacks
gave, what was delivered, and in which order. -/
namespace Mulp.Through2

open Mulp.Core Pull

variable {σ ω α : Type}

/-- The state of an adapter and the flag of the stream made of it. -/
structure Adapter (σ ω α : Type) where
  state : ThroughState σ ω α
  closed : Bool

namespace Adapter

def close (closeUpstream : σ → ω → σ × ω) (a : Adapter σ ω α) (w : ω) : Adapter σ ω α × ω :=
  if a.closed then (a, w)
  else (⟨(a.state.close closeUpstream w).1, true⟩, (a.state.close closeUpstream w).2)

/-- `next` of the stream, which answers `rest` once it is closed. -/
def next (U : Machine σ ω MulpError α) (rest : Reply MulpError α) :
    Nat → Adapter σ ω α → ω → Outcome (Reply MulpError α) (Adapter σ ω α) ω
  | 0, a, w => (none, a, w)
  | n + 1, a, w =>
      latched rest Adapter.closed (close U.close)
        (fun a w => (a.state.pull (U.next n) U.close n w).map (⟨·, a.closed⟩)) a w

theorem next_agrees (U : Machine σ ω MulpError α) (rest : Reply MulpError α) {n m : Nat}
    (hle : n ≤ m) : Agrees (next U rest n) (next U rest m) := by
  intro a w r hr
  cases n with
  | zero => cases hr
  | succ n =>
      obtain ⟨k, rfl⟩ : ∃ k, m = k + 1 := ⟨m - 1, by omega⟩
      rw [next] at hr ⊢
      rw [next]
      refine latched_agrees ?_ a w r hr
      intro a w r hr
      have hpull : a.state.pull (U.next k) U.close k w = a.state.pull (U.next n) U.close n w :=
        ThroughState.pull_agrees (U.mono (by omega)) (by omega) a.state w r hr
      show Outcome.map _ _ = Outcome.map _ _
      rw [hpull]

def machine (U : Machine σ ω MulpError α) (rest : Reply MulpError α) :
    Machine (Adapter σ ω α) ω MulpError α :=
  ⟨next U rest, close U.close, next_agrees U rest⟩

variable {U : Machine σ ω MulpError α} {rest : Reply MulpError α} {sc : Script MulpError α}

theorem next_of_closed {a : Adapter σ ω α} (h : a.closed = true) (n : Nat) (w : ω) :
    next U rest (n + 1) a w = (some rest, a, w) := by
  rw [next, latched_closed w h]

theorem looping : (machine U rest).Looping (fun st => ⟨st, false⟩)
    (fun n => ThroughState.turn (U.next n) U.close)
    (fun o => settled (close U.close) (o.map (⟨·, false⟩))) :=
  ⟨fun hle => ThroughState.turn_agrees (U.mono hle), fun _ _ _ => rfl, fun _ => settled_fst _,
    fun _ _ _ => rfl⟩

/-! ## The calls behind the events -/

/-- The events are calls made one after the other, each in the world that the last one left: on the
upstream, on `flat_map` with what it answered, on `flush`. What stands in an event is what the call
has given. -/
inductive Happens (U : Machine σ ω MulpError α) (flatMap : α → ω → Except MulpError (List α) × ω)
    (flush : ω → Except MulpError (List α) × ω) (start : σ × ω) : List (Event α) → σ × ω → Prop
  | nothing : Happens U flatMap flush start [] start
  | stuck {n es u w u' w'} (h : Happens U flatMap flush start es (u, w))
      (hnext : U.next n u w = (none, u', w')) :
      Happens U flatMap flush start (es ++ [.pull]) (u', w')
  | mapped {n es u w x u' w' xs w''} (h : Happens U flatMap flush start es (u, w))
      (hnext : U.next n u w = (some (.ok (some x)), u', w'))
      (hmap : flatMap x w' = (.ok xs, w'')) :
      Happens U flatMap flush start (es ++ [.pull, .mapped x (.ok xs)]) (u', w'')
  /-- The upstream is closed behind a failure of `flat_map`. -/
  | refused {n es u w x u' w' err w''} (h : Happens U flatMap flush start es (u, w))
      (hnext : U.next n u w = (some (.ok (some x)), u', w'))
      (hmap : flatMap x w' = (.error err, w'')) :
      Happens U flatMap flush start (es ++ [.pull, .mapped x (.error err)]) (U.close u' w'')
  | ended {n es u w u' w'} (h : Happens U flatMap flush start es (u, w))
      (hnext : U.next n u w = (some (.ok none), u', w')) :
      Happens U flatMap flush start (es ++ [.pull, .ended]) (u', w')
  | failed {n es u w err u' w'} (h : Happens U flatMap flush start es (u, w))
      (hnext : U.next n u w = (some (.error err), u', w')) :
      Happens U flatMap flush start (es ++ [.pull, .failed err]) (u', w')
  | flushed {es u w r w'} (h : Happens U flatMap flush start es (u, w)) (hflush : flush w = (r, w')) :
      Happens U flatMap flush start (es ++ [.flushed r]) (u, w')
  | delivered {es u w} (h : Happens U flatMap flush start es (u, w)) (x : α) :
      Happens U flatMap flush start (es ++ [.delivered x]) (u, w)
  | finished {es u w} (h : Happens U flatMap flush start es (u, w)) :
      Happens U flatMap flush start (es ++ [.finished]) (u, w)
  | closed {es u w} (h : Happens U flatMap flush start es (u, w)) :
      Happens U flatMap flush start (es ++ [.closed]) (U.close u w)

/-- The adapter has these callbacks, and its events are calls that have led to this world. -/
structure Records (U : Machine σ ω MulpError α) (flatMap : α → ω → Except MulpError (List α) × ω)
    (flush : ω → Except MulpError (List α) × ω) (start : σ × ω) (st : ThroughState σ ω α) (w : ω) :
    Prop where
  flatMap_eq : st.flatMap = flatMap
  flush_eq : st.flush = flush
  happens : Happens U flatMap flush start st.events (st.upstream, w)

section Records

variable {flatMap : α → ω → Except MulpError (List α) × ω} {flush : ω → Except MulpError (List α) × ω}
  {start : σ × ω} {st : ThroughState σ ω α} {w : ω}

theorem Records.nextPending (h : Records U flatMap flush start st w) :
    Records U flatMap flush start st.nextPending.2 w := by
  unfold ThroughState.nextPending
  cases st.pending[st.pendingIndex]? with
  | none => exact ⟨h.flatMap_eq, h.flush_eq, h.happens⟩
  | some x => exact ⟨h.flatMap_eq, h.flush_eq, h.happens.delivered x⟩

theorem Records.turn (h : Records U flatMap flush start st w) (n : Nat) :
    Records U flatMap flush start (st.turn (U.next n) U.close w).2.1
      (st.turn (U.next n) U.close w).2.2 := by
  have hpending := h.nextPending
  unfold ThroughState.turn
  rcases hp : st.nextPending with ⟨_ | x, st₁⟩
  · rw [hp] at hpending
    obtain ⟨hmap, hflush, hhappens⟩ := hpending
    simp only
    by_cases hended : st₁.upstreamEnded = true
    · rw [if_pos hended]
      by_cases hflushed : st₁.flushed = true
      · rw [if_pos hflushed]
        exact ⟨hmap, hflush, hhappens.finished⟩
      · rw [if_neg hflushed]
        rcases hr : st₁.flush w with ⟨err | xs, w₁⟩
        · exact ⟨hmap, hflush, hhappens.flushed (hflush ▸ hr)⟩
        · exact ⟨hmap, hflush, hhappens.flushed (hflush ▸ hr)⟩
    · rw [if_neg hended]
      rcases hn : U.next n st₁.upstream w with ⟨_ | (err | _ | x), upstream, w₁⟩
      · exact ⟨hmap, hflush, hhappens.stuck hn⟩
      · exact ⟨hmap, hflush, hhappens.failed hn⟩
      · exact ⟨hmap, hflush, hhappens.ended hn⟩
      · simp only
        rcases hr : st₁.flatMap x w₁ with ⟨err | xs, w₂⟩
        · exact ⟨hmap, hflush, hhappens.refused hn (hmap ▸ hr)⟩
        · exact ⟨hmap, hflush, hhappens.mapped hn (hmap ▸ hr)⟩
  · rw [hp] at hpending
    exact hpending

theorem Records.pull (h : Records U flatMap flush start st w) (n : Nat) :
    Records U flatMap flush start (st.pull (U.next n) U.close n w).2.1
      (st.pull (U.next n) U.close n w).2.2 := by
  refine @loop_rule _ _ ω _ st w (Records U flatMap flush start)
    (fun _ st w => Records U flatMap flush start st w) ?_ ?_ n h
  · intro st w hst
    exact hst
  · intro st w hst
    have hturn := hst.turn n
    rcases hr : st.turn (U.next n) U.close w with ⟨_ | _ | _, st', w'⟩ <;> rw [hr] at hturn <;>
      exact hturn

theorem Records.close (h : Records U flatMap flush start st w) :
    Records U flatMap flush start (st.close U.close w).1 (st.close U.close w).2 :=
  ⟨h.flatMap_eq, h.flush_eq, h.happens.closed⟩

theorem Records.closeAdapter {a : Adapter σ ω α} (h : Records U flatMap flush start a.state w) :
    Records U flatMap flush start (a.close U.close w).1.state (a.close U.close w).2 := by
  unfold Adapter.close
  by_cases hclosed : a.closed = true
  · rw [if_pos hclosed]
    exact h
  · rw [if_neg hclosed]
    exact h.close

theorem Records.next {a : Adapter σ ω α} (h : Records U flatMap flush start a.state w) (n : Nat) :
    Records U flatMap flush start (next U rest n a w).2.1.state (next U rest n a w).2.2 := by
  obtain ⟨st, closed⟩ := a
  cases n with
  | zero => exact h
  | succ n =>
      cases closed with
      | true =>
          rw [next_of_closed rfl]
          exact h
      | false =>
          have hpull := Records.pull h n
          rw [Adapter.next, latched_open w rfl]
          dsimp only at hpull ⊢
          rcases hp : st.pull (U.next n) U.close n w with ⟨_ | (err | _ | x), st', w'⟩ <;>
            rw [hp] at hpull
          · exact hpull
          · exact hpull.close
          · exact hpull.close
          · exact hpull

/-- The events of a run are the calls that it has made. -/
theorem Records.run {a : Adapter σ ω α} (h : Records U flatMap flush start a.state w) (n : Nat)
    (ops : List Op) : Records U flatMap flush start ((machine U rest).run n ops a w).2.1.state
      ((machine U rest).run n ops a w).2.2 :=
  Machine.run_keeps (fun (a : Adapter σ ω α) w => Records U flatMap flush start a.state w)
    (fun _ _ hs => hs.next n) (fun _ _ hs => hs.closeAdapter) ops h

end Records

/-! ## The invariant of an open adapter -/

/-- The events so far are legal and none is the last; the produced items not
yet delivered are pending; the upstream plays what it has not answered. -/
structure Open (U : Machine σ ω MulpError α) (sc : Script MulpError α) (st : ThroughState σ ω α) :
    Prop where
  legal : Legal st.events
  live : Live st.events
  pending : produced st.events = delivered st.events ++ st.pending.drop st.pendingIndex
  ended : st.upstreamEnded = true ↔ .ended ∈ st.events
  flushed : st.flushed = true ↔ ∃ xs, .flushed (.ok xs) ∈ st.events
  upstream : if st.upstreamEnded then answered st.events = sc.transcript
    else ∃ left, sc.transcript = answered st.events ++ left.transcript ∧ U.Plays left st.upstream

/-- What holds of the events after any call: they are legal, and what the upstream answered is what
the script says. It is a prefix of it, since a reader may stop at any time. -/
def Faithful (sc : Script MulpError α) (es : List (Event α)) : Prop :=
  Legal es ∧ answered es <+: sc.transcript

theorem Open.faithful {st : ThroughState σ ω α} (h : Open U sc st) : Faithful sc st.events := by
  refine ⟨h.legal, ?_⟩
  have hupstream := h.upstream
  by_cases hended : st.upstreamEnded = true
  · rw [if_pos hended] at hupstream
    exact ⟨[], by rw [hupstream, List.append_nil]⟩
  · rw [if_neg hended] at hupstream
    obtain ⟨left, hleft, -⟩ := hupstream
    exact ⟨left.transcript, hleft.symm⟩

theorem Open.start {upstream : σ} (h : U.Plays sc upstream)
    (flatMap : α → ω → Except MulpError (List α) × ω) (flush : ω → Except MulpError (List α) × ω) :
    Open U sc (.start upstream flatMap flush) :=
  { legal := .nil
    live := by
      intro e he
      cases he
    pending := rfl
    ended := by simp [ThroughState.start]
    flushed := by simp [ThroughState.start]
    upstream := ⟨sc, rfl, h⟩ }

/-- What a call that has come to `o` leaves behind, when the replies of the
events before it were `base`. -/
structure Called (U : Machine σ ω MulpError α) (sc : Script MulpError α)
    (base : List (Reply MulpError α)) (o : Option (Reply MulpError α)) (st : ThroughState σ ω α) :
    Prop where
  faithful : Faithful sc st.events
  open_ : Event.closed ∉ st.events
  replied : ∀ r, o = some r → replied st.events = base ++ [r]
  goesOn : ∀ r, o = some r → r.isEnd = false → Open U sc st

/-- A call that has not returned. -/
theorem called_stuck {base : List (Reply MulpError α)} {st : ThroughState σ ω α}
    (hfaithful : Faithful sc st.events) (hopen : Event.closed ∉ st.events) :
    Called U sc base none st :=
  ⟨hfaithful, hopen, nofun, nofun⟩

/-- A call that has answered the end or an error. -/
theorem called_end {base : List (Reply MulpError α)} {st : ThroughState σ ω α}
    {r : Reply MulpError α} (hfaithful : Faithful sc st.events) (hopen : Event.closed ∉ st.events)
    (hreplied : replied st.events = base ++ [r]) (hend : r.isEnd = true) :
    Called U sc base (some r) st := by
  refine ⟨hfaithful, hopen, ?_, ?_⟩
  · intro r' hr'
    cases hr'
    exact hreplied
  · intro r' hr' hnot
    cases hr'
    rw [hend] at hnot
    cases hnot

theorem Open.nextPending {st : ThroughState σ ω α} (h : Open U sc st) :
    (∃ x, st.nextPending.1 = some x ∧ Open U sc st.nextPending.2 ∧
      replied st.nextPending.2.events = replied st.events ++ [.ok (some x)]) ∨
    (st.nextPending = (none, { st with pending := [], pendingIndex := 0 }) ∧ Idle st.events) := by
  unfold ThroughState.nextPending
  rcases hget : st.pending[st.pendingIndex]? with _ | x
  · right
    refine ⟨rfl, ?_⟩
    have hdrop : st.pending.drop st.pendingIndex = [] := by
      rw [List.drop_eq_nil_iff]
      exact List.getElem?_eq_none_iff.mp hget
    have hpending := h.pending
    rw [hdrop, List.append_nil] at hpending
    exact hpending.symm
  · left
    have hdrop : st.pending.drop st.pendingIndex = x :: st.pending.drop (st.pendingIndex + 1) :=
      List.drop_eq_getElem?_toList_append.trans (by rw [hget]; rfl)
    have hpending := h.pending
    rw [hdrop] at hpending
    have hallowed : Allowed st.events (.delivered x) :=
      ⟨h.live, st.pending.drop (st.pendingIndex + 1), by rw [hpending]; simp⟩
    refine ⟨x, rfl, ⟨h.legal.snoc hallowed, h.live.snoc rfl, ?_, ?_, ?_, ?_⟩, ?_⟩
    · simp [produced, delivered, Event.outputs, Event.item] at hpending ⊢
      exact hpending
    · simpa using h.ended
    · simpa using h.flushed
    · simpa [answered, Event.answer] using h.upstream
    · simp [replied, Event.reply]

/-- New outputs of an idle adapter are all pending. -/
theorem pending_of_idle {es new : List (Event α)} {xs : List α} (h : Idle es)
    (hitems : delivered new = []) (houtputs : produced new = xs) :
    produced (es ++ new) = delivered (es ++ new) ++ xs.drop 0 := by
  have hidle : delivered es = produced es := h
  have hproduced : produced (es ++ new) = produced es ++ produced new := List.flatMap_append
  have hdelivered : delivered (es ++ new) = delivered es ++ delivered new := List.flatMap_append
  rw [hproduced, hdelivered, hitems, houtputs, List.append_nil, hidle, List.drop_zero]

/-- A turn of an idle adapter whose upstream has ended. -/
theorem Open.turn_ended {st : ThroughState σ ω α} (n : Nat) (w : ω) (h : Open U sc st)
    (hidle : Idle st.events) (hended : st.upstreamEnded = true)
    (hpending : st.nextPending = (none, { st with pending := [], pendingIndex := 0 })) :
    Meets (fun st' _ => Open U sc st' ∧ replied st'.events = replied st.events)
      (fun o st' _ => Called U sc (replied st.events) o st') (st.turn (U.next n) U.close w) := by
  have hupstream := h.upstream
  rw [if_pos hended] at hupstream
  rw [ThroughState.turn, hpending]
  simp only [hended, if_true]
  by_cases hflushed : st.flushed = true
  · rw [if_pos hflushed]
    have hallowed : Allowed st.events .finished := ⟨h.live, hidle, h.flushed.mp hflushed⟩
    refine called_end ⟨h.legal.snoc hallowed, ?_⟩ ?_ ?_ rfl
    · simp [answered, Event.answer, ← hupstream]
    · simpa using h.live.closed_not_mem
    · simp [replied, Event.reply]
  · rw [if_neg hflushed]
    -- a second flush would follow the first one in the events
    have hnone (r : Except MulpError (List α)) : Event.flushed r ∉ st.events := by
      intro hmem
      cases r with
      | error err => cases h.live _ hmem
      | ok xs => exact hflushed (h.flushed.mpr ⟨xs, hmem⟩)
    have hallowed (r : Except MulpError (List α)) : Allowed st.events (.flushed r) :=
      ⟨h.live, hidle, h.ended.mp hended, hnone⟩
    rcases st.flush w with ⟨err | xs, w'⟩
    · refine called_end ⟨h.legal.snoc (hallowed _), ?_⟩ ?_ ?_ rfl
      · simp [answered, Event.answer, ← hupstream]
      · simpa using h.live.closed_not_mem
      · simp [replied, Event.reply]
    · refine ⟨⟨h.legal.snoc (hallowed _), h.live.snoc rfl, ?_, ?_, ?_, ?_⟩, ?_⟩
      · exact pending_of_idle hidle (by simp [delivered, Event.item])
          (by simp [produced, Event.outputs])
      · simpa [hended] using h.ended
      · simp
      · simpa [answered, Event.answer, hended] using hupstream
      · simp [replied, Event.reply]

/-- A turn of an idle adapter whose upstream has not ended. -/
theorem Open.turn_pull {st : ThroughState σ ω α} (n : Nat) (w : ω) (h : Open U sc st)
    (hidle : Idle st.events) (hended : st.upstreamEnded = false)
    (hpending : st.nextPending = (none, { st with pending := [], pendingIndex := 0 })) :
    Meets (fun st' _ => Open U sc st' ∧ replied st'.events = replied st.events)
      (fun o st' _ => Called U sc (replied st.events) o st') (st.turn (U.next n) U.close w) := by
  have hupstream := h.upstream
  rw [if_neg (Bool.eq_false_iff.mp hended)] at hupstream
  obtain ⟨left, hleft, hplays⟩ := hupstream
  have hnotEnded : Event.ended ∉ st.events := by
    intro hmem
    rw [h.ended.mpr hmem] at hended
    cases hended
  have hlegal (e : Event α) (he : ∀ es : List (Event α), Allowed (es ++ [.pull]) e) :
      Legal (st.events ++ [.pull, e]) := h.legal.pull_answer h.live hidle hnotEnded he
  have hclosed := h.live.closed_not_mem
  rw [ThroughState.turn, hpending]
  simp only [hended, Bool.false_eq_true, if_false]
  rcases hn : U.next n st.upstream w with ⟨_ | r, upstream', w'⟩
  · -- the pull has not returned
    refine called_stuck ⟨h.legal.snoc ⟨h.live, hidle, hnotEnded⟩, ?_⟩ ?_
    · simp [answered, Event.answer, hleft]
    · simpa using hclosed
  · rcases hplays.next_cases hn with ⟨rfl, rfl⟩ | ⟨err, rfl, rfl⟩ | ⟨x, rest, rfl, rfl, hrest⟩
    · have hlive : Live (st.events ++ [.pull, .ended]) := by
        simpa using (h.live.snoc (e := .pull) rfl).snoc (e := .ended) rfl
      refine ⟨⟨hlegal .ended fun es => ⟨es, rfl⟩, hlive, ?_, ?_, ?_, ?_⟩, ?_⟩
      · exact pending_of_idle hidle (by simp [delivered, Event.item])
          (by simp [produced, Event.outputs])
      · simp
      · simpa using h.flushed
      · simp [answered, Event.answer, hleft, Script.transcript]
      · simp [replied, Event.reply]
    · refine called_end ⟨hlegal (.failed err) fun es => ⟨es, rfl⟩, ?_⟩ ?_ ?_ rfl
      · simp [answered, Event.answer, hleft, Script.transcript]
      · simpa using hclosed
      · simp [replied, Event.reply]
    · simp only
      have hmapped (r : Except MulpError (List α)) := hlegal (.mapped x r) fun es => ⟨es, rfl⟩
      rcases st.flatMap x w' with ⟨err | xs, w''⟩
      · refine called_end ⟨hmapped (.error err), ?_⟩ ?_ ?_ rfl
        · simp [answered, Event.answer, hleft, Script.transcript]
        · simpa using hclosed
        · simp [replied, Event.reply]
      · have hlive : Live (st.events ++ [.pull, .mapped x (.ok xs)]) := by
          simpa using (h.live.snoc (e := .pull) rfl).snoc (e := .mapped x (.ok xs)) rfl
        refine ⟨⟨hmapped (.ok xs), hlive, ?_, ?_, ?_, ?_⟩, ?_⟩
        · exact pending_of_idle hidle (by simp [delivered, Event.item])
            (by simp [produced, Event.outputs])
        · simpa [hended] using h.ended
        · simpa using h.flushed
        · simp [answered, Event.answer, hleft, Script.transcript]
          exact ⟨rest, rfl, hrest⟩
        · simp [replied, Event.reply]

theorem Open.turn {st : ThroughState σ ω α} {base : List (Reply MulpError α)} (n : Nat) (w : ω)
    (h : Open U sc st) (hbase : replied st.events = base) :
    Meets (fun st _ => Open U sc st ∧ replied st.events = base)
      (fun o st _ => Called U sc base o st) (st.turn (U.next n) U.close w) := by
  subst hbase
  rcases h.nextPending with ⟨x, hx, hopen, hreplied⟩ | ⟨hpending, hidle⟩
  · rw [ThroughState.turn]
    rcases hnext : st.nextPending with ⟨o, st'⟩
    rw [hnext] at hx hopen hreplied
    cases hx
    refine ⟨hopen.faithful, hopen.live.closed_not_mem, ?_, fun _ _ _ => hopen⟩
    intro r hr
    cases hr
    exact hreplied
  · by_cases hended : st.upstreamEnded = true
    · exact h.turn_ended n w hidle hended hpending
    · exact h.turn_pull n w hidle (Bool.eq_false_iff.mpr hended) hpending

/-- A pull of an open adapter, out of its loop or out of fuel. -/
theorem Open.pull {st : ThroughState σ ω α} (h : Open U sc st) (n : Nat) (w : ω) :
    Called U sc (replied st.events) (st.pull (U.next n) U.close n w).1
      (st.pull (U.next n) U.close n w).2.1 := by
  refine @loop_rule _ _ ω _ st w (fun st' _ => Open U sc st' ∧
    replied st'.events = replied st.events)
    (fun o st' _ => Called U sc (replied st.events) o st') ?_ ?_ n ⟨h, rfl⟩
  · intro st' w hst
    refine ⟨hst.1.faithful, hst.1.live.closed_not_mem, ?_, ?_⟩
    · intro r hr
      cases hr
    · intro r hr
      cases hr
  · intro st' w hst
    exact hst.1.turn n w hst.2

/-! ## Calls and runs -/

/-- The invariant of an adapter, open or closed. Only while it is open do its fields say anything:
what is in the buffer and not delivered is what has been produced and not delivered yet. -/
structure Inv (U : Machine σ ω MulpError α) (sc : Script MulpError α) (a : Adapter σ ω α) : Prop where
  faithful : Faithful sc a.state.events
  isOpen : a.closed = false → Open U sc a.state

theorem Inv.close {a : Adapter σ ω α} (h : Inv U sc a) (w : ω) : Inv U sc (a.close U.close w).1 ∧
    replied (a.close U.close w).1.state.events = replied a.state.events := by
  unfold Adapter.close
  by_cases hclosed : a.closed = true
  · rw [if_pos hclosed]
    exact ⟨h, rfl⟩
  · rw [if_neg hclosed]
    have hopen := h.isOpen (Bool.eq_false_iff.mpr hclosed)
    refine ⟨⟨⟨h.faithful.1.snoc hopen.live.closed_not_mem, ?_⟩, fun hc => by cases hc⟩, ?_⟩
    · simpa [ThroughState.close, answered, Event.answer] using h.faithful.2
    · simp [ThroughState.close, replied, Event.reply]

/-- A call of `next` on an open adapter. -/
theorem Inv.next_open {a : Adapter σ ω α} (h : Inv U sc a) (hopen : a.closed = false) (n : Nat)
    (w : ω) :
    Faithful sc (next U rest n a w).2.1.state.events ∧
    ∀ r, (next U rest n a w).1 = some r → Inv U sc (next U rest n a w).2.1 ∧
      replied (next U rest n a w).2.1.state.events = replied a.state.events ++ [r] ∧
      (next U rest n a w).2.1.closed = r.isEnd := by
  obtain ⟨st, closed⟩ := a
  cases hopen
  cases n with
  | zero => exact ⟨h.faithful, fun r hr => by cases hr⟩
  | succ n =>
      have hcalled := (h.isOpen rfl).pull n w
      rw [next, latched_open w rfl]
      simp only
      rcases hp : st.pull (U.next n) U.close n w with ⟨_ | r, st', w'⟩
      · rw [hp] at hcalled
        exact ⟨hcalled.faithful, fun r hr => by cases hr⟩
      · rw [hp] at hcalled
        -- an end or an error is latched: the adapter closes behind it
        by_cases hend : r.isEnd = true
        · have hclosed : Legal (st'.events ++ [.closed]) := hcalled.faithful.1.snoc hcalled.open_
          have hanswered : answered (st'.events ++ [.closed]) <+: sc.transcript := by
            simpa [answered, Event.answer] using hcalled.faithful.2
          have hreplied : replied (st'.events ++ [.closed]) = replied st.events ++ [r] := by
            simpa [replied, Event.reply] using hcalled.replied r rfl
          rw [Outcome.map, settled_end hend]
          refine ⟨⟨hclosed, hanswered⟩, ?_⟩
          intro r hr
          cases hr
          exact ⟨⟨⟨hclosed, hanswered⟩, fun hc => by cases hc⟩, hreplied, hend.symm⟩
        · have hend : r.isEnd = false := Bool.eq_false_iff.mpr hend
          rw [settled_of_not_end (by rintro _ ⟨⟩; exact hend)]
          refine ⟨hcalled.faithful, ?_⟩
          intro r hr
          cases hr
          exact ⟨⟨hcalled.faithful, fun _ => hcalled.goesOn r rfl hend⟩, hcalled.replied r rfl,
            hend.symm⟩

/-- Nothing happens to a closed adapter. -/
theorem run_of_closed {a : Adapter σ ω α} (h : a.closed = true) (n : Nat) (ops : List Op) (w : ω) :
    ((machine U rest).run n ops a w).2.1 = a ∧
    ∀ rs, ((machine U rest).run n ops a w).1 = some rs → ∃ k, rs = List.replicate k rest := by
  induction ops with
  | nil => exact ⟨rfl, fun rs hrs => ⟨0, by cases hrs; rfl⟩⟩
  | cons op ops ih =>
      cases op with
      | close =>
          have hclose : (machine U rest).close a w = (a, w) := if_pos h
          rw [Machine.run, hclose]
          exact ih
      | next =>
          rw [Machine.run]
          cases n with
          | zero => exact ⟨rfl, fun rs hrs => by cases hrs⟩
          | succ n =>
              rw [show (machine U rest).next (n + 1) a w = (some rest, a, w) from
                next_of_closed h n w]
              refine ⟨ih.1, fun rs hrs => ?_⟩
              obtain ⟨rs', hrs', rfl⟩ := Option.map_eq_some_iff.mp hrs
              obtain ⟨k, rfl⟩ := ih.2 rs' hrs'
              exact ⟨k + 1, rfl⟩

/-- The events of a run are legal and say what the script says; its replies are
those of the events, and `rest` after them. -/
theorem Inv.run {a : Adapter σ ω α} (h : Inv U sc a) (n : Nat) (ops : List Op) (w : ω) :
    Faithful sc ((machine U rest).run n ops a w).2.1.state.events ∧
    ∀ rs, ((machine U rest).run n ops a w).1 = some rs → ∃ k,
      replied a.state.events ++ rs =
        replied ((machine U rest).run n ops a w).2.1.state.events ++ List.replicate k rest := by
  induction ops generalizing a w with
  | nil => exact ⟨h.faithful, fun rs hrs => ⟨0, by cases hrs; rfl⟩⟩
  | cons op ops ih =>
      -- a closed adapter repeats its last reply, which is where `k` comes from
      by_cases hclosed : a.closed = true
      · obtain ⟨hsame, hrest⟩ := @run_of_closed _ _ _ U rest a hclosed n (op :: ops) w
        rw [hsame]
        refine ⟨h.faithful, fun rs hrs => ?_⟩
        obtain ⟨k, rfl⟩ := hrest rs hrs
        exact ⟨k, rfl⟩
      · cases op with
        | close =>
            obtain ⟨hinv, hreplied⟩ := h.close w
            rw [← hreplied]
            exact ih hinv _
        | next =>
            obtain ⟨hfaithful, hnext⟩ := @Inv.next_open _ _ _ U rest sc a h
              (Bool.eq_false_iff.mpr hclosed) n w
            rw [Machine.run]
            rcases hstep : (machine U rest).next n a w with ⟨_ | r, a', w'⟩
            · rw [show next U rest n a w = _ from hstep] at hfaithful
              exact ⟨hfaithful, fun rs hrs => by cases hrs⟩
            · rw [show next U rest n a w = _ from hstep] at hnext
              obtain ⟨hinv, hreplied, -⟩ := hnext r rfl
              obtain ⟨hfaithful', hrest⟩ := ih hinv w'
              refine ⟨hfaithful', fun rs hrs => ?_⟩
              obtain ⟨rs', hrs', rfl⟩ := Option.map_eq_some_iff.mp hrs
              obtain ⟨k, hk⟩ := hrest rs' hrs'
              refine ⟨k, ?_⟩
              rw [← hk, hreplied]
              simp

/-- The first end or error of an open adapter's replies is that of an event. -/
theorem Inv.run_end {a : Adapter σ ω α} (h : Inv U sc a) (hopen : a.closed = false)
    {n k : Nat} {w : ω} {rs : List (Reply MulpError α)}
    (hrun : ((machine U rest).run n (List.replicate k .next) a w).1 = some rs)
    (hend : ∃ r ∈ rs, r.isEnd = true) :
    ∃ r ∈ replied ((machine U rest).run n (List.replicate k .next) a w).2.1.state.events,
      r.isEnd = true := by
  induction k generalizing a w rs with
  | zero =>
      cases hrun
      simp at hend
  | succ k ih =>
      obtain ⟨-, hnext⟩ := @Inv.next_open _ _ _ U rest sc a h hopen n w
      rw [List.replicate_succ, Machine.run] at hrun ⊢
      rcases hstep : (machine U rest).next n a w with ⟨_ | r, a', w'⟩
      · rw [hstep] at hrun
        cases hrun
      · rw [hstep] at hrun
        rw [show next U rest n a w = _ from hstep] at hnext
        obtain ⟨hinv, hreplied, hclosed⟩ := hnext r rfl
        obtain ⟨rs', hrs', rfl⟩ := Option.map_eq_some_iff.mp hrun
        by_cases hr : r.isEnd = true
        · have hsame := (@run_of_closed _ _ _ U rest a' (hclosed.trans hr) n
            (List.replicate k .next) w').1
          refine ⟨r, ?_, hr⟩
          show r ∈ replied ((machine U rest).run n _ a' w').2.1.state.events
          rw [hsame]
          simp [hreplied]
        · have hr : r.isEnd = false := Bool.eq_false_iff.mpr hr
          refine ih hinv (hclosed.trans hr) hrs' ?_
          obtain ⟨r', hr', hend⟩ := hend
          rcases List.mem_cons.mp hr' with rfl | hr'
          · rw [hend] at hr
            cases hr
          · exact ⟨r', hr', hend⟩

/-! ## Reading to the end -/

section Ends

variable {upstream : σ} {flatMap : α → ω → Except MulpError (List α) × ω}
  {flush : ω → Except MulpError (List α) × ω} {ended flushed : Bool}

/-- The pending items are handed out first. -/
theorem answers_of_drained
    (h : ∀ pending index events w, pending[index]? = none → (machine U rest).Answers
      ⟨⟨upstream, flatMap, flush, pending, index, ended, flushed, events⟩, false⟩ w)
    (pending : List α) (index : Nat) (events : List (Event α)) (w : ω) : (machine U rest).Answers
      ⟨⟨upstream, flatMap, flush, pending, index, ended, flushed, events⟩, false⟩ w := by
  have hloop : (machine U rest).Looping _ _ _ := looping
  generalize hk : pending.length - index = k
  induction k generalizing index events w with
  | zero =>
      apply h
      rw [List.getElem?_eq_none_iff]
      omega
  | succ k ih =>
      rcases hget : pending[index]? with _ | x
      · exact h pending index events w hget
      · have hturn : ThroughState.turn (U.next 0) U.close
            ⟨upstream, flatMap, flush, pending, index, ended, flushed, events⟩ w =
            (.reply (.ok (some x)), ⟨upstream, flatMap, flush, pending, index + 1, ended, flushed,
              events ++ [.delivered x]⟩, w) := by
          simp only [ThroughState.turn, ThroughState.nextPending, hget]
        apply hloop.answers_item hturn
        apply Machine.Ends.of_answers
        intro w
        exact ih (index + 1) _ w (by omega)

theorem answers_flushed (pending : List α) (index : Nat) (events : List (Event α)) (w : ω) :
    (machine U rest).Answers
      ⟨⟨upstream, flatMap, flush, pending, index, true, true, events⟩, false⟩ w := by
  have hloop : (machine U rest).Looping _ _ _ := looping
  apply answers_of_drained
  intro pending index events w hget
  have hturn : ThroughState.turn (U.next 0) U.close
      ⟨upstream, flatMap, flush, pending, index, true, true, events⟩ w =
      (.reply (.ok none),
        ⟨upstream, flatMap, flush, [], 0, true, true, events ++ [.finished]⟩, w) := by
    simp only [ThroughState.turn, ThroughState.nextPending, hget, if_true]
  exact hloop.answers_end hturn rfl

theorem answers_ended (pending : List α) (index : Nat) (events : List (Event α)) (w : ω) :
    (machine U rest).Answers
      ⟨⟨upstream, flatMap, flush, pending, index, true, false, events⟩, false⟩ w := by
  have hloop : (machine U rest).Looping _ _ _ := looping
  apply answers_of_drained
  intro pending index events w hget
  rcases hflush : flush w with ⟨err | xs, w'⟩
  · have hturn : ThroughState.turn (U.next 0) U.close
        ⟨upstream, flatMap, flush, pending, index, true, false, events⟩ w =
        (.reply (.error err), ⟨upstream, flatMap, flush, [], 0, true, false,
          events ++ [.flushed (.error err)]⟩, w') := by
      simp [ThroughState.turn, ThroughState.nextPending, hget, hflush]
    exact hloop.answers_end hturn rfl
  · have hturn : ThroughState.turn (U.next 0) U.close
        ⟨upstream, flatMap, flush, pending, index, true, false, events⟩ w =
        (.again, ⟨upstream, flatMap, flush, xs, 0, true, true, events ++ [.flushed (.ok xs)]⟩,
          w') := by
      simp [ThroughState.turn, ThroughState.nextPending, hget, hflush]
    exact hloop.answers_again hturn (answers_flushed xs 0 _ w')

theorem answers_of_plays {left : Script MulpError α} (h : U.Plays left upstream)
    (pending : List α) (index : Nat) (events : List (Event α)) (w : ω) :
    (machine U rest).Answers
      ⟨⟨upstream, flatMap, flush, pending, index, false, false, events⟩, false⟩ w := by
  have hloop : (machine U rest).Looping _ _ _ := looping
  -- on what the upstream has left; pending items are given out first
  induction left generalizing upstream pending index events w with
  | done =>
      apply answers_of_drained
      intro pending index events w hget
      obtain ⟨n, upstream', w', hn⟩ := h w
      have hturn : ThroughState.turn (U.next n) U.close
          ⟨upstream, flatMap, flush, pending, index, false, false, events⟩ w =
          (.again, ⟨upstream', flatMap, flush, [], 0, true, false, events ++ [.pull, .ended]⟩,
            w') := by
        simp [ThroughState.turn, ThroughState.nextPending, hget, hn]
      exact hloop.answers_again hturn (answers_ended [] 0 _ w')
  | fail err =>
      apply answers_of_drained
      intro pending index events w hget
      obtain ⟨n, upstream', w', hn⟩ := h w
      have hturn : ThroughState.turn (U.next n) U.close
          ⟨upstream, flatMap, flush, pending, index, false, false, events⟩ w =
          (.reply (.error err), ⟨upstream', flatMap, flush, [], 0, false, false,
            events ++ [.pull, .failed err]⟩, w') := by
        simp [ThroughState.turn, ThroughState.nextPending, hget, hn]
      exact hloop.answers_end hturn rfl
  | item x left ih =>
      apply answers_of_drained
      intro pending index events w hget
      obtain ⟨n, upstream', w', hn, hleft⟩ := h w
      rcases hmap : flatMap x w' with ⟨err | xs, w''⟩
      · have hturn : ∃ st w₁, ThroughState.turn (U.next n) U.close
            ⟨upstream, flatMap, flush, pending, index, false, false, events⟩ w =
            (.reply (.error err), st, w₁) := by
          simp [ThroughState.turn, ThroughState.nextPending, hget, hn, hmap]
        obtain ⟨st, w₁, hturn⟩ := hturn
        exact hloop.answers_end hturn rfl
      · have hturn : ThroughState.turn (U.next n) U.close
            ⟨upstream, flatMap, flush, pending, index, false, false, events⟩ w =
            (.again, ⟨upstream', flatMap, flush, xs, 0, false, false,
              events ++ [.pull, .mapped x (.ok xs)]⟩, w'') := by
          simp [ThroughState.turn, ThroughState.nextPending, hget, hn, hmap]
        exact hloop.answers_again hturn (ih hleft xs 0 _ w'')

end Ends

end Adapter

end Mulp.Through2
