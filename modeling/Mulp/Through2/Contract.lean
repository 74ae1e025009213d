import Mulp.Stream.CloseOnce
import Mulp.Stream.Kleisli
import Mulp.Through2.Adapter

/-! The contract of the adapters of `through2`, over byte streams and over file
streams of either kind. -/
namespace Mulp.Through2

open Mulp.Core Mulp.Stream Pull

variable {ω α : Type}

/-! ## What a legal trace says -/

def Event.mappedOutputs : Event α → List α
  | .mapped _ (.ok xs) => xs
  | _ => []

def Event.flushOutputs : Event α → List α
  | .flushed (.ok xs) => xs
  | _ => []

/-- The error or the end the reader is told. -/
def Event.lastReply : Event α → List (Reply MulpError α)
  | .mapped _ (.error err) => [.error err]
  | .failed err => [.error err]
  | .flushed (.error err) => [.error err]
  | .finished => [.ok none]
  | _ => []

/-- The upstream, `flat_map` or `flush` failed. -/
def Event.isFailure : Event α → Bool
  | .mapped _ (.error _) => true
  | .failed _ => true
  | .flushed (.error _) => true
  | _ => false

theorem Event.end_of_reply {e : Event α} {r : Reply MulpError α} (h : r ∈ e.reply)
    (hr : r.isEnd = true) : e = .finished ∨ e.isFailure = true := by
  cases e with
  | finished => exact .inl rfl
  | failed => exact .inr rfl
  | mapped x r' => cases r' <;> first | exact .inr rfl | cases h
  | flushed r' => cases r' <;> first | exact .inr rfl | cases h
  | delivered x =>
      rw [List.mem_singleton.mp h] at hr
      cases hr
  | pull => cases h
  | ended => cases h
  | closed => cases h

theorem Legal.ended_of_flushed {es : List (Event α)} (h : Legal es) {r : Except MulpError (List α)}
    (hr : .flushed r ∈ es) : .ended ∈ es := by
  obtain ⟨before, after, rfl⟩ := List.append_of_mem hr
  have hallowed := h before (.flushed r) after rfl
  exact List.mem_append_left _ hallowed.2.2.1

/-- The outputs of `flat_map` come first, then those of `flush`. -/
theorem Legal.produced_eq {es : List (Event α)} (h : Legal es) :
    produced es = es.flatMap Event.mappedOutputs ++ es.flatMap Event.flushOutputs := by
  induction es using List.reverseRecOn with
  | nil => rfl
  | append_singleton es e ih =>
      have hes := ih (h.before rfl)
      have he : Allowed es e := h es e [] rfl
      have hsame : produced (es ++ [e]) = produced es ++ e.outputs := by simp [produced]
      rw [hsame, hes]
      cases e with
      | mapped x r =>
          cases r with
          | error err => simp [Event.outputs, Event.mappedOutputs, Event.flushOutputs]
          | ok xs =>
              -- `flush` has not been called: the upstream was pulled right before
              obtain ⟨earlier, rfl⟩ := he
              have hpull := h earlier .pull [.mapped x (.ok xs)] (by simp)
              have hnone : (earlier ++ [Event.pull]).flatMap Event.flushOutputs = [] := by
                rw [List.flatMap_eq_nil_iff]
                intro e he
                rcases e with _ | _ | _ | _ | (_ | ys) | _ | _ | _ <;> try rfl
                have hearlier : Legal (earlier ++ [.pull]) := h.before rfl
                have hended := hearlier.ended_of_flushed he
                simp only [List.mem_append, List.mem_singleton, reduceCtorEq, or_false] at hended
                exact absurd hended hpull.2.2
              rw [hnone]
              simp [Event.outputs, Event.mappedOutputs, Event.flushOutputs] at hnone ⊢
              exact hnone
      | flushed r =>
          cases r <;> simp [Event.outputs, Event.mappedOutputs, Event.flushOutputs]
      | pull => simp [Event.outputs, Event.mappedOutputs, Event.flushOutputs]
      | ended => simp [Event.outputs, Event.mappedOutputs, Event.flushOutputs]
      | failed => simp [Event.outputs, Event.mappedOutputs, Event.flushOutputs]
      | delivered => simp [Event.outputs, Event.mappedOutputs, Event.flushOutputs]
      | finished => simp [Event.outputs, Event.mappedOutputs, Event.flushOutputs]
      | closed => simp [Event.outputs, Event.mappedOutputs, Event.flushOutputs]

theorem Live.lastReply_eq_nil {es : List (Event α)} (h : Live es) :
    es.flatMap Event.lastReply = [] := by
  rw [List.flatMap_eq_nil_iff]
  intro e he
  have hlast := h e he
  rcases e with _ | ⟨x, _ | _⟩ | _ | _ | (_ | _) | _ | _ | _ <;> first | rfl | cases hlast

/-- The replies of the events: the items, then at most one last reply. -/
theorem Legal.replied_eq {es : List (Event α)} (h : Legal es) :
    replied es = (delivered es).map (fun x => .ok (some x)) ++ es.flatMap Event.lastReply ∧
      (es.flatMap Event.lastReply).length ≤ 1 := by
  induction es using List.reverseRecOn with
  | nil => exact ⟨rfl, Nat.zero_le 1⟩
  | append_singleton es e ih =>
      obtain ⟨hes, hlen⟩ := ih (h.before rfl)
      have hreplied : replied (es ++ [e]) = replied es ++ e.reply := by simp [replied]
      have hdelivered : delivered (es ++ [e]) = delivered es ++ e.item := by simp [delivered]
      have hlast : (es ++ [e]).flatMap Event.lastReply =
          es.flatMap Event.lastReply ++ e.lastReply := by
        simp
      rw [hreplied, hdelivered, hlast, hes]
      by_cases hclosed : e = .closed
      · subst hclosed
        simpa [Event.reply, Event.item, Event.lastReply] using hlen
      · have hnil := (h.live_before (by simp : es ++ [e] = es ++ e :: []) hclosed).lastReply_eq_nil
        rw [hnil]
        rcases e with _ | ⟨x, _ | _⟩ | _ | _ | (_ | _) | _ | _ | _ <;>
          simp [Event.reply, Event.item, Event.lastReply]

/-- After the last word there is at most a close. -/
theorem Legal.after_last {es before after : List (Event α)} {e : Event α} (h : Legal es)
    (heq : es = before ++ e :: after) (he : e.isLast = true) : ∀ e' ∈ after, e' = .closed := by
  intro e' he'
  by_contra hne
  obtain ⟨mid, rest, rfl⟩ := List.append_of_mem he'
  have hlive := h.live_before (by rw [heq]; simp : es = (before ++ e :: mid) ++ e' :: rest) hne
  have hfalse := hlive e (by simp)
  rw [he] at hfalse
  cases hfalse

/-- Everything produced was delivered before a failure. -/
theorem Legal.idle_before_failure {es before after : List (Event α)} {e : Event α} (h : Legal es)
    (heq : es = before ++ e :: after) (he : e.isFailure = true) : Idle before := by
  have hallowed := h before e after heq
  have hanswer (hpull : ∃ earlier, before = earlier ++ [.pull]) : Idle before := by
    obtain ⟨earlier, rfl⟩ := hpull
    have hbefore := h earlier .pull (e :: after) (by rw [heq]; simp)
    have hidle : delivered earlier = produced earlier := hbefore.2.1
    show delivered (earlier ++ [.pull]) = produced (earlier ++ [.pull])
    simpa [delivered, produced, Event.item, Event.outputs] using hidle
  cases e with
  | mapped => exact hanswer hallowed
  | failed => exact hanswer hallowed
  | flushed => exact hallowed.2.1
  | pull => cases he
  | ended => cases he
  | delivered => cases he
  | finished => cases he
  | closed => cases he

theorem nothing_of_closed {es : List (Event α)} (h : ∀ e ∈ es, e = .closed) :
    delivered es = [] ∧ produced es = [] := by
  constructor
  · rw [delivered, List.flatMap_eq_nil_iff]
    intro e he
    rw [h e he]
    rfl
  · rw [produced, List.flatMap_eq_nil_iff]
    intro e he
    rw [h e he]
    rfl

/-! ## The contract -/

/-- A run of calls on an adapter with the events `es`, over an upstream that
plays `sc`; `rest` is the reply of a closed stream. -/
structure Contract (sc : Script MulpError α) (rest : Reply MulpError α)
    (replies : Option (List (Reply MulpError α))) (es : List (Event α)) : Prop where
  /-- The upstream's answers are those of the script, in order. -/
  answered_prefix : answered es <+: sc.transcript
  /-- `flat_map`'s outputs for the items in order, then `flush`'s. -/
  produced_eq : produced es = es.flatMap Event.mappedOutputs ++ es.flatMap Event.flushOutputs
  delivered_prefix : delivered es <+: produced es
  /-- The reader is told the items, at most one error or end, and then `rest`. -/
  replies_eq : ∀ rs, replies = some rs → ∃ k,
    rs = (delivered es).map (fun x => .ok (some x)) ++ es.flatMap Event.lastReply ++
      List.replicate k rest
  one_last : (es.flatMap Event.lastReply).length ≤ 1
  /-- The end is told when everything was read, flushed and delivered. -/
  complete : .finished ∈ es → answered es = sc.transcript ∧ sc.ending = .ok () ∧
    (∃ xs, .flushed (.ok xs) ∈ es) ∧ delivered es = produced es
  /-- A failure comes after the items produced before it; only a close follows. -/
  failure : ∀ before e after, es = before ++ e :: after → e.isFailure = true →
    delivered before = produced before ∧ ∀ e' ∈ after, e' = .closed
  flush : ∀ before r after, es = before ++ .flushed r :: after →
    .ended ∈ before ∧ delivered before = produced before ∧ (∀ r, .flushed r ∉ before) ∧
      ∀ e ∈ before, e.isFailure = false ∧ e ≠ .closed
  pull : ∀ before after, es = before ++ .pull :: after → delivered before = produced before

theorem contract_of_faithful {sc : Script MulpError α} {rest : Reply MulpError α}
    {replies : Option (List (Reply MulpError α))} {es : List (Event α)}
    (h : Adapter.Faithful sc es)
    (hreplies : ∀ rs, replies = some rs → ∃ k, rs = replied es ++ List.replicate k rest) :
    Contract sc rest replies es := by
  obtain ⟨hlegal, hanswered⟩ := h
  obtain ⟨hreplied, hone⟩ := hlegal.replied_eq
  refine ⟨hanswered, hlegal.produced_eq, hlegal.delivered_prefix, ?_, hone, ?_, ?_, ?_, ?_⟩
  · intro rs hrs
    obtain ⟨k, hk⟩ := hreplies rs hrs
    exact ⟨k, by rw [hk, hreplied]⟩
  · intro hfinished
    obtain ⟨before, after, rfl⟩ := List.append_of_mem hfinished
    obtain ⟨-, hidle, xs, hxs⟩ := hlegal before .finished after rfl
    have hidle : delivered before = produced before := hidle
    -- `finished` is the last event that counts, so nothing is delivered after it
    have hafter := nothing_of_closed (hlegal.after_last rfl rfl)
    have hended : .ended ∈ before := (hlegal.before rfl).ended_of_flushed hxs
    have hanswer : .ok none ∈ answered (before ++ .finished :: after) :=
      List.mem_flatMap.mpr ⟨.ended, List.mem_append_left _ hended, List.mem_singleton_self _⟩
    obtain ⟨heq, hending⟩ := Script.eq_transcript_of_end hanswered hanswer
    refine ⟨heq, hending, ⟨xs, List.mem_append_left _ hxs⟩, ?_⟩
    have hd : delivered (before ++ .finished :: after) = delivered before ++ delivered after := by
      simp [delivered, Event.item]
    have hp : produced (before ++ .finished :: after) = produced before ++ produced after := by
      simp [produced, Event.outputs]
    rw [hd, hp, hafter.1, hafter.2, hidle]
  · intro before e after heq he
    have hlast : e.isLast = true := by
      rcases e with _ | ⟨x, _ | _⟩ | _ | _ | (_ | _) | _ | _ | _ <;> first | rfl | cases he
    exact ⟨hlegal.idle_before_failure heq he, hlegal.after_last heq hlast⟩
  · intro before r after heq
    obtain ⟨hlive, hidle, hended, hnone⟩ := hlegal before (.flushed r) after heq
    refine ⟨hended, hidle, hnone, fun e he => ⟨?_, ?_⟩⟩
    · have hlast := hlive e he
      rcases e with _ | ⟨x, _ | _⟩ | _ | _ | (_ | _) | _ | _ | _ <;> first | rfl | cases hlast
    · rintro rfl
      exact hlive.closed_not_mem he
  · intro before after heq
    exact (hlegal before .pull after heq).2.1

/-- The contract of an adapter over a whole upstream: of every run, and that
reading to the end delivers everything or fails; `events` and `upstreamRuns` read
off the stream what happened and how often the upstream's close closure has run.
The events are the calls on the upstream and on the given callbacks, so that what
is delivered is what `flatMap` and `flush` have given. -/
structure ThroughContract {τ : Type} (M : Machine τ ω MulpError α) (upstream : τ)
    (flatMap : α → ω → Except MulpError (List α) × ω) (flush : ω → Except MulpError (List α) × ω)
    (s : τ) (sc : Script MulpError α) (rest : Reply MulpError α) (events : τ → List (Event α))
    (upstreamRuns : τ → Nat) : Prop where
  run : ∀ n ops w, Contract sc rest (M.run n ops s w).1 (events (M.run n ops s w).2.1)
  calls : ∀ n ops w, ∃ upstream', Adapter.Happens M flatMap flush (upstream, w)
    (events (M.run n ops s w).2.1) (upstream', (M.run n ops s w).2.2)
  ends : ∀ w, ∃ k n, (M.run n (List.replicate k .next) s w).1.isSome ∧
    (.finished ∈ events (M.run n (List.replicate k .next) s w).2.1 ∨
      ∃ e ∈ events (M.run n (List.replicate k .next) s w).2.1, e.isFailure = true)
  closes : ∀ n ops w rs, (M.run n ops s w).1 = some rs →
    (.close ∈ ops ∨ ∃ r ∈ rs, r.isEnd = true) → upstreamRuns (M.run n ops s w).2.1 = 1

/-- Any stream that behaves as an adapter over a machine that plays the script. -/
theorem contract_of_hom {σ τ : Type} {U : Machine σ ω MulpError α} {M : Machine τ ω MulpError α}
    {rest : Reply MulpError α} {f : Adapter σ ω α → τ} {events : τ → List (Event α)}
    {sc : Script MulpError α} {upstream : σ} (hom : (Adapter.machine U rest).Hom M f)
    (hevents : ∀ a, events (f a) = a.state.events) (h : U.Plays sc upstream)
    (flatMap : α → ω → Except MulpError (List α) × ω) (flush : ω → Except MulpError (List α) × ω) :
    (∀ n ops w, Contract sc rest (M.run n ops (f ⟨.start upstream flatMap flush, false⟩) w).1
      (events (M.run n ops (f ⟨.start upstream flatMap flush, false⟩) w).2.1)) ∧
    (∀ n ops w, ∃ upstream', Adapter.Happens U flatMap flush (upstream, w)
      (events (M.run n ops (f ⟨.start upstream flatMap flush, false⟩) w).2.1)
      (upstream', (M.run n ops (f ⟨.start upstream flatMap flush, false⟩) w).2.2)) ∧
    ∀ w, ∃ k n,
      (M.run n (List.replicate k .next) (f ⟨.start upstream flatMap flush, false⟩) w).1.isSome ∧
      (.finished ∈ events
          (M.run n (List.replicate k .next) (f ⟨.start upstream flatMap flush, false⟩) w).2.1 ∨
        ∃ e ∈ events
          (M.run n (List.replicate k .next) (f ⟨.start upstream flatMap flush, false⟩) w).2.1,
          e.isFailure = true) := by
  have hopen := Adapter.Open.start h flatMap flush
  have hinv : Adapter.Inv U sc ⟨.start upstream flatMap flush, false⟩ :=
    ⟨hopen.faithful, fun _ => hopen⟩
  refine ⟨?_, ?_, ?_⟩
  · intro n ops w
    obtain ⟨hfaithful, hreplies⟩ := @Adapter.Inv.run _ _ _ U rest sc _ hinv n ops w
    rw [hom.run]
    refine contract_of_faithful ?_ ?_
    · show Adapter.Faithful sc (events (f _))
      rw [hevents]
      exact hfaithful
    · intro rs hrs
      show ∃ k, rs = replied (events (f _)) ++ _
      rw [hevents]
      exact hreplies rs hrs
  · intro n ops w
    have hstart : Adapter.Records U flatMap flush (upstream, w)
        (.start upstream flatMap flush) w := ⟨rfl, rfl, .nothing⟩
    have hrecords := @Adapter.Records.run _ _ _ U rest flatMap flush (upstream, w) w
      ⟨.start upstream flatMap flush, false⟩ hstart n ops
    have hhappens := hrecords.happens
    rw [← hevents] at hhappens
    rw [hom.run]
    exact ⟨_, hhappens⟩
  · intro w
    -- some number of calls brings an end or an error, and that is an event
    have hends : (Adapter.machine U rest).Ends ⟨.start upstream flatMap flush, false⟩ :=
      .of_answers fun w => Adapter.answers_of_plays h [] 0 [] w
    obtain ⟨k, n, rs, hrs, hend⟩ := hends w
    obtain ⟨r, hr, hend⟩ := hinv.run_end rfl hrs hend
    obtain ⟨e, he, hreply⟩ := List.mem_flatMap.mp hr
    refine ⟨k, n, ?_, ?_⟩
    · rw [hom.run]
      exact Option.isSome_iff_exists.mpr ⟨rs, hrs⟩
    · rw [hom.run]
      show .finished ∈ events (f _) ∨ ∃ e ∈ events (f _), e.isFailure = true
      rw [hevents]
      rcases Event.end_of_reply hreply hend with rfl | hfailure
      · exact .inl he
      · exact .inr ⟨e, he, hfailure⟩

end Mulp.Through2

/-! ## Byte streams -/

namespace Mulp.Stream.ByteStream

open Mulp.Core Mulp.Through2 Pull

variable {ω : Type}

def events : ByteStream ω → List (Event Bytes)
  | .through st _ => st.events
  | _ => []

def upstreamRuns : ByteStream ω → Nat
  | .through st _ => st.upstream.closeRuns
  | _ => 0

def ofAdapter (a : Adapter (ByteStream ω) ω Bytes) : ByteStream ω :=
  .through a.state (if a.closed then .used else .unused)

theorem ofAdapter_close (a : Adapter (ByteStream ω) ω Bytes) (w : ω) :
    (ofAdapter a).close w = (ofAdapter (a.close close w).1, (a.close close w).2) := by
  obtain ⟨st, _ | _⟩ := a
  · exact close_through rfl w st
  · exact close_of_consumed rfl w

theorem ofAdapter_hom :
    (Adapter.machine (machine ω) alreadyConsumed).Hom (machine ω) ofAdapter := by
  constructor
  · intro n a w
    cases n with
    | zero => rfl
    | succ n =>
        obtain ⟨st, _ | _⟩ := a
        · exact settled_map ofAdapter_close ((st.pull (readNext n) close n w).map (⟨·, false⟩))
        · rfl
  · exact ofAdapter_close

theorem consumed_of_run {n : Nat} {ops : List Op} {s : ByteStream ω} {w : ω}
    {replies : List (Reply MulpError Bytes)} (hrun : ((machine ω).run n ops s w).1 = some replies)
    (hend : .close ∈ ops ∨ ∃ r ∈ replies, r.isEnd = true) :
    ((machine ω).run n ops s w).2.1.consumed = true := by
  refine Machine.run_latches (fun s : ByteStream ω => s.consumed = true) ?_ consumed_close
    consumed_of_end hrun hend
  intro s w hs
  cases n with
  | zero => exact hs
  | succ n =>
      show (s.readNext (n + 1) w).2.1.consumed = true
      rw [readNext_of_consumed hs]
      exact hs

theorem through_contract {s : ByteStream ω} {sc : Script MulpError Bytes} (hbuilt : s.Built)
    (hs : (machine ω).Plays sc s) (flatMap : Bytes → ω → Except MulpError (List Bytes) × ω)
    (flush : ω → Except MulpError (List Bytes) × ω) :
    ThroughContract (machine ω) s flatMap flush (throughFlatWithFlush flatMap flush s) sc
      alreadyConsumed events upstreamRuns := by
  have hevents (a : Adapter (ByteStream ω) ω Bytes) : events (ofAdapter a) = a.state.events := rfl
  obtain ⟨hrun, hcalls, hends⟩ := contract_of_hom ofAdapter_hom hevents hs flatMap flush
  refine ⟨hrun, hcalls, hends, ?_⟩
  intro n ops w rs hrs hend
  have hconsumed := consumed_of_run hrs hend
  have hsound : Sound ((machine ω).run n ops (throughFlatWithFlush flatMap flush s) w).2.1 :=
    Machine.run_preserves Sound (fun _ w hs => hs.readNext n w) (fun _ w hs => hs.close w) ops
      (Built.through flatMap flush hbuilt).sound
  have heq := ofAdapter_hom.run n ops ⟨.start s flatMap flush, false⟩ w
  rw [show throughFlatWithFlush flatMap flush s =
    ofAdapter ⟨.start s flatMap flush, false⟩ from rfl, heq] at hsound hconsumed ⊢
  cases hsound with
  | through upstream hlatch =>
      show closeRuns _ = 1
      rw [upstream.closeRuns_eq, hlatch.below hconsumed]
      rfl

end Mulp.Stream.ByteStream

/-! ## File streams -/

namespace Mulp.Stream.FileStream

open Mulp.Core Mulp.Through2 Pull

variable {ω α : Type}

def events : FileStream ω α → List (Event α)
  | .through st _ => st.events
  | _ => []

def upstreamRuns : FileStream ω α → Nat
  | .through st _ => st.upstream.closeRuns
  | _ => 0

def ofAdapter (a : Adapter (FileStream ω α) ω α) : FileStream ω α :=
  .through a.state (if a.closed then .used else .unused)

theorem ofAdapter_close (a : Adapter (FileStream ω α) ω α) (w : ω) :
    (ofAdapter a).close w = (ofAdapter (a.close close w).1, (a.close close w).2) := by
  obtain ⟨st, _ | _⟩ := a
  · exact close_through rfl w st
  · exact close_of_closed rfl w

theorem ofAdapter_hom :
    (Adapter.machine (machine ω α) (.ok none)).Hom (machine ω α) ofAdapter := by
  constructor
  · intro n a w
    cases n with
    | zero => rfl
    | succ n =>
        obtain ⟨st, _ | _⟩ := a
        · exact settled_map ofAdapter_close ((st.pull (next n) close n w).map (⟨·, false⟩))
        · rfl
  · exact ofAdapter_close

theorem through_contract {s : FileStream ω α} {sc : Script MulpError α} (hbuilt : s.Built)
    (hs : Plays sc s) (flatMap : α → ω → Except MulpError (List α) × ω)
    (flush : ω → Except MulpError (List α) × ω) :
    ThroughContract (machine ω α) s flatMap flush (throughFlatWithFlush flatMap flush s) sc
      (.ok none) events upstreamRuns := by
  have hevents (a : Adapter (FileStream ω α) ω α) : events (ofAdapter a) = a.state.events := rfl
  obtain ⟨hrun, hcalls, hends⟩ := contract_of_hom ofAdapter_hom hevents hs flatMap flush
  refine ⟨hrun, hcalls, hends, ?_⟩
  intro n ops w rs hrs hend
  have hsound : Sound (throughFlatWithFlush flatMap flush s) := .through hbuilt.sound (.inl rfl)
  have hparts (t : FileStream ω α) := @Sound.runs_of_run _ _ n ops _ t w rs hsound hrs hend
  have heq := ofAdapter_hom.run n ops ⟨.start s flatMap flush, false⟩ w
  rw [show throughFlatWithFlush flatMap flush s =
    ofAdapter ⟨.start s flatMap flush, false⟩ from rfl, heq] at hparts ⊢
  exact hparts _ (.through .self)

end Mulp.Stream.FileStream
