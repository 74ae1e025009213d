import Mulp.Stream.FileStream

/-! Closing of pipelines. Whatever the order of calls on the outermost stream,
the close callback of every stream in a pipeline runs at most once and no source
is pulled after its own; the end, an error and an early close of the outermost
stream close everything below it. -/
namespace Mulp.Stream.FileStream

open Mulp.Core Mulp.Through2 Pull

variable {ω α : Type}

/-! ## Pipelines and their parts -/

/-- The pipelines built from sources by nesting the combinators. -/
inductive Built : FileStream ω α → Prop where
  | source (pull : Nat → ω → FileReply α × ω) (close : ω → ω) : Built (fromPullWithClose pull close)
  | merge {streams : List (FileStream ω α)} (h : ∀ s ∈ streams, Built s) :
      Built (mergeSources streams)
  | pipe {s : FileStream ω α} {transform : α → ω → FileStream ω α × ω} (h : Built s)
      (htransform : ∀ x w, Built (transform x w).1) : Built (s.piped transform)
  | pipePlugin {s : FileStream ω α} {name : String} {transform : α → ω → FileStream ω α × ω}
      (h : Built s) (htransform : ∀ x w, Built (transform x w).1) : Built (s.pipePlugin name transform)
  | concat {s : FileStream ω α} (buffer : α → Except MulpError String) (output : α → String → α)
      (h : Built s) : Built (.concat ⟨s, buffer, output, false⟩ .unused)
  | through {s : FileStream ω α} (flatMap : α → ω → Except MulpError (List α) × ω)
      (flush : ω → Except MulpError (List α) × ω) (h : Built s) :
      Built (throughFlatWithFlush flatMap flush s)

/-- `t` is the stream or one of the streams below it: the upstreams and, of a
pipe, the inner streams its transform has returned so far. -/
inductive PartOf (t : FileStream ω α) : FileStream ω α → Prop where
  | self : PartOf t t
  | merge {st latch s} (hs : s ∈ st.streams) (h : PartOf t s) : PartOf t (.merge st latch)
  | upstream {st transform latch} (h : PartOf t st.upstream) : PartOf t (.pipe st transform latch)
  | current {st transform latch s} (hs : s ∈ st.current) (h : PartOf t s) :
      PartOf t (.pipe st transform latch)
  | dropped {st transform latch s} (hs : s ∈ st.dropped) (h : PartOf t s) :
      PartOf t (.pipe st transform latch)
  | plugin {name inner latch} (h : PartOf t inner) : PartOf t (.plugin name inner latch)
  | concat {st latch} (h : PartOf t st.upstream) : PartOf t (.concat st latch)
  | through {st latch} (h : PartOf t st.upstream) : PartOf t (.through st latch)

/-- How often the close closure of the stream has run. -/
def closeRuns : FileStream ω α → Nat
  | .source _ _ history _ => history.count .close
  | .merge _ latch => latch.runs
  | .pipe _ _ latch => latch.runs
  | .plugin _ _ latch => latch.runs
  | .concat _ latch => latch.runs
  | .through _ latch => latch.runs

/-- The calls of the callbacks of a source, in order. A stream over others has the callbacks of
these, and none of its own. -/
def history : FileStream ω α → List Callback
  | .source _ _ history _ => history
  | _ => []

/-! ## The invariant -/

/-- In every part, the close closure has run once if the part is closed and not
at all otherwise; below a closed part all are closed, and so are the inner
streams a pipe has dropped. -/
inductive Sound : FileStream ω α → Prop where
  | source {pull onClose closed} (k : Nat) :
      Sound (.source pull onClose (List.replicate k .pull ++ if closed then [.close] else []) closed)
  | merge {st latch} (streams : ∀ s ∈ st.streams, Sound s)
      (hlatch : Latched latch (∀ s ∈ st.streams, s.closed = true)) : Sound (.merge st latch)
  | pipe {st transform latch} (upstream : Sound st.upstream) (current : ∀ s ∈ st.current, Sound s)
      (dropped : ∀ s ∈ st.dropped, Sound s) (hdropped : ∀ s ∈ st.dropped, s.closed = true)
      (htransform : ∀ x w, Sound (transform x w).1)
      (hlatch : Latched latch (st.upstream.closed = true ∧ ∀ s ∈ st.current, s.closed = true)) :
      Sound (.pipe st transform latch)
  | plugin {name inner latch} (h : Sound inner) (hlatch : Latched latch (inner.closed = true)) :
      Sound (.plugin name inner latch)
  | concat {st latch} (h : Sound st.upstream) (hlatch : Latched latch (st.upstream.closed = true)) :
      Sound (.concat st latch)
  | through {st latch} (h : Sound st.upstream)
      (hlatch : Latched latch (st.upstream.closed = true)) : Sound (.through st latch)

theorem Built.sound {s : FileStream ω α} (h : Built s) : Sound s := by
  induction h with
  | source pull close => exact @Sound.source ω α pull close false 0
  | merge _ ih => exact .merge ih (.inl rfl)
  | pipe _ _ ih ihtransform =>
      exact .pipe ih (by simp) (by simp) (by simp) ihtransform (.inl rfl)
  | pipePlugin _ _ ih ihtransform =>
      exact .pipe ih (by simp) (by simp) (by simp)
        (fun x w => .plugin (ihtransform x w) (.inl rfl)) (.inl rfl)
  | concat _ _ _ ih => exact .concat ih (.inl rfl)
  | through _ _ _ ih => exact .through ih (.inl rfl)

theorem Sound.part {s t : FileStream ω α} (h : Sound s) (ht : PartOf t s) : Sound t := by
  induction ht with
  | self => exact h
  | merge hs _ ih =>
      cases h with
      | merge streams => exact ih (streams _ hs)
  | upstream _ ih =>
      cases h with
      | pipe upstream => exact ih upstream
  | current hs _ ih =>
      cases h with
      | pipe _ current => exact ih (current _ hs)
  | dropped hs _ ih =>
      cases h with
      | pipe _ _ dropped => exact ih (dropped _ hs)
  | plugin _ ih =>
      cases h with
      | plugin inner => exact ih inner
  | concat _ ih =>
      cases h with
      | concat upstream => exact ih upstream
  | through _ ih =>
      cases h with
      | through upstream => exact ih upstream

/-- Below a closed stream all are closed. -/
theorem Sound.part_closed {s t : FileStream ω α} (h : Sound s) (hclosed : s.closed = true)
    (ht : PartOf t s) : t.closed = true := by
  induction ht with
  | self => exact hclosed
  | merge hs _ ih =>
      cases h with
      | merge streams hlatch => exact ih (streams _ hs) (hlatch.below hclosed _ hs)
  | upstream _ ih =>
      cases h with
      | pipe upstream _ _ _ _ hlatch => exact ih upstream (hlatch.below hclosed).1
  | current hs _ ih =>
      cases h with
      | pipe _ current _ _ _ hlatch => exact ih (current _ hs) ((hlatch.below hclosed).2 _ hs)
  | dropped hs _ ih =>
      cases h with
      | pipe _ _ dropped hdropped => exact ih (dropped _ hs) (hdropped _ hs)
  | plugin _ ih =>
      cases h with
      | plugin inner hlatch => exact ih inner (hlatch.below hclosed)
  | concat _ ih =>
      cases h with
      | concat upstream hlatch => exact ih upstream (hlatch.below hclosed)
  | through _ ih =>
      cases h with
      | through upstream hlatch => exact ih upstream (hlatch.below hclosed)

theorem Sound.closeRuns_eq {s : FileStream ω α} (h : Sound s) : s.closeRuns = s.closed.toNat := by
  cases h with
  | @source pull onClose closed k =>
      cases closed <;> simp [closeRuns, FileStream.closed, List.count_replicate]
  | merge _ hlatch => exact hlatch.runs
  | pipe _ _ _ _ _ hlatch => exact hlatch.runs
  | plugin _ hlatch => exact hlatch.runs
  | concat _ hlatch => exact hlatch.runs
  | through _ hlatch => exact hlatch.runs

theorem Sound.noPullAfterClose {s : FileStream ω α} (h : Sound s) : NoPullAfterClose s.history := by
  have hnil : NoPullAfterClose [] := noPullAfterClose_pulls 0 false
  cases h with
  | @source pull onClose closed k => exact noPullAfterClose_pulls k closed
  | merge => exact hnil
  | pipe => exact hnil
  | plugin => exact hnil
  | concat => exact hnil
  | through => exact hnil

/-! ## `close` and `next` keep the invariant -/

theorem mem_closeAll {streams : List (FileStream ω α)} {w : ω} {s : FileStream ω α}
    (h : s ∈ (closeAll streams w).1) : ∃ t ∈ streams, ∃ w', s = (t.close w').1 := by
  induction streams generalizing w with
  | nil => cases h
  | cons t rest ih =>
      rcases List.mem_cons.mp h with rfl | h
      · exact ⟨t, List.mem_cons_self, w, rfl⟩
      · obtain ⟨t', ht', w', hs⟩ := ih h
        exact ⟨t', List.mem_cons_of_mem t ht', w', hs⟩

theorem mem_closeCurrent {current : Option (FileStream ω α)} {w : ω} {s : FileStream ω α}
    (h : s ∈ (closeCurrent current w).1) : ∃ t ∈ current, s = (t.close w).1 := by
  cases current with
  | none => cases h
  | some t =>
      cases h
      exact ⟨t, rfl, rfl⟩

theorem Sound.close {s : FileStream ω α} (h : Sound s) (w : ω) : Sound (s.close w).1 := by
  -- in each case the stream is open, or closing it again changes nothing
  induction h generalizing w with
  | @source pull onClose closed k =>
      cases closed with
      | true => exact @Sound.source ω α pull onClose true k
      | false => simpa using @Sound.source ω α pull onClose true k
  | merge streams hlatch ih =>
      rcases hlatch with rfl | ⟨rfl, hclosed⟩
      · rw [close_merge rfl]
        refine .merge (fun s hs => ?_) (.inr ⟨rfl, fun s hs => ?_⟩)
        · obtain ⟨t, ht, w', rfl⟩ := mem_closeAll hs
          exact ih t ht w'
        · obtain ⟨t, ht, w', rfl⟩ := mem_closeAll hs
          exact closed_close t w'
      · exact .merge streams (.inr ⟨rfl, hclosed⟩)
  | pipe upstream current dropped hdropped htransform hlatch ihupstream ihcurrent =>
      rcases hlatch with rfl | ⟨rfl, hclosed⟩
      · rw [close_pipe rfl]
        refine .pipe (ihupstream _) (fun s hs => ?_) dropped hdropped htransform
          (.inr ⟨rfl, closed_close _ _, fun s hs => ?_⟩)
        · obtain ⟨t, ht, rfl⟩ := mem_closeCurrent hs
          exact ihcurrent t ht w
        · obtain ⟨t, ht, rfl⟩ := mem_closeCurrent hs
          exact closed_close t w
      · exact .pipe upstream current dropped hdropped htransform (.inr ⟨rfl, hclosed⟩)
  | plugin inner hlatch ih =>
      rcases hlatch with rfl | ⟨rfl, hclosed⟩
      · rw [close_plugin rfl]
        exact .plugin (ih w) (.inr ⟨rfl, closed_close _ w⟩)
      · exact .plugin inner (.inr ⟨rfl, hclosed⟩)
  | concat upstream hlatch ih =>
      rcases hlatch with rfl | ⟨rfl, hclosed⟩
      · rw [close_concat rfl]
        exact .concat (ih w) (.inr ⟨rfl, closed_close _ w⟩)
      · exact .concat upstream (.inr ⟨rfl, hclosed⟩)
  | through upstream hlatch ih =>
      rcases hlatch with rfl | ⟨rfl, hclosed⟩
      · rw [close_through rfl]
        exact .through (ih w) (.inr ⟨rfl, closed_close _ w⟩)
      · exact .through upstream (.inr ⟨rfl, hclosed⟩)

/-- The streams of a pipe: all sound, the dropped ones closed. An inner stream is dropped when it
has ended, and nothing refers to it from then on: were it open, nobody could close it any more. -/
def PipeSound (st : PipeState (FileStream ω α) α) : Prop :=
  Sound st.upstream ∧ (∀ s ∈ st.current, Sound s) ∧ (∀ s ∈ st.dropped, Sound s) ∧
    ∀ s ∈ st.dropped, s.closed = true

section Turns

variable {next : FileStream ω α → ω → Outcome (FileReply α) (FileStream ω α) ω}
  (hnext : ∀ s w, Sound s → Sound (next s w).2.1)

include hnext

theorem mergeTurn_sound (st : MergeState (FileStream ω α)) (w : ω) (h : ∀ s ∈ st.streams, Sound s) :
    ∀ s ∈ (mergeTurn next st w).2.1.streams, Sound s := by
  unfold mergeTurn
  rcases hget : st.streams[st.index]? with _ | stream
  · exact h
  · have hstream := hnext stream w (h stream (List.mem_of_getElem? hget))
    have hset : ∀ s ∈ st.streams.set st.index (next stream w).2.1, Sound s := by
      intro s hs
      rcases List.mem_or_eq_of_mem_set hs with hs | rfl
      · exact h s hs
      · exact hstream
    rcases hn : next stream w with ⟨_ | (err | _ | file), stream', w'⟩ <;>
      simp only [hn] at hset ⊢ <;> exact hset

theorem pipeTurn_sound {transform : α → ω → FileStream ω α × ω}
    (htransform : ∀ x w, Sound (transform x w).1) (st : PipeState (FileStream ω α) α) (w : ω)
    (h : PipeSound st) : PipeSound (pipeTurn next close transform st w).2.1 := by
  obtain ⟨upstream, current, dropped, calls⟩ := st
  obtain ⟨hupstream, hcurrent, hdropped, hclosed⟩ := h
  cases current with
  | none =>
      have hup := hnext upstream w hupstream
      rcases hn : next upstream w with ⟨_ | (err | _ | file), upstream', w'⟩ <;> rw [hn] at hup
      · simp only [pipeTurn, hn]
        exact ⟨hup, hcurrent, hdropped, hclosed⟩
      · rw [pipeTurn_upstream_error hn]
        exact ⟨hup, hcurrent, hdropped, hclosed⟩
      · rw [pipeTurn_over hn]
        exact ⟨hup, hcurrent, hdropped, hclosed⟩
      · -- the inner stream is new, and sound as `transform` made it
        rw [pipeTurn_open hn]
        refine ⟨hup, fun s hs => ?_, hdropped, hclosed⟩
        cases hs
        exact htransform file w'
  | some current =>
      have hcur := hnext current w (hcurrent current rfl)
      have hkeep (s : FileStream ω α) (hs : Sound s) : ∀ t ∈ some s, Sound t := by
        intro r hr
        cases hr
        exact hs
      rcases hn : next current w with ⟨_ | (err | _ | file), current', w'⟩ <;> rw [hn] at hcur
      · simp only [pipeTurn, hn]
        exact ⟨hupstream, hkeep current' hcur, hdropped, hclosed⟩
      · rw [pipeTurn_inner_error hn]
        exact ⟨hupstream, hkeep current' hcur, hdropped, hclosed⟩
      · -- the one place where an inner stream is dropped, closed right before
        rw [pipeTurn_drop hn]
        refine ⟨hupstream, by simp, fun s hs => ?_, fun s hs => ?_⟩
        · rcases List.mem_append.mp hs with hs | hs
          · exact hdropped s hs
          · rw [List.mem_singleton.mp hs]
            exact hcur.close w'
        · rcases List.mem_append.mp hs with hs | hs
          · exact hclosed s hs
          · rw [List.mem_singleton.mp hs]
            exact closed_close current' w'
      · rw [pipeTurn_deliver hn]
        exact ⟨hupstream, hkeep current' hcur, hdropped, hclosed⟩

theorem concatPull_sound (n : Nat) (st : ConcatState (FileStream ω α) α) (w : ω)
    (h : Sound st.upstream) : Sound (concatPull next n st w).2.1.upstream := by
  unfold concatPull
  by_cases hemitted : st.emitted = true
  · rw [if_pos hemitted]
    exact h
  · rw [if_neg hemitted]
    refine loop_preserves (fun l : ConcatLocals (FileStream ω α) α => Sound l.upstream) ?_ n h
    intro l w hl
    have hup := hnext l.upstream w hl
    unfold concatTurn
    rcases hn : next l.upstream w with ⟨_ | (err | _ | file), upstream, w'⟩ <;> rw [hn] at hup
    · exact hup
    · exact hup
    · exact hup
    · simp only
      cases st.buffer file with
      | error err => exact hup
      | ok text => exact hup

theorem pluginPull_sound (name : String) (inner : FileStream ω α) (w : ω) (h : Sound inner) :
    Sound (pluginPull next name inner w).2.1 := by
  have hinner := hnext inner w h
  unfold pluginPull
  rcases hn : next inner w with ⟨_ | (err | file), inner', w'⟩ <;> rw [hn] at hinner <;>
    exact hinner

/-- A pull of an open stream. -/
theorem Sound.pull (n : Nat) {s : FileStream ω α} (w : ω) (h : Sound s) (hopen : s.closed = false) :
    Sound (s.pull next n w).2.1 := by
  cases h with
  | @source pull onClose closed k =>
      cases hopen
      simpa [FileStream.pull, List.replicate_succ'] using
        @Sound.source ω α pull onClose false (k + 1)
  | @merge st latch streams hlatch =>
      obtain rfl := hlatch.open_eq hopen
      have hstreams := loop_preserves (fun st : MergeState _ => ∀ s ∈ st.streams, Sound s)
        (mergeTurn_sound hnext) n (w := w) streams
      exact .merge hstreams (.inl rfl)
  | @pipe st transform latch upstream current dropped hdropped htransform hlatch =>
      obtain rfl := hlatch.open_eq hopen
      obtain ⟨hup, hcur, hdrop, hclosed⟩ := loop_preserves PipeSound
        (pipeTurn_sound hnext htransform) n (w := w) ⟨upstream, current, dropped, hdropped⟩
      exact .pipe hup hcur hdrop hclosed htransform (.inl rfl)
  | plugin inner hlatch =>
      obtain rfl := hlatch.open_eq hopen
      exact .plugin (pluginPull_sound hnext _ _ w inner) (.inl rfl)
  | concat upstream hlatch =>
      obtain rfl := hlatch.open_eq hopen
      exact .concat (concatPull_sound hnext n _ w upstream) (.inl rfl)
  | through upstream hlatch =>
      obtain rfl := hlatch.open_eq hopen
      have hup := loop_preserves (fun st : ThroughState _ ω α => Sound st.upstream)
        (ThroughState.turn_upstream hnext fun _ w hs => hs.close w) n (w := w) upstream
      exact .through hup (.inl rfl)

end Turns

theorem Sound.next {s : FileStream ω α} (h : Sound s) (n : Nat) (w : ω) :
    Sound (s.next n w).2.1 := by
  induction n generalizing s w with
  | zero => exact h
  | succ n ih =>
      have hnext : ∀ s w, Sound s →
          Sound (FileStream.next n s w : Outcome _ (FileStream ω α) ω).2.1 := by
        intro s w hs
        exact ih hs w
      exact latched_preserves Sound h (fun hopen => Sound.pull hnext n w h hopen)
        fun s w hs => hs.close w

/-! ## Runs -/

theorem Sound.run {s : FileStream ω α} (h : Sound s) (n : Nat) (ops : List Op) (w : ω) :
    Sound ((machine ω α).run n ops s w).2.1 :=
  Machine.run_preserves Sound (fun _ w hs => hs.next n w) (fun _ w hs => hs.close w) ops h

/-- A close, or a call of `next` that answered the end or an error, leaves the
stream closed for the rest of the run. -/
theorem closed_of_run {n : Nat} {ops : List Op} {s : FileStream ω α} {w : ω}
    {replies : List (FileReply α)} (hrun : ((machine ω α).run n ops s w).1 = some replies)
    (hend : .close ∈ ops ∨ ∃ r ∈ replies, r.isEnd = true) :
    ((machine ω α).run n ops s w).2.1.closed = true := by
  refine Machine.run_latches (fun s : FileStream ω α => s.closed = true) ?_ closed_close
    closed_of_end hrun hend
  intro s w hs
  cases n with
  | zero => exact hs
  | succ n =>
      show (s.next (n + 1) w).2.1.closed = true
      rw [next_of_closed hs]
      exact hs

/-- After a close, the end or an error all close closures of the pipeline have run
exactly once. -/
theorem Sound.runs_of_run {n : Nat} {ops : List Op} {s t : FileStream ω α} {w : ω}
    {replies : List (FileReply α)} (h : Sound s)
    (hrun : ((machine ω α).run n ops s w).1 = some replies)
    (hend : .close ∈ ops ∨ ∃ r ∈ replies, r.isEnd = true)
    (ht : PartOf t ((machine ω α).run n ops s w).2.1) : t.closeRuns = 1 := by
  have hsound := h.run n ops w
  rw [(hsound.part ht).closeRuns_eq, hsound.part_closed (closed_of_run hrun hend) ht]
  rfl

/-- At the end of a run on `s`, the close closures of all streams of the
pipeline have run at most once, and no source was pulled after its own. If a
call was a close, or answered the end or an error, all have run exactly once,
and `next` answers `Ok(None)` and does nothing. -/
structure ClosesOnce (s : FileStream ω α) (n : Nat) (ops : List Op) (w : ω) : Prop where
  atMostOnce : ∀ t, PartOf t ((machine ω α).run n ops s w).2.1 →
    t.closeRuns ≤ 1 ∧ NoPullAfterClose t.history
  exactlyOnce : ∀ replies, ((machine ω α).run n ops s w).1 = some replies →
    (.close ∈ ops ∨ ∃ r ∈ replies, r.isEnd = true) →
    ∀ t, PartOf t ((machine ω α).run n ops s w).2.1 → t.closeRuns = 1
  silent : ∀ replies, ((machine ω α).run n ops s w).1 = some replies →
    (.close ∈ ops ∨ ∃ r ∈ replies, r.isEnd = true) →
    ∀ m w', ((machine ω α).run n ops s w).2.1.next (m + 1) w' =
      (some (.ok none), ((machine ω α).run n ops s w).2.1, w')

theorem built_closesOnce {s : FileStream ω α} (h : Built s) (n : Nat) (ops : List Op) (w : ω) :
    ClosesOnce s n ops w := by
  have hsound := h.sound.run n ops w
  constructor
  · intro t ht
    have hpart := hsound.part ht
    refine ⟨?_, hpart.noPullAfterClose⟩
    rw [hpart.closeRuns_eq]
    exact Bool.toNat_le _
  · intro replies hrun hend t ht
    exact h.sound.runs_of_run hrun hend ht
  · intro replies hrun hend m w'
    exact next_of_closed (closed_of_run hrun hend) m w'

/-- A merge piped through a transform, read to its second file and closed with
the inner stream half drained. -/
theorem merged_pipe_closesOnce :
    ClosesOnce ((mergeSources [fileStream [1, 2], errorStream (.streamError "x")]).piped
      fun x w => (fileStream [x, x, x], w)) 9 [.next, .next, .close] () :=
  built_closesOnce
    (.pipe
      (.merge (by
        intro s hs
        simp only [List.mem_cons, List.not_mem_nil, or_false] at hs
        rcases hs with rfl | rfl
        · exact .source _ _
        · exact .source _ _))
      fun x _ => .source _ _)
    9 [.next, .next, .close] ()

end Mulp.Stream.FileStream
