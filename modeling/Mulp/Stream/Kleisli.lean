import Mathlib.Data.List.Forall2
import Mulp.Stream.FileStream

/-! `FileStream::pipe` as the composition of streams.

A stream that plays a script, piped through a transform whose streams play
scripts, plays the `bind` of the scripts; `merge_sources` plays their
concatenation. The laws of `pipe` are those of scripts. -/
namespace Mulp.Stream.FileStream

open Mulp.Core Pull

variable {ω α : Type}

/-- The stream says what the script says. -/
abbrev Plays (sc : Script MulpError α) (s : FileStream ω α) : Prop := (machine ω α).Plays sc s

abbrev SameReplies (s t : FileStream ω α) : Prop := (machine ω α).SameReplies s t

theorem Plays.sameReplies {sc : Script MulpError α} {s t : FileStream ω α} (hs : Plays sc s)
    (ht : Plays sc t) : SameReplies s t := Machine.Plays.sameReplies machine_latches hs ht

/-! ## Array streams -/

/-- An array stream that has delivered its first `index` files. -/
theorem source_plays (onClose : ω → ω) (files : List α) (history : List Callback) :
    Plays (.ofList (files.drop (history.count Callback.pull)))
      (.source (fun index w => (.ok files[index]?, w)) onClose history false : FileStream ω α) := by
  generalize hrest : files.drop (history.count Callback.pull) = rest
  induction rest generalizing history with
  | nil =>
      intro w
      have hnone : files[history.count Callback.pull]? = none := by
        rw [List.getElem?_eq_none_iff]
        exact List.drop_eq_nil_iff.mp hrest
      refine ⟨1, .source (fun index w => (.ok files[index]?, w)) onClose
        (history ++ [.pull, .close]) true, onClose w, ?_⟩
      show settled close (pull _ _ _ _) = _
      rw [pull, hnone]
      simp [settled]
  | cons x rest ih =>
      intro w
      have hget : files[history.count Callback.pull]? = some x := by
        rw [← List.head?_drop, hrest]
        rfl
      have hdrop : files.drop ((history ++ [Callback.pull]).count Callback.pull) = rest := by
        rw [List.count_append, List.count_singleton_self, ← List.drop_drop, hrest]
        rfl
      refine ⟨1, _, w, ?_, ih (history ++ [.pull]) hdrop⟩
      show settled close (pull _ _ _ _) = _
      rw [pull, hget]
      rfl

theorem errorStream_plays (err : MulpError) :
    Plays (.fail err) (errorStream err : FileStream ω α) := by
  intro w
  exact ⟨1, _, _, rfl⟩

theorem fileStream_plays (files : List α) :
    Plays (.ofList files) (fileStream files : FileStream ω α) :=
  source_plays id files []

/-! ## `pipe` -/

section Pipe

variable (transform : α → ω → FileStream ω α × ω)

theorem next_pipe (n : Nat) (st : PipeState (FileStream ω α) α) (w : ω) :
    (pipe st transform .unused).next (n + 1) w =
      settled close ((loop (pipeTurn (next n) close transform) n st w).map
        fun st => pipe st transform .unused) := rfl

theorem pipe_looping :
    (machine ω α).Looping (fun st => pipe st transform .unused)
      (fun n => pipeTurn (next n) close transform)
      (fun o => settled close (o.map fun st => pipe st transform .unused)) :=
  ⟨fun hle => pipeTurn_agrees (next_agrees hle), fun _ _ _ => rfl, fun _ => settled_fst _,
    fun _ _ _ => rfl⟩

variable {transform} {φ : α → Script MulpError α} {upstream current : FileStream ω α}
  {sc : Script MulpError α} {dropped : List (FileStream ω α)} {calls : List (PipeCall α)}

/-- With an inner stream at hand, its script comes first. -/
theorem pipe_current_plays (cs : Script MulpError α) (hcurrent : Plays cs current)
    (hrest : ∀ dropped calls,
      Plays (sc.bind φ) (.pipe ⟨upstream, none, dropped, calls⟩ transform .unused)) :
    Plays (cs.append (sc.bind φ))
      (.pipe ⟨upstream, some current, dropped, calls⟩ transform .unused) := by
  have hloop := pipe_looping transform
  -- on what the inner stream has left to say; the upstream stays as it is
  induction cs generalizing current dropped calls with
  | done =>
      apply hloop.plays_again
      intro w
      obtain ⟨n, s', w', hn⟩ := hcurrent w
      exact ⟨n, _, _, pipeTurn_drop hn, hrest _ _⟩
  | fail e =>
      apply hloop.plays_fail
      intro w
      obtain ⟨n, s', w', hn⟩ := hcurrent w
      exact ⟨n, _, _, pipeTurn_inner_error hn⟩
  | item y rest ih =>
      apply hloop.plays_item
      intro w
      obtain ⟨n, s', w', hn, hplays⟩ := hcurrent w
      exact ⟨n, _, _, pipeTurn_deliver hn, ih hplays⟩

theorem pipe_plays (hs : Plays sc upstream) (hf : ∀ x w, Plays (φ x) (transform x w).1) :
    Plays (sc.bind φ) (.pipe ⟨upstream, none, dropped, calls⟩ transform .unused) := by
  have hloop := pipe_looping transform
  -- on the script of the upstream: an item opens an inner stream, which is read out first
  induction sc generalizing upstream dropped calls with
  | done =>
      apply hloop.plays_done
      intro w
      obtain ⟨n, s', w', hn⟩ := hs w
      exact ⟨n, _, _, pipeTurn_over hn⟩
  | fail e =>
      apply hloop.plays_fail
      intro w
      obtain ⟨n, s', w', hn⟩ := hs w
      exact ⟨n, _, _, pipeTurn_upstream_error hn⟩
  | item x rest ih =>
      apply hloop.plays_again
      intro w
      obtain ⟨n, s', w', hn, hplays⟩ := hs w
      exact ⟨n, _, _, pipeTurn_open hn, pipe_current_plays (φ x) (hf x w') fun _ _ => ih hplays⟩

end Pipe

/-! ## `merge_sources` -/

theorem merge_looping :
    (machine ω α).Looping (fun st => merge st .unused) (fun n => mergeTurn (next n))
      (fun o => settled close (o.map fun st => merge st .unused)) :=
  ⟨fun hle => mergeTurn_agrees (next_agrees hle), fun _ _ _ => rfl, fun _ => settled_fst _,
    fun _ _ _ => rfl⟩

/-- A merge that has come to the stream after `before`. -/
theorem merge_current_plays {ss : List (Script MulpError α)}
    {before rest : List (FileStream ω α)} {sc : Script MulpError α} {current : FileStream ω α}
    (hcurrent : Plays sc current)
    (hrest : ∀ s, Plays (.concat ss) (.merge ⟨before ++ s :: rest, before.length + 1⟩ .unused)) :
    Plays (sc.append (.concat ss)) (.merge ⟨before ++ current :: rest, before.length⟩ .unused) := by
  have hloop := merge_looping (ω := ω) (α := α)
  have hget (s : FileStream ω α) : (before ++ s :: rest)[before.length]? = some s := by simp
  have hset (s s' : FileStream ω α) :
      (before ++ s :: rest).set before.length s' = before ++ s' :: rest := by simp
  -- on the script of the current stream, which alone is replaced
  induction sc generalizing current with
  | done =>
      apply hloop.plays_again
      intro w
      obtain ⟨n, s', w', hn⟩ := hcurrent w
      refine ⟨n, _, _, mergeTurn_skip (hget current) hn, ?_⟩
      rw [hset]
      exact hrest s'
  | fail e =>
      apply hloop.plays_fail
      intro w
      obtain ⟨n, s', w', hn⟩ := hcurrent w
      exact ⟨n, _, _, mergeTurn_error (hget current) hn⟩
  | item y sc ih =>
      apply hloop.plays_item
      intro w
      obtain ⟨n, s', w', hn, hplays⟩ := hcurrent w
      refine ⟨n, _, _, mergeTurn_deliver (hget current) hn, ?_⟩
      rw [hset]
      exact ih hplays

theorem merge_plays {ss : List (Script MulpError α)} {before streams : List (FileStream ω α)}
    (h : List.Forall₂ Plays ss streams) :
    Plays (.concat ss) (.merge ⟨before ++ streams, before.length⟩ .unused) := by
  induction h generalizing before with
  | nil =>
      apply (merge_looping (ω := ω) (α := α)).plays_done
      intro w
      exact ⟨0, _, _, mergeTurn_over (by simp)⟩
  | cons hs hrest ih =>
      apply merge_current_plays hs
      intro s
      have hnext := @ih (before ++ [s])
      simpa using hnext

theorem mergeSources_plays {ss : List (Script MulpError α)} {streams : List (FileStream ω α)}
    (h : List.Forall₂ Plays ss streams) : Plays (.concat ss) (mergeSources streams) :=
  @merge_plays ω α ss [] streams h

/-! ## `collect` -/

theorem collect_plays {isCancelled : ω → Bool} (hlive : ∀ w, isCancelled w = false)
    {sc : Script MulpError α} {s : FileStream ω α} (hs : Plays sc s) (w : ω) :
    ∃ n₀, ∀ n, n₀ ≤ n → (s.collect isCancelled n w).1 = some sc.result := by
  -- the loop, with the files collected so far
  suffices hloop : ∀ files, ∃ n₀, ∀ n m, n₀ ≤ n → n₀ ≤ m →
      (loop (collectTurn (next n) isCancelled) m (s, files) w).1 =
        some (sc.result.map (files ++ ·)) by
    obtain ⟨n₀, hn₀⟩ := hloop []
    refine ⟨n₀, fun n hn => ?_⟩
    show (loop _ n (s, []) w).1 = _
    rw [hn₀ n n hn hn]
    cases sc.result <;> rfl
  induction sc generalizing s w with
  | done =>
      intro files
      obtain ⟨k, s', w', hk⟩ := hs w
      refine ⟨k + 1, fun n m hn hm => ?_⟩
      obtain ⟨m, rfl⟩ : ∃ j, m = j + 1 := ⟨m - 1, by omega⟩
      have hnext : s.next n w = _ := Machine.next_eq hk (by omega)
      rw [loop, collectTurn, hlive w, hnext]
      simp [Script.result, Script.ending, Script.items, Except.map]
  | fail e =>
      intro files
      obtain ⟨k, s', w', hk⟩ := hs w
      refine ⟨k + 1, fun n m hn hm => ?_⟩
      obtain ⟨m, rfl⟩ : ∃ j, m = j + 1 := ⟨m - 1, by omega⟩
      have hnext : s.next n w = _ := Machine.next_eq hk (by omega)
      rw [loop, collectTurn, hlive w, hnext]
      rfl
  | item x rest ih =>
      intro files
      obtain ⟨k, s', w', hk, hplays⟩ := hs w
      obtain ⟨n₁, hn₁⟩ := ih hplays w' (files ++ [x])
      refine ⟨max k n₁ + 1, fun n m hn hm => ?_⟩
      obtain ⟨m, rfl⟩ : ∃ j, m = j + 1 := ⟨m - 1, by omega⟩
      have hnext : s.next n w = _ := Machine.next_eq hk (by omega)
      have hturn : collectTurn (next n) isCancelled (s, files) w =
          (.again, (s', files ++ [x]), w') := by
        rw [collectTurn, hlive w, hnext]
        rfl
      rw [loop_again hturn, hn₁ n m (by omega) (by omega), Script.result_item]
      cases rest.result with
      | error e => rfl
      | ok xs => simp [Except.map]

/-! ## The order of a pipe's calls -/

/-- No call yet, or the last one was answered by the end of the inner stream. This is when a pipe
may pull its upstream. -/
def Drained (calls : List (PipeCall α)) : Prop :=
  calls = [] ∨ ∃ before, calls = before ++ [.inner (some (.ok none))]

/-- Every pull of the upstream is the first call of the pipe or comes right after its inner stream
was exhausted. It is a property of the log of calls, and so of everything that a pipe has done and
not of its state. -/
def PullsInOrder (calls : List (PipeCall α)) : Prop :=
  ∀ before r after, calls = before ++ .upstream r :: after → Drained before

/-- The calls a pipe has made. -/
def pipeCalls : FileStream ω α → List (PipeCall α)
  | .pipe st _ _ => st.calls
  | _ => []

theorem PullsInOrder.nil : PullsInOrder ([] : List (PipeCall α)) := by
  intro before r after h
  cases before <;> cases h

theorem PullsInOrder.inner {calls : List (PipeCall α)} (h : PullsInOrder calls)
    (r : Option (FileReply α)) : PullsInOrder (calls ++ [.inner r]) := by
  intro before r' after heq
  rcases List.eq_nil_or_concat after with rfl | ⟨after, last, rfl⟩
  · have hlast := (List.append_inj' heq rfl).2
    cases hlast
  · rw [List.concat_eq_append, ← List.cons_append, ← List.append_assoc] at heq
    exact h before r' after (List.append_inj' heq rfl).1

theorem PullsInOrder.upstream {calls : List (PipeCall α)} (h : PullsInOrder calls)
    (hdrained : Drained calls) (r : Option (FileReply α)) :
    PullsInOrder (calls ++ [.upstream r]) := by
  intro before r' after heq
  rcases List.eq_nil_or_concat after with rfl | ⟨after, last, rfl⟩
  · rw [← (List.append_inj' heq rfl).1]
    exact hdrained
  · rw [List.concat_eq_append, ← List.cons_append, ← List.append_assoc] at heq
    exact h before r' after (List.append_inj' heq rfl).1

/-- What a turn of a pipe keeps: without an inner stream, the last one is exhausted. The next call
is then one of the upstream, and this is what makes it come in order. -/
def OrderInv (st : PipeState (FileStream ω α) α) : Prop :=
  PullsInOrder st.calls ∧ (st.current = none → Drained st.calls)

theorem pipeTurn_order {n : Nat} {transform : α → ω → FileStream ω α × ω}
    (st : PipeState (FileStream ω α) α) (w : ω) (h : OrderInv st) :
    Meets (fun st _ => OrderInv st)
      (fun o st _ => PullsInOrder st.calls ∧ (∀ r, o = some r → r.isEnd = false → OrderInv st))
      (pipeTurn (next n) close transform st w) := by
  obtain ⟨upstream, current, dropped, calls⟩ := st
  obtain ⟨horder, hdrained⟩ := h
  cases current with
  | none =>
      -- the upstream is called only when the last inner stream is drained
      have hcalls := horder.upstream (hdrained rfl)
      rcases hn : next n upstream w with ⟨_ | (err | _ | file), upstream', w'⟩
      · simp only [pipeTurn, hn]
        exact ⟨hcalls _, fun r hr => by cases hr⟩
      · rw [pipeTurn_upstream_error hn]
        exact ⟨hcalls _, fun r hr hend => by cases hr; cases hend⟩
      · rw [pipeTurn_over hn]
        exact ⟨hcalls _, fun r hr hend => by cases hr; cases hend⟩
      · rw [pipeTurn_open hn]
        exact ⟨hcalls _, fun hnone => by cases hnone⟩
  | some current =>
      have hcalls := horder.inner
      rcases hn : next n current w with ⟨_ | (err | _ | file), current', w'⟩
      · simp only [pipeTurn, hn]
        exact ⟨hcalls _, fun r hr => by cases hr⟩
      · rw [pipeTurn_inner_error hn]
        exact ⟨hcalls _, fun r hr hend => by cases hr; cases hend⟩
      · rw [pipeTurn_drop hn]
        exact ⟨hcalls _, fun _ => .inr ⟨calls, rfl⟩⟩
      · rw [pipeTurn_deliver hn]
        exact ⟨hcalls _, fun r _ _ => ⟨hcalls _, fun hnone => by cases hnone⟩⟩

/-- The invariant of a pipe between two calls. A pipe that has been closed pulls nothing any more,
so of its fields nothing has to be known. -/
def PipeOrder (transform : α → ω → FileStream ω α × ω) (s : FileStream ω α) : Prop :=
  ∃ st latch, s = .pipe st transform latch ∧ PullsInOrder st.calls ∧
    (latch = .unused ∧ OrderInv st ∨ s.closed = true)

theorem PipeOrder.close {transform : α → ω → FileStream ω α × ω} {s : FileStream ω α}
    (h : PipeOrder transform s) (w : ω) : PipeOrder transform (s.close w).1 := by
  obtain ⟨st, latch, rfl, horder, ⟨rfl, -⟩ | hclosed⟩ := h
  · rw [close_pipe rfl]
    exact ⟨_, _, rfl, horder, .inr rfl⟩
  · rw [close_of_closed hclosed]
    exact ⟨st, latch, rfl, horder, .inr hclosed⟩

theorem PipeOrder.next {transform : α → ω → FileStream ω α × ω} {s : FileStream ω α}
    (h : PipeOrder transform s) (n : Nat) (w : ω) :
    ((s.next n w).1.isSome → PipeOrder transform (s.next n w).2.1) ∧
      PullsInOrder (s.next n w).2.1.pipeCalls := by
  obtain ⟨st, latch, rfl, horder, hinv⟩ := h
  cases n with
  | zero => exact ⟨fun hsome => absurd hsome (by simp [FileStream.next]), horder⟩
  | succ n =>
      rcases hinv with ⟨rfl, hinv⟩ | hclosed
      · have hpost := loop_rule (fun st _ hst => ⟨hst.1, fun r hr => by cases hr⟩)
          (@pipeTurn_order ω α n transform) n (w := w) hinv
        rw [next_pipe]
        rcases hloop : loop _ n st w with ⟨_ | r, st', w'⟩
        · rw [hloop] at hpost
          exact ⟨fun hsome => absurd hsome (by simp [settled, Outcome.map]), hpost.1⟩
        · rw [hloop] at hpost
          by_cases hend : r.isEnd = true
          · -- the pipe is closed, without a call more
            rw [Outcome.map, settled_end hend, close_pipe rfl]
            exact ⟨fun _ => ⟨_, _, rfl, hpost.1, .inr rfl⟩, hpost.1⟩
          · have hend : r.isEnd = false := Bool.eq_false_iff.mpr hend
            rw [settled_of_not_end (by rintro _ ⟨⟩; exact hend)]
            exact ⟨fun _ => ⟨st', _, rfl, hpost.1, .inl ⟨rfl, hpost.2 r rfl hend⟩⟩, hpost.1⟩
      · rw [next_of_closed hclosed]
        exact ⟨fun _ => ⟨st, latch, rfl, horder, .inr hclosed⟩, horder⟩

theorem piped_pullsInOrder (s : FileStream ω α) (transform : α → ω → FileStream ω α × ω) (n : Nat)
    (ops : List Op) (w : ω) :
    PullsInOrder ((machine ω α).run n ops (s.piped transform) w).2.1.pipeCalls := by
  have hinit : PipeOrder transform (s.piped transform) :=
    ⟨_, _, rfl, .nil, .inl ⟨rfl, .nil, fun _ => .inl rfl⟩⟩
  have hQ (s : FileStream ω α) (hs : PipeOrder transform s) : PullsInOrder s.pipeCalls := by
    obtain ⟨st, latch, rfl, horder, -⟩ := hs
    exact horder
  exact (Machine.run_rule (fun s w hs => hs.next n w) (fun s w hs => hs.close w)
    (fun s _ hs => hQ s hs) ops hinit).2

/-! ## The laws -/

/-- `FileStream::pipe` is the composition of the scripts `φ` and `ψ` of two
transforms `f` and `g`, on an upstream `s` that plays `sc`. -/
structure KleisliLaws (s : FileStream ω α) (sc : Script MulpError α)
    (f g : α → ω → FileStream ω α × ω) (φ : α → Script MulpError α) : Prop where
  /-- The files of the inner scripts in order, up to the first error. -/
  collects : ∀ isCancelled : ω → Bool, (∀ w, isCancelled w = false) → ∀ w, ∃ n₀, ∀ n, n₀ ≤ n →
    ((s.piped f).collect isCancelled n w).1 = some (do
      let yss ← sc.items.mapM fun x => (φ x).result
      sc.ending
      return yss.flatten)
  pullsInOrder : ∀ n ops w, PullsInOrder ((machine ω α).run n ops (s.piped f) w).2.1.pipeCalls
  assoc : SameReplies ((s.piped f).piped g)
    (s.piped fun x w => ((f x w).1.piped g, (f x w).2))
  leftUnit : ∀ x w, SameReplies ((fileStream [x]).piped f) (f x w).1
  rightUnit : SameReplies (s.piped fun x w => (fileStream [x], w)) s

/-- Streams that play scripts compose by `pipe` as the scripts do, and
`merge_sources` plays the concatenation of its streams' scripts. -/
theorem pipe_kleisli {s : FileStream ω α} {sc : Script MulpError α}
    {f g : α → ω → FileStream ω α × ω} {φ ψ : α → Script MulpError α}
    {streams : List (FileStream ω α)} {scripts : List (Script MulpError α)} (hs : Plays sc s)
    (hf : ∀ x w, Plays (φ x) (f x w).1) (hg : ∀ x w, Plays (ψ x) (g x w).1)
    (hstreams : List.Forall₂ Plays scripts streams) :
    KleisliLaws s sc f g φ ∧
      ∀ k w, ∃ n₀, ∀ n, n₀ ≤ n →
        ((machine ω α).run n (List.replicate k .next) (mergeSources streams) w).1 =
          some ((Script.concat scripts).replies k) := by
  have hpiped : Plays (sc.bind φ) (s.piped f) := pipe_plays hs hf
  constructor
  · constructor
    · intro isCancelled hlive w
      rw [← Script.result_bind]
      exact collect_plays hlive hpiped w
    · exact piped_pullsInOrder s f
    -- both pipelines play scripts that the monad laws make the same
    · have hleft : Plays ((sc.bind φ).bind ψ) ((s.piped f).piped g) := pipe_plays hpiped hg
      rw [Script.bind_assoc] at hleft
      exact hleft.sameReplies (pipe_plays hs fun x w => pipe_plays (hf x w) hg)
    · intro x w
      have hsingle : Plays ((Script.pure x).bind φ) ((fileStream [x]).piped f) :=
        pipe_plays (fileStream_plays [x]) hf
      rw [Script.pure_bind] at hsingle
      exact hsingle.sameReplies (hf x w)
    · have hunit : Plays (sc.bind Script.pure) (s.piped fun x w => (fileStream [x], w)) :=
        pipe_plays hs fun x _ => fileStream_plays [x]
      rw [Script.bind_pure] at hunit
      exact hunit.sameReplies hs
  · intro k w
    exact Machine.Plays.replies machine_latches k (mergeSources_plays hstreams) w

/-- Doubling the files of an array stream, and a merge with an error in its
middle. -/
theorem doubled_kleisli :
    KleisliLaws (fileStream [1, 2] : FileStream Unit Nat) (.ofList [1, 2])
        (fun x w => (fileStream [x, x], w)) (fun x w => (fileStream [x], w))
        (fun x => .ofList [x, x]) ∧
      ∀ k w, ∃ n₀, ∀ n, n₀ ≤ n →
        ((machine Unit Nat).run n (List.replicate k .next)
          (mergeSources [fileStream [1], errorStream (.streamError "x"), fileStream [2]]) w).1 =
          some ((Script.concat [.ofList [1], .fail (.streamError "x"), .ofList [2]]).replies k) :=
  pipe_kleisli (fileStream_plays [1, 2]) (fun x _ => fileStream_plays [x, x])
    (fun x _ => fileStream_plays [x])
    (.cons (fileStream_plays [1])
      (.cons (errorStream_plays _) (.cons (fileStream_plays [2]) .nil)))

end Mulp.Stream.FileStream
