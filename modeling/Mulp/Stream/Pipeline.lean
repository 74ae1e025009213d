import Mulp.Stream.Kleisli

/-! What a pipeline does to the world, call by call.

The loops of the source have no bound, so they are given fuel, and whatever is said of
one is said for all fuel from some point on. -/
namespace Mulp.Stream.FileStream

open Mulp.Core Pull

variable {ω α : Type}

/-- An open stream made by `file_stream_from_pull` that has been pulled `k` times. -/
def pulled (pull : Nat → ω → FileReply α × ω) (k : Nat) : FileStream ω α :=
  .source pull id (List.replicate k .pull) false

section Source

variable {pull : Nat → ω → FileReply α × ω} {k : Nat} {w w' : ω} {r : FileReply α} {x : α}

theorem fromPull_eq (pull : Nat → ω → FileReply α × ω) : fromPull pull = pulled pull 0 := rfl

theorem next_pulled (pull : Nat → ω → FileReply α × ω) (k : Nat) (w : ω) :
    (pulled pull k).next 1 w =
      settled close (some (pull k w).1, pulled pull (k + 1), (pull k w).2) := by
  show settled close (FileStream.pull (next 0) 0 (pulled pull k) w) = _
  rw [pulled, FileStream.pull, List.count_replicate_self, ← List.replicate_succ']
  rfl

theorem next_pulled_item (h : pull k w = (.ok (some x), w')) :
    (pulled pull k).next 1 w = (some (.ok (some x)), pulled pull (k + 1), w') := by
  rw [next_pulled, h]
  rfl

theorem next_pulled_end (h : pull k w = (r, w')) (hr : r.isEnd = true) :
    ∃ s, (pulled pull k).next 1 w = (some r, s, w') ∧ ∀ w, s.close w = (s, w) := by
  refine ⟨((pulled pull (k + 1)).close w').1, ?_, close_of_closed (closed_close _ _)⟩
  rw [next_pulled, h, settled_end hr]
  rfl

theorem next_fileStream (x : α) (w : ω) :
    (fileStream [x]).next 1 w =
      (some (.ok (some x)), pulled (fun index w => (.ok [x][index]?, w)) 1, w) :=
  @next_pulled_item ω α (fun index w => (.ok [x][index]?, w)) 0 w w x rfl

theorem next_fileStream_over (x : α) (w : ω) :
    ∃ s : FileStream ω α, (pulled (fun index w => (.ok [x][index]?, w)) 1).next 1 w =
      (some (.ok none), s, w) ∧ ∀ w, s.close w = (s, w) :=
  next_pulled_end rfl rfl

end Source

/-! ## One file through a pipe -/

section Pipe

variable {transform : α → ω → FileStream ω α × ω} {upstream upstream' : FileStream ω α}
  {dropped : List (FileStream ω α)} {calls : List (PipeCall α)} {n k : Nat}
  {w w₁ w₂ w₃ : ω} {x y : α} {pull : Nat → ω → FileReply α × ω} {err : MulpError}

/-- The upstream has a file, whose stream has one. -/
theorem next_pipe_item (hup : upstream.next n w = (some (.ok (some x)), upstream', w₁))
    (htransform : transform x w₁ = (fromPull pull, w₂)) (hpull : pull 0 w₂ = (.ok (some y), w₃)) :
    ∃ calls', (pipe ⟨upstream, none, dropped, calls⟩ transform .unused).next (max n 3 + 2) w =
      (some (.ok (some y)),
        pipe ⟨upstream', some (pulled pull 1), dropped, calls'⟩ transform .unused, w₃) := by
  have hloop := pipe_looping transform
  have hturn : pipeTurn (next n) close transform ⟨upstream, none, dropped, calls⟩ w = _ :=
    pipeTurn_open hup
  rw [htransform, fromPull_eq] at hturn
  have hdeliver : ∀ calls, pipeTurn (next 1) close transform
      ⟨upstream', some (pulled pull 0), dropped, calls⟩ w₂ = _ :=
    fun _ => pipeTurn_deliver (next_pulled_item hpull)
  exact ⟨_, hloop.next_again_max hturn
    ((hloop.next_reply (hdeliver _)).trans (hloop.finish_item _ _ _))⟩

/-- The upstream has a file, whose stream fails. -/
theorem next_pipe_error (hup : upstream.next n w = (some (.ok (some x)), upstream', w₁))
    (htransform : transform x w₁ = (fromPull pull, w₂)) (hpull : pull 0 w₂ = (.error err, w₃)) :
    ∃ s w', (pipe ⟨upstream, none, dropped, calls⟩ transform .unused).next (max n 3 + 2) w =
      (some (.error err), s, w') := by
  have hloop := pipe_looping transform
  have hturn : pipeTurn (next n) close transform ⟨upstream, none, dropped, calls⟩ w = _ :=
    pipeTurn_open hup
  rw [htransform, fromPull_eq] at hturn
  obtain ⟨s, hs, -⟩ := next_pulled_end hpull rfl
  have hfail : ∀ calls, pipeTurn (next 1) close transform
      ⟨upstream', some (pulled pull 0), dropped, calls⟩ w₂ = _ :=
    fun _ => pipeTurn_inner_error hs
  exact ⟨_, _, hloop.next_again_max hturn (hloop.next_reply (hfail _))⟩

theorem next_pipe_done (hup : upstream.next n w = (some (.ok none), upstream', w₁))
    (hclose : ∀ w, upstream'.close w = (upstream', w)) :
    ∃ s, (machine ω α).next (n + 2) (pipe ⟨upstream, none, dropped, calls⟩ transform .unused) w =
      (some (.ok none), s, w₁) ∧ ∀ w, s.close w = (s, w) := by
  have hloop := pipe_looping transform
  have hover : pipeTurn (next n) close transform ⟨upstream, none, dropped, calls⟩ w = _ :=
    pipeTurn_over hup
  generalize calls ++ [.upstream (some (.ok none))] = calls' at hover
  have hworld : ((pipe ⟨upstream', none, dropped, calls'⟩ transform .unused).close w₁).2 = w₁ := by
    rw [close_pipe rfl]
    simp only [closeCurrent, hclose]
  exact ⟨((pipe ⟨upstream', none, dropped, calls'⟩ transform .unused).close w₁).1,
    (hloop.next_reply hover).trans (Prod.ext rfl (Prod.ext rfl hworld)),
    close_of_closed (closed_close _ _)⟩

/-- The stream of the last file is over, and so is the upstream. -/
theorem next_pipe_over (hpull : pull k w = (.ok none, w₁))
    (hup : upstream.next n w₁ = (some (.ok none), upstream', w₂))
    (hclose : ∀ w, upstream'.close w = (upstream', w)) :
    ∃ m s, (machine ω α).next m
        (pipe ⟨upstream, some (pulled pull k), dropped, calls⟩ transform .unused) w =
      (some (.ok none), s, w₂) ∧ ∀ w, s.close w = (s, w) := by
  have hloop := pipe_looping transform
  obtain ⟨s, hs, hsclose⟩ := next_pulled_end hpull rfl
  have hdrop : pipeTurn (next 1) close transform
      ⟨upstream, some (pulled pull k), dropped, calls⟩ w = _ := pipeTurn_drop hs
  rw [hsclose] at hdrop
  dsimp only at hdrop
  obtain ⟨s', hdone, hs'close⟩ := @next_pipe_done _ _ transform _ _ (dropped ++ [s])
    (calls ++ [.inner (some (.ok none))]) _ _ _ hup hclose
  obtain ⟨m, hm⟩ := hloop.next_again hdrop hdone
  exact ⟨m, s', hm, hs'close⟩

/-- The upstream has a file, whose stream is over at once, and so is the upstream
after it. -/
theorem next_pipe_empty {m : Nat} {upstream'' : FileStream ω α} {w₄ : ω}
    (hup : upstream.next n w = (some (.ok (some x)), upstream', w₁))
    (htransform : transform x w₁ = (fromPull pull, w₂)) (hpull : pull 0 w₂ = (.ok none, w₃))
    (hover : upstream'.next m w₃ = (some (.ok none), upstream'', w₄))
    (hclose : ∀ w, upstream''.close w = (upstream'', w)) :
    ∃ m s, (machine ω α).next m (pipe ⟨upstream, none, dropped, calls⟩ transform .unused) w =
      (some (.ok none), s, w₄) ∧ ∀ w, s.close w = (s, w) := by
  have hloop := pipe_looping transform
  have hturn : pipeTurn (next n) close transform ⟨upstream, none, dropped, calls⟩ w = _ :=
    pipeTurn_open hup
  rw [htransform, fromPull_eq] at hturn
  obtain ⟨k, s, hrest, hsclose⟩ :=
    @next_pipe_over _ _ transform _ _ dropped (calls ++ [.upstream (some (.ok (some x)))]) _ _ _ _ _ _ hpull hover hclose
  obtain ⟨m, hm⟩ := hloop.next_again hturn hrest
  exact ⟨m, s, hm, hsclose⟩

end Pipe

/-! ## `collect` -/

theorem next_eq {n m : Nat} {s s' : FileStream ω α} {w w' : ω} {r : FileReply α}
    (h : s.next n w = (some r, s', w')) (hle : n ≤ m) : s.next m w = (some r, s', w') := by
  rw [next_agrees hle s w r (by rw [h]), h]

section Collect

variable {isCancelled : ω → Bool} {n : Nat} {s s' : FileStream ω α} {files : List α} {w w' : ω}
  {x : α} {r : Except MulpError (List α)} {err : MulpError}

/-- The loop of `collect` with enough fuel. -/
def Collects (isCancelled : ω → Bool) (s : FileStream ω α) (files : List α) (w : ω)
    (r : Except MulpError (List α)) (w' : ω) : Prop :=
  ∃ n st, loop (collectTurn (next n) isCancelled) n (s, files) w = (some r, st, w')

theorem collectTurn_agrees {m : Nat} (hle : n ≤ m) :
    BodyAgrees (collectTurn (next n : FileStream ω α → ω → _) isCancelled)
      (collectTurn (next m) isCancelled) := by
  rintro ⟨s, files⟩ w hturn
  unfold collectTurn at hturn ⊢
  split_ifs with hc
  · rfl
  · rw [if_neg hc] at hturn
    rcases hn : next n s w with ⟨_ | r, s', w'⟩
    · simp only [hn] at hturn
      exact absurd rfl hturn
    · simp only [next_agrees hle s w r (by rw [hn]), hn]

theorem Collects.item (hlive : isCancelled w = false)
    (hn : s.next n w = (some (.ok (some x)), s', w'))
    (h : Collects isCancelled s' (files ++ [x]) w' r w₁) : Collects isCancelled s files w r w₁ := by
  obtain ⟨k, st, hk⟩ := h
  refine ⟨max n k + 1, st, ?_⟩
  have hnext := next_eq hn (by omega : n ≤ max n k + 1)
  have hturn : collectTurn (next (max n k + 1)) isCancelled (s, files) w =
      (.again, (s', files ++ [x]), w') := by
    rw [collectTurn, hlive, hnext]
    rfl
  have hagrees : BodyAgrees (collectTurn (next k : FileStream ω α → ω → _) isCancelled)
      (collectTurn (next (max n k + 1)) isCancelled) := collectTurn_agrees (by omega)
  rw [loop_again hturn, loop_agrees hagrees (Nat.le_max_right n k) _ _ r (by rw [hk]), hk]

theorem Collects.done (hlive : isCancelled w = false)
    (hn : s.next n w = (some (.ok none), s', w')) :
    Collects isCancelled s files w (.ok files) w' := by
  refine ⟨n + 1, (s', files), loop_reply ?_⟩
  have hnext := next_eq hn (Nat.le_succ n)
  rw [collectTurn, hlive, hnext]
  rfl

theorem Collects.error (hlive : isCancelled w = false)
    (hn : s.next n w = (some (.error err), s', w')) :
    ∃ w₁, Collects isCancelled s files w (.error err) w₁ := by
  refine ⟨(s'.close w').2, n + 1, ((s'.close w').1, files), loop_reply ?_⟩
  have hnext := next_eq hn (Nat.le_succ n)
  rw [collectTurn, hlive, hnext]
  rfl

theorem Collects.eq {m : Nat} {st : FileStream ω α × List α} {r' : Except MulpError (List α)}
    {w₂ : ω} (h : Collects isCancelled s files w r w₁)
    (hm : loop (collectTurn (next m) isCancelled) m (s, files) w = (some r', st, w₂)) :
    r' = r ∧ w₂ = w₁ := by
  obtain ⟨n, st', hn⟩ := h
  have hboth : ∀ k r st w₁, loop (collectTurn (next k) isCancelled) k (s, files) w =
      (some r, st, w₁) →
      k ≤ max n m →
      loop (collectTurn (next (max n m)) isCancelled) (max n m) (s, files) w =
      (some r, st, w₁) := by
    intro k r st w₁ hk hle
    rw [loop_agrees (collectTurn_agrees hle) hle _ w r (by rw [hk]), hk]
  have heq := (hboth m r' st w₂ hm (by omega)).symm.trans (hboth n r st' w₁ hn (by omega))
  cases heq
  exact ⟨rfl, rfl⟩

end Collect

end Mulp.Stream.FileStream
