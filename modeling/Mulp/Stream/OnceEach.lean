import Mulp.Stream.Pipeline

/-! Pipes that do one piece of work for each file, when the file is pulled.

A destination is such a pipe: its transform does its work in the call that opens the
inner stream, which then holds the one file. So a call of `next` of the pipe is one
piece of work, or none at the end. -/
namespace Mulp.Stream

open Mulp.Core Pull

/-- A pull closure that does its work once. Every earlier pull has emitted the
file. -/
def oncePull {ω α : Type} (work : ω → FileReply α × ω) (emitted : Nat) (w : ω) : FileReply α × ω :=
  if emitted ≠ 0 then (.ok none, w) else work w

namespace FileStream

variable {ω α : Type}

/-- The pull closure of `file_stream`. -/
def filesPull (files : List α) (index : Nat) (w : ω) : FileReply α × ω := (.ok files[index]?, w)

/-- A pipe over `files` with these left to pull. The stream of the last file, if it
is still there, has emitted it. -/
inductive Stage (files : List α) (transform : α → ω → FileStream ω α × ω) :
    List α → FileStream ω α → Prop
  | fresh {j dropped calls} : Stage files transform (files.drop j)
      (.pipe ⟨pulled (filesPull files) j, none, dropped, calls⟩ transform .unused)
  | between {j work dropped calls} : Stage files transform (files.drop j)
      (.pipe ⟨pulled (filesPull files) j, some (pulled (oncePull work) 1), dropped, calls⟩ transform
        .unused)

/-- The works of these files succeed, one after the other. -/
inductive Works (work : α → ω → FileReply α × ω) : List α → ω → List α → ω → Prop
  | nil {w} : Works work [] w [] w
  | cons {x y rest outs w w' w''} (hwork : work x w = (.ok (some y), w'))
      (hrest : Works work rest w' outs w'') : Works work (x :: rest) w (y :: outs) w''

/-- One of the works fails after the ones before it have succeeded. -/
inductive Fails (work : α → ω → FileReply α × ω) : List α → ω → Prop
  | here {x err rest w w'} (hwork : work x w = (.error err, w')) : Fails work (x :: rest) w
  | later {x y rest w w'} (hwork : work x w = (.ok (some y), w')) (hrest : Fails work rest w') :
      Fails work (x :: rest) w

theorem stage_start (files : List α) (transform : α → ω → FileStream ω α × ω) :
    Stage files transform files ((fileStream files).piped transform) :=
  @Stage.fresh ω α files transform 0 [] []

@[simp] theorem close_pulled (pull : Nat → ω → FileReply α × ω) (k : Nat) (w : ω) :
    ((pulled pull k).close w).2 = w := rfl

/-- Closing a pipe of sources without close callbacks changes no world. -/
theorem Stage.close_world {files : List α} {transform : α → ω → FileStream ω α × ω} {rest : List α}
    {s : FileStream ω α} (h : Stage files transform rest s) (w : ω) : (s.close w).2 = w := by
  cases h with
  | fresh => rw [close_pipe rfl]; rfl
  | between => rw [close_pipe rfl]; rfl

section Next

variable {files rest : List α} {transform : α → ω → FileStream ω α × ω}
  {work : α → ω → FileReply α × ω} {s : FileStream ω α} {x y : α} {w w' : ω} {err : MulpError}

/-- A call of `next` with enough fuel. -/
def Answers (s : FileStream ω α) (w : ω) (r : FileReply α) (s' : FileStream ω α) (w' : ω) : Prop :=
  ∀ m, 7 ≤ m → s.next m w = (some r, s', w')

theorem answers_of_next {k : Nat} {r : FileReply α} {s' : FileStream ω α} (hk : k ≤ 7)
    (h : s.next k w = (some r, s', w')) : s.Answers w r s' w' :=
  fun _ hm => next_eq h (Nat.le_trans hk hm)

theorem filesPull_drop {j : Nat} (h : files.drop j = x :: rest) (w : ω) :
    filesPull files j w = (.ok (some x), w) ∧ files.drop (j + 1) = rest := by
  have hget : files[j]? = some x := by
    rw [← List.head?_drop, h]
    rfl
  have hrest : files.drop (j + 1) = rest := by
    rw [← List.drop_drop, h]
    rfl
  exact ⟨by rw [filesPull, hget], hrest⟩

theorem filesPull_over {j : Nat} (h : files.drop j = []) (w : ω) :
    filesPull files j w = (.ok none, w) := by
  rw [filesPull, List.getElem?_eq_none (List.drop_eq_nil_iff.mp h)]

/-- The stream of a file that has been emitted is dropped first. -/
theorem next_between (j : Nat) (last : ω → FileReply α × ω) (dropped : List (FileStream ω α))
    (calls : List (PipeCall α)) (w : ω) : ∃ dropped' calls', ∀ (r : FileReply α) s' w',
      (pipe ⟨pulled (filesPull files) j, none, dropped', calls'⟩ transform .unused).next 5 w =
        (some r, s', w') →
      (pipe ⟨pulled (filesPull files) j, some (pulled (oncePull last) 1), dropped, calls⟩ transform
        .unused).next 7 w = (some r, s', w') := by
  have hloop := pipe_looping transform
  obtain ⟨drained, hdrained, hclose⟩ :=
    @next_pulled_end ω α (oncePull last) 1 w w (.ok none) rfl rfl
  have hdrop : pipeTurn (next 1) close transform
      ⟨pulled (filesPull files) j, some (pulled (oncePull last) 1), dropped, calls⟩ w = _ :=
    pipeTurn_drop hdrained
  rw [hclose] at hdrop
  refine ⟨dropped ++ [drained], calls ++ [.inner (some (.ok none))], fun r s' w' h => ?_⟩
  exact next_eq (hloop.next_again_max (m := 5) hdrop h) (by omega)

section Fresh

variable {j : Nat} {dropped : List (FileStream ω α)} {calls : List (PipeCall α)}

theorem next_fresh_over (hrest : files.drop j = []) :
    ∃ s', (pipe ⟨pulled (filesPull files) j, none, dropped, calls⟩ transform .unused).next 5 w =
      (some (.ok none), s', w) ∧ s'.closed = true := by
  have hloop := pipe_looping transform
  obtain ⟨drained, hdrained, hclose⟩ := @next_pulled_end ω α (filesPull files) j w w (.ok none)
    (filesPull_over hrest w) rfl
  have hturn : pipeTurn (next 1) close transform
      ⟨pulled (filesPull files) j, none, dropped, calls⟩ w = _ := pipeTurn_over hdrained
  have hworld : ∀ calls,
      ((pipe ⟨drained, none, dropped, calls⟩ transform .unused).close w).2 = w := by
    intro calls
    rw [close_pipe rfl]
    simp only [closeCurrent, hclose]
  have hnext := next_eq (hloop.next_reply hturn) (by omega : 1 + 2 ≤ 5)
  exact ⟨_, hnext.trans (Prod.ext rfl (Prod.ext rfl (hworld _))), rfl⟩

variable (htransform : ∀ x w, transform x w = (fromPull (oncePull (work x)), w))

include htransform

theorem next_fresh_item (hrest : files.drop j = x :: rest) (hwork : work x w = (.ok (some y), w')) :
    ∃ calls', (pipe ⟨pulled (filesPull files) j, none, dropped, calls⟩ transform .unused).next 5 w =
      (some (.ok (some y)), pipe ⟨pulled (filesPull files) (j + 1),
        some (pulled (oncePull (work x)) 1), dropped, calls'⟩ transform .unused, w') := by
  obtain ⟨calls', hnext⟩ := @next_pipe_item ω α transform _ _ dropped calls 1 w w w w' x y
    (oncePull (work x)) (next_pulled_item (filesPull_drop hrest w).1) (htransform x w) hwork
  exact ⟨calls', next_eq hnext (by omega)⟩

theorem next_fresh_error (hrest : files.drop j = x :: rest) (hwork : work x w = (.error err, w')) :
    ∃ s', (pipe ⟨pulled (filesPull files) j, none, dropped, calls⟩ transform .unused).next 5 w =
      (some (.error err), s', w') ∧ s'.closed = true := by
  have hloop := pipe_looping transform
  have hturn : pipeTurn (next 1) close transform
      ⟨pulled (filesPull files) j, none, dropped, calls⟩ w = _ :=
    pipeTurn_open (next_pulled_item (filesPull_drop hrest w).1)
  rw [htransform, fromPull_eq] at hturn
  obtain ⟨drained, hdrained, hclose⟩ :=
    @next_pulled_end ω α (oncePull (work x)) 0 w w' (.error err) hwork rfl
  have hfail : ∀ calls, pipeTurn (next 1) close transform
      ⟨pulled (filesPull files) (j + 1), some (pulled (oncePull (work x)) 0), dropped, calls⟩
      w = _ :=
    fun _ => pipeTurn_inner_error hdrained
  -- closing the pipe closes two sources that have no close callback
  have hworld : ∀ calls,
      ((pipe ⟨pulled (filesPull files) (j + 1), some drained, dropped, calls⟩ transform
      .unused).close w').2 = w' := by
    intro calls
    rw [close_pipe rfl]
    simp only [closeCurrent, hclose, close_pulled]
  have hnext := hloop.next_again_max hturn (hloop.next_reply (hfail _))
  exact ⟨_, hnext.trans (Prod.ext rfl (Prod.ext rfl (hworld _))), rfl⟩

end Fresh

/-- A call on a pipe, after the last file's stream has been dropped. -/
theorem Stage.fresh_first (h : Stage files transform rest s) (w : ω) : ∃ j dropped calls,
    rest = files.drop j ∧ ∀ (r : FileReply α) s' w',
      (pipe ⟨pulled (filesPull files) j, none, dropped, calls⟩ transform .unused).next 5 w =
        (some r, s', w') → s.Answers w r s' w' := by
  cases h with
  | @fresh j dropped calls =>
      exact ⟨j, dropped, calls, rfl, fun r s' w' h => answers_of_next (by omega) h⟩
  | @between j last dropped calls =>
      obtain ⟨dropped', calls', hbetween⟩ :=
        @next_between ω α files transform j last dropped calls w
      exact ⟨j, dropped', calls', rfl, fun r s' w' h => answers_of_next (by omega)
        (hbetween r s' w' h)⟩

/-- All files have been pulled. -/
theorem Stage.ended (h : Stage files transform [] s) (w : ω) :
    ∃ s', s.Answers w (.ok none) s' w ∧ s'.closed = true := by
  obtain ⟨j, dropped, calls, hrest, hnext⟩ := h.fresh_first w
  obtain ⟨s', hfresh, hclosed⟩ :=
    @next_fresh_over ω α files transform w j dropped calls hrest.symm
  exact ⟨s', hnext _ _ _ hfresh, hclosed⟩

variable (htransform : ∀ x w, transform x w = (fromPull (oncePull (work x)), w))

include htransform

/-- A file whose work succeeds is emitted. -/
theorem Stage.item (h : Stage files transform (x :: rest) s)
    (hwork : work x w = (.ok (some y), w')) :
    ∃ s', s.Answers w (.ok (some y)) s' w' ∧ Stage files transform rest s' := by
  obtain ⟨j, dropped, calls, hrest, hnext⟩ := h.fresh_first w
  obtain ⟨calls', hfresh⟩ := @next_fresh_item ω α files rest transform work x y w w' j dropped calls
    htransform hrest.symm hwork
  refine ⟨_, hnext _ _ _ hfresh, ?_⟩
  rw [← (filesPull_drop hrest.symm w).2]
  exact .between

/-- A file whose work fails ends the pipe. -/
theorem Stage.error (h : Stage files transform (x :: rest) s)
    (hwork : work x w = (.error err, w')) :
    ∃ s', s.Answers w (.error err) s' w' ∧ s'.closed = true := by
  obtain ⟨j, dropped, calls, hrest, hnext⟩ := h.fresh_first w
  obtain ⟨s', hfresh, hclosed⟩ :=
    @next_fresh_error ω α files rest transform work x w w' err j dropped
      calls htransform hrest.symm hwork
  exact ⟨s', hnext _ _ _ hfresh, hclosed⟩

/-- When all works succeed, `collect` gives all files. -/
theorem Stage.collects {outs : List α} (h : Stage files transform rest s)
    (hworks : Works work rest w outs w') (done : List α) :
    Collects (fun _ => false) s done w (.ok (done ++ outs)) w' := by
  induction hworks generalizing s done with
  | nil =>
      obtain ⟨s', hanswers, -⟩ := h.ended _
      rw [List.append_nil]
      exact .done rfl (hanswers 7 (Nat.le_refl 7))
  | @cons x y rest outs w w' w'' hwork _ ih =>
      obtain ⟨s', hanswers, hstage⟩ := h.item htransform hwork
      rw [List.append_cons]
      exact .item rfl (hanswers 7 (Nat.le_refl 7)) (ih hstage (done ++ [y]))

end Next

/-- A closed stream has ended. -/
theorem answers_of_closed {s : FileStream ω α} (h : s.closed = true) (w : ω) :
    s.Answers w (.ok none) s w := by
  intro m hm
  obtain ⟨k, rfl⟩ : ∃ k, m = k + 1 := ⟨m - 1, by omega⟩
  exact next_of_closed h k w

end FileStream

end Mulp.Stream
