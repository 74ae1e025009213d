import Mulp.Core.Outcome

/-! Whether a tree ends with `cancelled`.

Only `execute` and `async_series` make that error, where they find the token
cancelled. A group does not pass it on: with a child that ended so it returns
`ParallelFailed`. So what waits for a group that fails does not end with
`cancelled`, even if every look that is left finds the token cancelled; and a
task that cancels the token waits for such a group. -/
namespace Mulp.Core

/-- The error of a task that was not run. -/
def Completion.isCancelled : Completion → Bool
  | .returned (.error (.taskFailed _ cause)) => cause = "cancelled"
  | _ => false

mutual
/-- The tree ends with `cancelled` when it is run alone: its first leaf that fails says so of its
own, and is in no group. -/
def AsyncTask.endsCancelled : AsyncTask → Bool
  | .newAsyncTask _ _ run => run.completions.any Completion.isCancelled
  | .asyncSeries _ tasks => seriesEndsCancelled tasks
  | .asyncParallel _ _ => false
  | .asyncParallelSettle _ _ => false
  | .asyncTaskFrom _ _ source => source.endsCancelled

def seriesEndsCancelled : List AsyncTask → Bool
  | [] => false
  | t :: rest => if t.fails then t.endsCancelled else seriesEndsCancelled rest
end

/-- The execution, from here and left alone, ends with `cancelled`. -/
def Proc.endsCancelled : Proc → Bool
  | .pending t => t.endsCancelled
  | .body _ _ run => run.completions.any Completion.isCancelled
  | .seriesHead _ rest => seriesEndsCancelled rest
  | .series _ current rest =>
      if current.fails then current.endsCancelled else seriesEndsCancelled rest
  | .group _ _ _ _ _ => false
  | .source _ _ inner => inner.endsCancelled
  | .finished _ _ c => c.isCancelled

/-- The execution waits for a group that fails, or has ended as one that did. -/
def Proc.sunk : Proc → Bool
  | .series _ current _ => current.sunk
  | .group kind state name children errors => (Proc.group kind state name children errors).fails
  | .source _ _ inner => inner.sunk
  | .finished _ _ c => !c.isOk && !c.isCancelled
  | .pending _ => false
  | .body _ _ _ => false
  | .seriesHead _ _ => false

/-- What becomes of the token does not matter any more for how the execution ends. Either no look at
the token is left, or the execution waits for a group that fails, and is going to return the error
of that. Both stay, whatever steps are taken. -/
def Proc.Settled (p : Proc) : Prop := p.checkFree = true ∨ p.sunk = true

theorem AsyncTask.endsCancelled_enter (t : AsyncTask) : t.enter.endsCancelled = t.endsCancelled := by
  cases t <;> rfl

theorem isCancelled_groupResult (errors : List (String × String)) :
    (Completion.returned (groupResult errors)).isCancelled = false := by
  cases errors <;> rfl

theorem Proc.fails_of_sunk : (p : Proc) → p.sunk = true → p.fails = true
  | .series _ current _, h => by
      rw [Proc.fails, current.fails_of_sunk h, Bool.true_or]
  | .group _ _ _ _ _, h => h
  | .source _ _ inner, h => inner.fails_of_sunk h
  | .finished _ _ _, h => by
      rw [Proc.sunk, Bool.and_eq_true] at h
      exact h.1

theorem Proc.not_endsCancelled_of_sunk : (p : Proc) → p.sunk = true → p.endsCancelled = false
  | .series _ current _, h => by
      rw [Proc.endsCancelled, if_pos (current.fails_of_sunk h)]
      exact current.not_endsCancelled_of_sunk h
  | .group _ _ _ _ _, _ => rfl
  | .source _ _ inner, h => inner.not_endsCancelled_of_sunk h
  | .finished _ _ c, h => by
      rw [Proc.sunk, Bool.and_eq_true, Bool.not_eq_true', Bool.not_eq_true'] at h
      exact h.2

/-- A group that fails goes on to fail, and so does what waits for it. -/
theorem Step.sunk {ctx sh p sh' p'} (hstep : Step ctx sh p sh' p') (h : p.WF)
    (hsunk : p.sunk = true) : p'.sunk = true := by
  induction hstep with
  | refuse _ | enter _ _ | bodyCancel _ | bodyEnd _ | seriesEnd | seriesCancelled _
  | seriesNext _ => cases hsunk
  | seriesStep _ ih =>
      cases h with
      | series hcur _ => exact ih hcur hsunk
  | seriesOk => cases hsunk
  | seriesErr => exact hsunk
  | seriesRaise => exact hsunk
  | child hstep _ => exact (Step.child hstep).fails_mono h hsunk
  | groupEnd hall =>
      have hf := (@Step.groupEnd ctx sh _ _ _ _ _ hall).fails_mono h hsunk
      rw [Proc.sunk, isCancelled_groupResult]
      exact (Bool.and_true _).trans hf
  | sourceStep _ ih =>
      cases h with
      | source h => exact ih h hsunk
  | sourceEnd => exact hsunk

/-- What cancels a live token is a child that fails, so its group does. -/
theorem Step.sunk_of_cancel {ctx sh p sh' p'} (hstep : Step ctx sh p sh' p') (h : p.WF)
    (hlive : sh.cancelled = false) (hdead : sh'.cancelled = true) : p'.sunk = true := by
  induction hstep with
  | refuse hc => rw [hlive] at hc; cases hc
  | bodyCancel hc =>
      cases h with
      | body => cases hc
  | seriesStep _ ih =>
      cases h with
      | series hcur _ => exact ih hcur hdead
  | @child _ _ _ _ p p' pre post errors _ ih =>
      cases h with
      | group h _ =>
          have hf : p'.fails = true := by
            by_contra hf
            rw [Bool.not_eq_true] at hf
            rw [onChild_eq hf] at hdead
            rw [p'.fails_of_sunk (ih (h p (by simp)) hdead)] at hf
            cases hf
          show Proc.fails _ = true
          rw [Proc.fails, childFails_append, hf, Bool.true_or, Bool.or_true, Bool.or_true]
  | sourceStep _ ih =>
      cases h with
      | source h => exact ih h hdead
  | enter _ _ | seriesCancelled _ | seriesNext _ | seriesOk | seriesErr | seriesRaise =>
      rw [hlive] at hdead
      cases hdead
  | bodyEnd _ | seriesEnd | groupEnd _ | sourceEnd =>
      rw [finish_cancelled, hlive] at hdead
      cases hdead

/-- On a live token a step neither makes the execution end with `cancelled` nor keeps it from
that. -/
theorem Step.endsCancelled_of_live {ctx sh p sh' p'} (hstep : Step ctx sh p sh' p') (h : p.WF)
    (hlive : sh.cancelled = false) : p'.endsCancelled = p.endsCancelled := by
  induction hstep with
  | refuse hc => rw [hlive] at hc; cases hc
  | enter _ hp => rw [hp]; exact AsyncTask.endsCancelled_enter _
  | bodyCancel _ => rfl
  | bodyEnd hc =>
      cases h with
      | body =>
          rw [List.mem_singleton.mp hc]
          exact (Bool.or_false _).symm
  | seriesEnd => rfl
  | seriesCancelled hc => rw [hlive] at hc; cases hc
  | seriesNext _ => rfl
  | seriesStep hstep ih =>
      cases h with
      | series hcur _ =>
          rw [Proc.endsCancelled, Proc.endsCancelled, ih hcur, hstep.fails_eq hcur hlive]
  | seriesOk => rfl
  | seriesErr => rfl
  | seriesRaise => rfl
  | child _ _ => rfl
  | groupEnd _ => exact isCancelled_groupResult _
  | sourceStep _ ih =>
      cases h with
      | source h => exact ih h
  | sourceEnd => rfl

/-- Nor does one of an execution that does not look at the token, whatever has become of that. -/
theorem Step.endsCancelled_of_checkFree {ctx sh p sh' p'} (hstep : Step ctx sh p sh' p')
    (h : p.WF) (hfree : p.checkFree = true) : p'.endsCancelled = p.endsCancelled := by
  induction hstep with
  | refuse _ | enter _ _ | seriesCancelled _ | seriesNext _ => cases hfree
  | bodyCancel _ => rfl
  | bodyEnd hc =>
      cases h with
      | body =>
          rw [List.mem_singleton.mp hc]
          exact (Bool.or_false _).symm
  | seriesEnd => rfl
  | seriesStep hstep ih =>
      cases h with
      | series hcur _ =>
          rw [Proc.checkFree, Bool.and_eq_true] at hfree
          rw [Proc.endsCancelled, Proc.endsCancelled, ih hcur hfree.1,
            hstep.fails_eq_of_checkFree hcur hfree.1]
  | seriesOk => rfl
  | seriesErr => rfl
  | seriesRaise => rfl
  | child _ _ => rfl
  | groupEnd _ => exact isCancelled_groupResult _
  | sourceStep _ ih =>
      cases h with
      | source h => exact ih h hfree
  | sourceEnd => rfl

/-- As long as the token is live or it does not matter any more, a step changes nothing of the
outcome, and leaves it so. -/
theorem Step.outcome {ctx sh p sh' p'} (hstep : Step ctx sh p sh' p') (h : p.WF)
    (hsettled : sh.cancelled = false ∨ p.Settled) :
    p'.fails = p.fails ∧ p'.endsCancelled = p.endsCancelled ∧
      (sh'.cancelled = false ∨ p'.Settled) := by
  rcases hsettled with hlive | hfree | hsunk
  · refine ⟨hstep.fails_eq h hlive, hstep.endsCancelled_of_live h hlive, ?_⟩
    cases hdead : sh'.cancelled with
    | false => exact .inl rfl
    | true => exact .inr (.inr (hstep.sunk_of_cancel h hlive hdead))
  · exact ⟨hstep.fails_eq_of_checkFree h hfree, hstep.endsCancelled_of_checkFree h hfree,
      .inr (.inl (hstep.checkFree hfree))⟩
  · have hsunk' := hstep.sunk h hsunk
    refine ⟨?_, ?_, .inr (.inr hsunk')⟩
    · rw [p.fails_of_sunk hsunk, p'.fails_of_sunk hsunk']
    · rw [p.not_endsCancelled_of_sunk hsunk, p'.not_endsCancelled_of_sunk hsunk']

theorem Steps.outcome {ctx a b} (h : Steps ctx a b) (hwf : a.2.WF) (hlive : a.1.cancelled = false) :
    b.2.fails = a.2.fails ∧ b.2.endsCancelled = a.2.endsCancelled ∧
      (b.1.cancelled = false ∨ b.2.Settled) := by
  induction h with
  | refl => exact ⟨rfl, rfl, .inl hlive⟩
  | tail hrun hstep ih =>
      obtain ⟨hfails, hends, hsettled⟩ := hstep.outcome (Steps.wf hrun hwf) ih.2.2
      exact ⟨hfails.trans ih.1, hends.trans ih.2.1, hsettled⟩

end Mulp.Core
