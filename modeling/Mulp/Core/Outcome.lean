import Mulp.Core.GroupReport

/-! How a tree ends whose leaves have a fixed outcome, and neither raise nor
touch the token.

It fails if one of its leaves does. A failure on its way stays one over every
step, but a tree with none may come to fail, where it finds the token cancelled:
so what is said of it holds while the token is live, or while no look at the
token is left. -/
namespace Mulp.Core

/-! ## Trees with fixed outcomes -/

/-- Every leaf of the tree returns one result, without cancelling. -/
inductive AsyncTask.Plain : AsyncTask → Prop where
  | leaf (state : Nat) (name : String) (r : TaskResult) :
      Plain (.newAsyncTask state name ⟨[.returned r], false⟩)
  | series {state : Nat} {tasks : List AsyncTask} (h : ∀ t ∈ tasks, Plain t) :
      Plain (.asyncSeries state tasks)
  | parallel {state : Nat} {tasks : List AsyncTask} (h : ∀ t ∈ tasks, Plain t) :
      Plain (.asyncParallel state tasks)
  | settle {state : Nat} {tasks : List AsyncTask} (h : ∀ t ∈ tasks, Plain t) :
      Plain (.asyncParallelSettle state tasks)
  | taskFrom {state : Nat} {name : String} {source : AsyncTask} (h : Plain source) :
      Plain (.asyncTaskFrom state name source)

mutual
/-- Some leaf of the tree fails. In which order the leaves are run does not matter, nor that those
behind a failing one are not run at all. -/
def AsyncTask.fails : AsyncTask → Bool
  | .newAsyncTask _ _ run => run.completions.any fun c => !c.isOk
  | .asyncSeries _ tasks => anyFails tasks
  | .asyncParallel _ tasks => anyFails tasks
  | .asyncParallelSettle _ tasks => anyFails tasks
  | .asyncTaskFrom _ _ source => source.fails

def anyFails : List AsyncTask → Bool
  | [] => false
  | t :: rest => t.fails || anyFails rest
end

/-! ## The same along a run -/

/-- A point of the execution of a plain tree: the leaves are plain, nothing has
raised, and a group has an error as soon as a child ended with one. -/
inductive Proc.WF : Proc → Prop where
  | pending {t : AsyncTask} (h : t.Plain) : WF (.pending t)
  | body (state : Nat) (name : String) (r : TaskResult) :
      WF (.body state name ⟨[.returned r], false⟩)
  | seriesHead {state : Nat} {rest : List AsyncTask} (h : ∀ t ∈ rest, t.Plain) :
      WF (.seriesHead state rest)
  | series {state : Nat} {current : Proc} {rest : List AsyncTask} (hcur : WF current)
      (h : ∀ t ∈ rest, t.Plain) : WF (.series state current rest)
  | group {kind : GroupKind} {state : Nat} {name : String} {children : List Proc}
      {errors : List (String × String)} (h : ∀ p ∈ children, WF p)
      (hrec : ∀ p ∈ children, p.errorEntry ≠ none → errors ≠ []) :
      WF (.group kind state name children errors)
  | source {state : Nat} {name : String} {inner : Proc} (h : WF inner) :
      WF (.source state name inner)
  | finished (name : String) (entered : Bool) (r : TaskResult) :
      WF (.finished name entered (.returned r))

mutual
/-- The execution, from here, ends with an `Err`: a leaf ahead fails, or an
error is on its way. -/
def Proc.fails : Proc → Bool
  | .pending t => t.fails
  | .body _ _ run => run.completions.any fun c => !c.isOk
  | .seriesHead _ rest => anyFails rest
  | .series _ current rest => current.fails || anyFails rest
  | .group _ _ _ children errors => !errors.isEmpty || childFails children
  | .source _ _ inner => inner.fails
  | .finished _ _ c => !c.isOk

def childFails : List Proc → Bool
  | [] => false
  | p :: rest => p.fails || childFails rest
end

/-- What has ended with an error leaves its entry. -/
theorem Proc.WF.errorEntry_ne_none {p : Proc} (h : p.WF) (hfinished : p.isFinished = true)
    (hf : p.fails = true) : p.errorEntry ≠ none := by
  cases h with
  | finished name entered r =>
      cases r with
      | ok u => simp [Proc.fails, Completion.isOk] at hf
      | error err => simp
  | pending _ | body _ _ _ | seriesHead _ | series _ _ | group _ _ | source _ =>
      simp [Proc.isFinished] at hfinished

theorem childFails_iff (ps : List Proc) : childFails ps = true ↔ ∃ p ∈ ps, p.fails = true := by
  induction ps with
  | nil => simp [childFails]
  | cons p rest ih => simp [childFails, ih]

theorem childFails_pending (ts : List AsyncTask) :
    childFails (ts.map .pending) = anyFails ts := by
  induction ts with
  | nil => rfl
  | cons t rest ih => simp [childFails, anyFails, Proc.fails, ih]

theorem AsyncTask.fails_enter (t : AsyncTask) : t.enter.fails = t.fails := by
  cases t <;>
    simp [AsyncTask.enter, AsyncTask.fails, Proc.fails, spawnAll, childFails_pending]

theorem wf_spawnAll {kind state name tasks} (h : ∀ t ∈ tasks, AsyncTask.Plain t) :
    (spawnAll kind state name tasks).WF := by
  refine .group ?_ ?_
  · intro p hp
    obtain ⟨t, ht, rfl⟩ := List.mem_map.mp hp
    exact .pending (h t ht)
  · intro p hp hentry
    obtain ⟨t, ht, rfl⟩ := List.mem_map.mp hp
    exact absurd rfl hentry

theorem AsyncTask.Plain.wf_enter {t : AsyncTask} (h : t.Plain) : t.enter.WF := by
  cases h with
  | leaf state name r => exact .body state name r
  | series h => exact .seriesHead h
  | parallel h => exact wf_spawnAll h
  | settle h => exact wf_spawnAll h
  | taskFrom h => exact .source (.pending h)

theorem Step.wf {ctx sh p sh' p'} (hstep : Step ctx sh p sh' p') (h : p.WF) : p'.WF := by
  induction hstep with
  | refuse _ => exact .finished _ _ _
  | enter _ hp =>
      cases h with
      | pending h => rw [hp]; exact h.wf_enter
  | bodyCancel _ => exact h
  | bodyEnd hc =>
      cases h with
      | body =>
          rw [List.mem_singleton.mp hc]
          exact .finished _ _ _
  | seriesEnd => exact .finished _ _ _
  | seriesCancelled _ => exact .finished _ _ _
  | seriesNext _ =>
      cases h with
      | seriesHead h =>
          exact .series (.pending (h _ List.mem_cons_self))
            fun t ht => h t (List.mem_cons_of_mem _ ht)
  | seriesStep _ ih =>
      cases h with
      | series hcur h => exact .series (ih hcur) h
  | seriesOk =>
      cases h with
      | series _ h => exact .seriesHead h
  | seriesErr => exact .finished _ _ _
  | seriesRaise =>
      cases h with
      | series hcur _ => cases hcur
  | @child _ _ _ _ p p' pre post errors _ ih =>
      cases h with
      | group h hrec =>
          -- an error entry of the child is in the list from now on
          refine .group (forall_mem_replace h (ih (h _ (by simp)))) ?_
          rw [onChild_errors]
          have hold : ∀ q ∈ pre ++ p :: post, q.errorEntry ≠ none →
              errors ++ p'.errorEntry.toList ≠ [] := by
            intro q hq hentry
            have hne := hrec q hq hentry
            simp [hne]
          refine forall_mem_replace hold fun hentry => ?_
          obtain ⟨e, he⟩ := Option.ne_none_iff_exists'.mp hentry
          simp [he]
  | groupEnd _ => exact .finished _ _ _
  | sourceStep _ ih =>
      cases h with
      | source h => exact .source (ih h)
  | sourceEnd =>
      cases h with
      | source h => cases h with | finished => exact .finished _ _ _

/-! ## What a step does to the outcome and to the token -/

theorem childFails_append (pre post : List Proc) (p : Proc) :
    childFails (pre ++ p :: post) = (childFails pre || (p.fails || childFails post)) := by
  induction pre with
  | nil => rfl
  | cons q pre ih => simp [childFails, ih, Bool.or_assoc]

/-- A child that is not going to fail neither adds an error nor cancels. -/
theorem onChild_eq {kind : GroupKind} {p : Proc} (h : p.fails = false) (sh : Shared)
    (errors : List (String × String)) : onChild kind p sh errors = (sh, errors) := by
  unfold onChild
  split
  · simp [Proc.fails, Completion.isOk] at h
  · rfl

@[simp] theorem onChild_settle (p : Proc) (sh : Shared) (errors : List (String × String)) :
    (onChild .settle p sh errors).1 = sh := by
  unfold onChild
  split <;> rfl

theorem isOk_groupResult (errors : List (String × String)) :
    (Completion.returned (groupResult errors)).isOk = errors.isEmpty := by
  cases errors <;> simp [groupResult, Completion.isOk]

/-- A failure ahead stays ahead until it is the result. -/
theorem Step.fails_mono {ctx sh p sh' p'} (hstep : Step ctx sh p sh' p') (h : p.WF)
    (hf : p.fails = true) : p'.fails = true := by
  -- over the step, along the path to the coroutine that moves
  induction hstep with
  | refuse _ => simp [Proc.fails, Completion.isOk]
  | enter _ hp => rw [hp, AsyncTask.fails_enter]; exact hf
  | bodyCancel _ => exact hf
  | bodyEnd hc =>
      cases h with
      | body =>
          rw [List.mem_singleton.mp hc]
          simpa [Proc.fails] using hf
  | seriesEnd => simp [Proc.fails, anyFails] at hf
  | seriesCancelled _ => simp [Proc.fails, Completion.isOk]
  | seriesNext _ => simpa [Proc.fails, anyFails] using hf
  | seriesStep _ ih =>
      cases h with
      | series hcur _ =>
          simp only [Proc.fails, Bool.or_eq_true] at hf ⊢
          exact hf.imp_left (ih hcur)
  | seriesOk => simpa [Proc.fails, Completion.isOk] using hf
  | seriesErr => simp [Proc.fails, Completion.isOk]
  | seriesRaise => simp [Proc.fails, Completion.isOk]
  | @child _ _ _ _ p p' pre post errors _ ih =>
      cases h with
      | group h _ =>
          have hp := ih (h p (by simp))
          simp only [Proc.fails, childFails_append, onChild_errors, Bool.or_eq_true] at hf ⊢
          rcases hf with herr | hpre | hp' | hpost
          · refine .inl ?_
            cases errors <;> simp_all
          · exact .inr (.inl hpre)
          · exact .inr (.inr (.inl (hp hp')))
          · exact .inr (.inr (.inr hpost))
  | @groupEnd _ _ _ children errors hall =>
      cases h with
      | group h hrec =>
          simp only [Proc.fails, Bool.or_eq_true, isOk_groupResult] at hf ⊢
          refine hf.elim id fun hchild => ?_
          -- a finished child that fails has left its entry
          obtain ⟨q, hq, hqf⟩ := (childFails_iff children).mp hchild
          have hentry := (h q hq).errorEntry_ne_none (hall q hq) hqf
          simpa using hrec q hq hentry
  | sourceStep _ ih =>
      cases h with
      | source h => exact ih h hf
  | sourceEnd => exact hf

/-- With no failure ahead a step of a live tree leaves the token live and no
failure ahead. -/
theorem Step.stays_live {ctx sh p sh' p'} (hstep : Step ctx sh p sh' p') (h : p.WF)
    (hlive : sh.cancelled = false) (hf : p.fails = false) :
    sh'.cancelled = false ∧ p'.fails = false := by
  induction hstep with
  | refuse hc => rw [hlive] at hc; cases hc
  | enter _ hp => rw [hp, AsyncTask.fails_enter]; exact ⟨hlive, hf⟩
  | bodyCancel hc =>
      cases h with
      | body => cases hc
  | bodyEnd hc =>
      cases h with
      | body =>
          rw [List.mem_singleton.mp hc, finish_cancelled]
          exact ⟨hlive, by simpa [Proc.fails] using hf⟩
  | seriesEnd => exact ⟨by rw [finish_cancelled]; exact hlive, rfl⟩
  | seriesCancelled hc => rw [hlive] at hc; cases hc
  | seriesNext _ => exact ⟨hlive, by simpa [Proc.fails, anyFails] using hf⟩
  | seriesStep _ ih =>
      cases h with
      | series hcur _ =>
          simp only [Proc.fails, Bool.or_eq_false_iff] at hf ⊢
          obtain ⟨hlive', hf'⟩ := ih hcur hf.1
          exact ⟨hlive', hf', hf.2⟩
  | seriesOk => exact ⟨hlive, by simpa [Proc.fails, Completion.isOk] using hf⟩
  | seriesErr => simp [Proc.fails, Completion.isOk] at hf
  | seriesRaise => simp [Proc.fails, Completion.isOk] at hf
  | @child _ _ _ _ p p' pre post errors _ ih =>
      cases h with
      | group h _ =>
          simp only [Proc.fails, childFails_append, Bool.or_eq_false_iff] at hf ⊢
          obtain ⟨herr, hpre, hp, hpost⟩ := hf
          obtain ⟨hlive', hp'⟩ := ih (h p (by simp)) hp
          -- the child has no error, so it is not recorded and cancels nothing
          rw [onChild_eq hp']
          exact ⟨hlive', herr, hpre, hp', hpost⟩
  | groupEnd _ =>
      rw [finish_cancelled]
      simp only [Proc.fails, Bool.or_eq_false_iff, isOk_groupResult] at hf ⊢
      exact ⟨hlive, hf.1⟩
  | sourceStep _ ih =>
      cases h with
      | source h => exact ih h hf
  | sourceEnd => exact ⟨by rw [finish_cancelled]; exact hlive, hf⟩

/-- On a live token a step neither mends nor breaks what is to come. -/
theorem Step.fails_eq {ctx sh p sh' p'} (hstep : Step ctx sh p sh' p') (h : p.WF)
    (hlive : sh.cancelled = false) : p'.fails = p.fails := by
  cases hf : p.fails with
  | true => exact hstep.fails_mono h hf
  | false => exact (hstep.stays_live h hlive hf).2

theorem Steps.wf {ctx a b} (h : Steps ctx a b) (hwf : a.2.WF) : b.2.WF := by
  induction h with
  | refl => exact hwf
  | tail _ hstep ih => exact hstep.wf ih

mutual
/-- A bound on the number of steps ahead, which every step makes smaller; so a run comes to its end.
-/
def AsyncTask.work : AsyncTask → Nat
  | .newAsyncTask _ _ _ => 2
  | .asyncSeries _ tasks => seriesWork tasks + 1
  | .asyncParallel _ tasks => groupWork tasks + 2
  | .asyncParallelSettle _ tasks => groupWork tasks + 2
  | .asyncTaskFrom _ _ source => source.work + 2

def seriesWork : List AsyncTask → Nat
  | [] => 1
  | t :: rest => t.work + 2 + seriesWork rest

def groupWork : List AsyncTask → Nat
  | [] => 0
  | t :: rest => t.work + groupWork rest
end

theorem AsyncTask.work_pos (t : AsyncTask) : 0 < t.work := by
  cases t <;> simp [AsyncTask.work]

theorem onChild_of_not_finished {kind : GroupKind} {p : Proc} (h : p.isFinished = false)
    (sh : Shared) (errors : List (String × String)) :
    onChild kind p sh errors = (sh, errors) := by
  unfold onChild
  split
  · cases h
  · rfl

/-! ## Without a look at the token -/

mutual
/-- The execution, from here, does not look at the token. -/
def Proc.checkFree : Proc → Bool
  | .pending _ => false
  | .body _ _ _ => true
  | .seriesHead _ rest => rest.isEmpty
  | .series _ current rest => current.checkFree && rest.isEmpty
  | .group _ _ _ children _ => childrenCheckFree children
  | .source _ _ inner => inner.checkFree
  | .finished _ _ _ => true

def childrenCheckFree : List Proc → Bool
  | [] => true
  | p :: rest => p.checkFree && childrenCheckFree rest
end

theorem childrenCheckFree_iff (ps : List Proc) :
    childrenCheckFree ps = true ↔ ∀ p ∈ ps, p.checkFree = true := by
  induction ps with
  | nil => simp [childrenCheckFree]
  | cons p rest ih => simp [childrenCheckFree, ih]

theorem childrenCheckFree_append (pre post : List Proc) (p : Proc) :
    childrenCheckFree (pre ++ p :: post) =
      (childrenCheckFree pre && (p.checkFree && childrenCheckFree post)) := by
  induction pre with
  | nil => rfl
  | cons q pre ih => simp [childrenCheckFree, ih, Bool.and_assoc]

theorem Proc.checkFree_finished {p : Proc} (h : p.isFinished = true) : p.checkFree = true := by
  cases p <;> first | rfl | cases h

/-- What does not look at the token never will. -/
theorem Step.checkFree {ctx sh p sh' p'} (hstep : Step ctx sh p sh' p')
    (hfree : p.checkFree = true) : p'.checkFree = true := by
  induction hstep with
  | enter _ _ => cases hfree
  | seriesNext _ => cases hfree
  | seriesStep _ ih =>
      simp only [Proc.checkFree, Bool.and_eq_true] at hfree ⊢
      exact ⟨ih hfree.1, hfree.2⟩
  | seriesOk => exact hfree
  | child _ ih =>
      simp only [Proc.checkFree, childrenCheckFree_append, Bool.and_eq_true] at hfree ⊢
      exact ⟨hfree.1, ih hfree.2.1, hfree.2.2⟩
  | sourceStep _ ih => exact ih hfree
  | _ => rfl

/-- And so it ends well if it would have, whatever has become of the token. -/
theorem Step.fails_of_checkFree {ctx sh p sh' p'} (hstep : Step ctx sh p sh' p') (h : p.WF)
    (hfree : p.checkFree = true) (hf : p.fails = false) : p'.fails = false := by
  induction hstep with
  | refuse _ => cases hfree
  | enter _ _ => cases hfree
  | bodyCancel _ => exact hf
  | bodyEnd hc =>
      cases h with
      | body =>
          rw [List.mem_singleton.mp hc]
          simpa [Proc.fails] using hf
  | seriesEnd => rfl
  | seriesCancelled _ => cases hfree
  | seriesNext _ => cases hfree
  | seriesStep _ ih =>
      cases h with
      | series hcur _ =>
          simp only [Proc.checkFree, Bool.and_eq_true, Proc.fails, Bool.or_eq_false_iff] at hfree hf ⊢
          exact ⟨ih hcur hfree.1 hf.1, hf.2⟩
  | seriesOk => simpa [Proc.fails, Completion.isOk] using hf
  | seriesErr => simp [Proc.fails, Completion.isOk] at hf
  | seriesRaise => simp [Proc.fails, Completion.isOk] at hf
  | @child _ _ _ _ p p' pre post errors _ ih =>
      cases h with
      | group h _ =>
          simp only [Proc.checkFree, childrenCheckFree_append, Bool.and_eq_true] at hfree
          simp only [Proc.fails, childFails_append, Bool.or_eq_false_iff] at hf ⊢
          obtain ⟨herr, hpre, hp, hpost⟩ := hf
          have hp' := ih (h p (by simp)) hfree.2.1 hp
          rw [onChild_eq hp']
          exact ⟨herr, hpre, hp', hpost⟩
  | groupEnd _ =>
      simp only [Proc.fails, Bool.or_eq_false_iff, isOk_groupResult] at hf ⊢
      simpa using hf.1
  | sourceStep _ ih =>
      cases h with
      | source h => exact ih h hfree hf
  | sourceEnd => exact hf

theorem Step.fails_eq_of_checkFree {ctx sh p sh' p'} (hstep : Step ctx sh p sh' p') (h : p.WF)
    (hfree : p.checkFree = true) : p'.fails = p.fails := by
  cases hf : p.fails with
  | true => exact hstep.fails_mono h hf
  | false => exact hstep.fails_of_checkFree h hfree hf

/-- On a cancelled token a look that is still to come becomes a failure. -/
theorem Step.checks_dead {ctx sh p sh' p'} (hstep : Step ctx sh p sh' p')
    (hdead : sh.cancelled = true) (hchecks : p.checkFree = false) :
    p'.fails = true ∨ p'.checkFree = false := by
  induction hstep with
  | refuse _ => exact .inl rfl
  | enter hc _ => rw [hdead] at hc; cases hc
  | bodyCancel _ => cases hchecks
  | bodyEnd _ => cases hchecks
  | seriesEnd => cases hchecks
  | seriesCancelled _ => exact .inl rfl
  | seriesNext hc => rw [hdead] at hc; cases hc
  | seriesStep _ ih =>
      simp only [Proc.checkFree, Proc.fails, Bool.and_eq_false_iff, Bool.or_eq_true] at hchecks ⊢
      rcases hchecks with hcur | hrest
      · exact (ih hcur).imp .inl .inl
      · exact .inr (.inr hrest)
  | seriesOk => exact .inr hchecks
  | seriesErr => exact .inl rfl
  | seriesRaise => exact .inl rfl
  | @child _ _ _ _ p p' pre post errors _ ih =>
      simp only [Proc.checkFree, childrenCheckFree_append, Bool.and_eq_false_iff] at hchecks ⊢
      simp only [Proc.fails, childFails_append, Bool.or_eq_true]
      rcases hchecks with hpre | hp | hpost
      · exact .inr (.inl hpre)
      · exact (ih hp).imp (fun hf => .inr (.inr (.inl hf))) fun hc => .inr (.inl hc)
      · exact .inr (.inr (.inr hpost))
  | groupEnd hall =>
      have hfree := (childrenCheckFree_iff _).mpr fun p hp => Proc.checkFree_finished (hall p hp)
      rw [Proc.checkFree, hfree] at hchecks
      cases hchecks
  | sourceStep _ ih => exact ih hchecks
  | sourceEnd => cases hchecks

end Mulp.Core
