import Mathlib.Logic.Relation
import Mulp.Core.Task

/-! Async task trees and their interleaved execution (`core/async_task.mbt`).

Coroutines are scheduled cooperatively, so what lies between two suspension
points is one step; the step relation below allows at least the interleavings
the scheduler does. `with_task_group` waits for all its children, and
`spawn_bg(allow_failure=true)` discards the error a child raises. -/
namespace Mulp.Core

/-- How the call of an `async` closure ends: it returns, or it raises. -/
inductive Completion where
  | returned (r : TaskResult)
  | raised

def Completion.isOk : Completion → Bool
  | .returned r => succeeded r
  | .raised => false

/-- The closure of a leaf: the ways in which a call may end, and whether it may
cancel the context's token while it runs. -/
structure AsyncBody where
  completions : List Completion
  cancels : Bool

inductive AsyncTask where
  | newAsyncTask (state : Nat) (name : String) (run : AsyncBody)
  | asyncSeries (state : Nat) (tasks : List AsyncTask)
  | asyncParallel (state : Nat) (tasks : List AsyncTask)
  | asyncParallelSettle (state : Nat) (tasks : List AsyncTask)
  | asyncTaskFrom (state : Nat) (name : String) (source : AsyncTask)

mutual
def AsyncTask.name : AsyncTask → String
  | .newAsyncTask _ name _ => name
  | .asyncSeries _ _ => "series"
  | .asyncParallel _ _ => "parallel"
  | .asyncParallelSettle _ tasks => "parallel_settle(" ++ ",".intercalate (taskNames tasks) ++ ")"
  | .asyncTaskFrom _ name _ => name

def taskNames : List AsyncTask → List String
  | [] => []
  | t :: rest => t.name :: taskNames rest
end

/-- The state all coroutines share: the token and the last-run cells. -/
structure Shared where
  cancelled : Bool
  lastRunMs : Nat → Option Int

def Shared.cancel (sh : Shared) : Shared := { sh with cancelled := true }

def Shared.stamp (sh : Shared) (cell : Nat) (nowMs : Int) : Shared :=
  { sh with lastRunMs := fun c => if c = cell then some nowMs else sh.lastRunMs c }

@[simp] theorem Shared.cancel_cancelled (sh : Shared) : sh.cancel.cancelled = true := rfl

@[simp] theorem Shared.stamp_cancelled (sh : Shared) (cell : Nat) (nowMs : Int) :
    (sh.stamp cell nowMs).cancelled = sh.cancelled := rfl

/-- The two combinators over `with_task_group`, which differ in one line: whether a child that fails
cancels the token. -/
inductive GroupKind where
  | parallel
  | settle
  deriving DecidableEq

/-- Where the execution of a task has come to. -/
inductive Proc where
  /-- `execute(ctx)` is not called yet. -/
  | pending (task : AsyncTask)
  /-- In a leaf's closure. -/
  | body (state : Nat) (name : String) (run : AsyncBody)
  /-- At the head of the loop of `async_series`. -/
  | seriesHead (state : Nat) (rest : List AsyncTask)
  /-- In the `execute` of an item of `async_series`. -/
  | series (state : Nat) (current : Proc) (rest : List AsyncTask)
  /-- In `with_task_group`: the spawned children and the shared error list. -/
  | group (kind : GroupKind) (state : Nat) (name : String) (children : List Proc)
      (errors : List (String × String))
  /-- In the `execute` of the source of `async_task_from`. -/
  | source (state : Nat) (name : String) (inner : Proc)
  /-- `execute` is over; `entered` tells whether it called `run`. -/
  | finished (name : String) (entered : Bool) (completion : Completion)

def Proc.name : Proc → String
  | .pending task => task.name
  | .body _ name _ => name
  | .seriesHead _ _ => "series"
  | .series _ _ _ => "series"
  | .group _ _ name _ _ => name
  | .source _ name _ => name
  | .finished name _ _ => name

/-- The end of `AsyncTask::execute`, after `run` ended with the completion. -/
def finish (ctx : Context) (cell : Nat) (sh : Shared) : Completion → Shared
  | .returned (.ok _) => sh.stamp cell ctx.nowMs
  | .returned (.error _) => sh
  | .raised => sh

@[simp] theorem finish_cancelled (ctx : Context) (cell : Nat) (sh : Shared) (c : Completion) :
    (finish ctx cell sh c).cancelled = sh.cancelled := by
  cases c with
  | returned r => cases r <;> rfl
  | raised => rfl

/-- What the closure of a spawned child does when `execute` has come to `p`: an
`Err` is recorded, and cancels the token in `async_parallel`. A raised error
leaves the closure and is discarded. -/
def onChild (kind : GroupKind) (p : Proc) (sh : Shared) (errors : List (String × String)) :
    Shared × List (String × String) :=
  match p with
  | .finished name _ (.returned (.error err)) =>
      (if kind = .parallel then sh.cancel else sh, errors ++ [(name, err.message)])
  | _ => (sh, errors)

/-- What the two combinators return after `with_task_group`: the errors of the children in the order
of their ends, if there are any. -/
def groupResult (errors : List (String × String)) : TaskResult :=
  if errors.length = 0 then .ok () else .error (.parallelFailed errors)

/-- The combinator's closure after its loop of `spawn_bg` calls. -/
def spawnAll (kind : GroupKind) (state : Nat) (name : String) (tasks : List AsyncTask) : Proc :=
  .group kind state name (tasks.map .pending) []

def Proc.isFinished : Proc → Bool
  | .finished _ _ _ => true
  | _ => false

/-- The task's `run`, entered: where it has come to before it first suspends or calls another
`execute`. -/
def AsyncTask.enter : AsyncTask → Proc
  | .newAsyncTask state name run => .body state name run
  | .asyncSeries state tasks => .seriesHead state tasks
  | .asyncParallel state tasks => spawnAll .parallel state "parallel" tasks
  | .asyncParallelSettle state tasks =>
      spawnAll .settle state (AsyncTask.asyncParallelSettle state tasks).name tasks
  | .asyncTaskFrom state name source => .source state name (.pending source)

/-- One step of one coroutine. Which coroutine it is is left open, and so the relation has every
order of steps that a scheduler could have. -/
inductive Step (ctx : Context) : Shared → Proc → Shared → Proc → Prop where
  /-- `AsyncTask::execute` finds the token cancelled. -/
  | refuse {sh : Shared} {t : AsyncTask} (h : sh.cancelled = true) :
      Step ctx sh (.pending t) sh
        (.finished t.name false (.returned (.error (.taskFailed t.name "cancelled"))))
  /-- `AsyncTask::execute` calls `run`. -/
  | enter {sh : Shared} {t : AsyncTask} {p : Proc} (h : sh.cancelled = false)
      (hp : p = t.enter) : Step ctx sh (.pending t) sh p
  | bodyCancel {sh : Shared} {state : Nat} {name : String} {run : AsyncBody}
      (h : run.cancels = true) :
      Step ctx sh (.body state name run) sh.cancel (.body state name run)
  | bodyEnd {sh : Shared} {state : Nat} {name : String} {run : AsyncBody} {c : Completion}
      (h : c ∈ run.completions) :
      Step ctx sh (.body state name run) (finish ctx state sh c) (.finished name true c)
  | seriesEnd {sh : Shared} {state : Nat} :
      Step ctx sh (.seriesHead state []) (finish ctx state sh (.returned (.ok ())))
        (.finished "series" true (.returned (.ok ())))
  | seriesCancelled {sh : Shared} {state : Nat} {t : AsyncTask} {rest : List AsyncTask}
      (h : sh.cancelled = true) :
      Step ctx sh (.seriesHead state (t :: rest)) sh
        (.finished "series" true (.returned (.error (.taskFailed t.name "cancelled"))))
  | seriesNext {sh : Shared} {state : Nat} {t : AsyncTask} {rest : List AsyncTask}
      (h : sh.cancelled = false) :
      Step ctx sh (.seriesHead state (t :: rest)) sh (.series state (.pending t) rest)
  | seriesStep {sh sh' : Shared} {state : Nat} {p p' : Proc} {rest : List AsyncTask}
      (h : Step ctx sh p sh' p') :
      Step ctx sh (.series state p rest) sh' (.series state p' rest)
  | seriesOk {sh : Shared} {state : Nat} {name : String} {entered : Bool} {u : Unit}
      {rest : List AsyncTask} :
      Step ctx sh (.series state (.finished name entered (.returned (.ok u))) rest) sh
        (.seriesHead state rest)
  | seriesErr {sh : Shared} {state : Nat} {name : String} {entered : Bool} {err : MulpError}
      {rest : List AsyncTask} :
      Step ctx sh (.series state (.finished name entered (.returned (.error err))) rest) sh
        (.finished "series" true (.returned (.error err)))
  | seriesRaise {sh : Shared} {state : Nat} {name : String} {entered : Bool}
      {rest : List AsyncTask} :
      Step ctx sh (.series state (.finished name entered .raised) rest) sh
        (.finished "series" true .raised)
  | child {sh sh' : Shared} {kind : GroupKind} {state : Nat} {name : String} {p p' : Proc}
      {pre post : List Proc} {errors : List (String × String)} (h : Step ctx sh p sh' p') :
      Step ctx sh (.group kind state name (pre ++ p :: post) errors)
        (onChild kind p' sh' errors).1
        (.group kind state name (pre ++ p' :: post) (onChild kind p' sh' errors).2)
  | groupEnd {sh : Shared} {kind : GroupKind} {state : Nat} {name : String}
      {children : List Proc} {errors : List (String × String)}
      (h : ∀ p ∈ children, p.isFinished = true) :
      Step ctx sh (.group kind state name children errors)
        (finish ctx state sh (.returned (groupResult errors)))
        (.finished name true (.returned (groupResult errors)))
  | sourceStep {sh sh' : Shared} {state : Nat} {name : String} {p p' : Proc}
      (h : Step ctx sh p sh' p') :
      Step ctx sh (.source state name p) sh' (.source state name p')
  | sourceEnd {sh : Shared} {state : Nat} {name inner : String} {entered : Bool}
      {c : Completion} :
      Step ctx sh (.source state name (.finished inner entered c)) (finish ctx state sh c)
        (.finished name true c)

/-- Any number of steps. -/
def Steps (ctx : Context) : Shared × Proc → Shared × Proc → Prop :=
  Relation.ReflTransGen fun a b => Step ctx a.1 a.2 b.1 b.2

/-- Any number of steps while others may cancel the token at any time. -/
def OpenSteps (ctx : Context) : Shared × Proc → Shared × Proc → Prop :=
  Relation.ReflTransGen fun a b =>
    Step ctx a.1 a.2 b.1 b.2 ∨ (b.1 = a.1.cancel ∧ b.2 = a.2)

theorem Steps.step {ctx a sh p sh' p'} (h : Steps ctx a (sh, p)) (hstep : Step ctx sh p sh' p') :
    Steps ctx a (sh', p') := .tail h hstep

theorem OpenSteps.step {ctx a sh p sh' p'} (h : OpenSteps ctx a (sh, p))
    (hstep : Step ctx sh p sh' p') : OpenSteps ctx a (sh', p') := .tail h (.inl hstep)

theorem AsyncTask.enter_name (t : AsyncTask) : t.enter.name = t.name := by
  cases t <;> rfl

theorem Step.name_eq {ctx sh p sh' p'} (h : Step ctx sh p sh' p') : p'.name = p.name := by
  cases h
  case enter hp => rw [hp, AsyncTask.enter_name, Proc.name]
  all_goals rfl

theorem Step.not_finished {ctx sh p sh' p'} (h : Step ctx sh p sh' p') : p.isFinished = false := by
  cases h <;> rfl

/-- `execute` is called once: no step leads back to before it. -/
theorem Step.not_pending {ctx sh p sh' t} : ¬ Step ctx sh p sh' (.pending t) := by
  intro h
  cases h
  case enter t' _ hp => cases t' <;> cases hp

/-- What holds of all members of a list still does when one is replaced by another
of which it holds. -/
theorem forall_mem_replace {α : Type} {P : α → Prop} {pre post : List α} {a a' : α}
    (h : ∀ x ∈ pre ++ a :: post, P x) (ha : P a') : ∀ x ∈ pre ++ a' :: post, P x := by
  intro x hx
  simp only [List.mem_append, List.mem_cons] at hx h
  rcases hx with hx | rfl | hx
  · exact h x (.inl hx)
  · exact ha
  · exact h x (.inr (.inr hx))

end Mulp.Core
