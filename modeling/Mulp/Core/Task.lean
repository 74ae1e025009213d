import Mulp.Core.Error

/-! Task trees and their synchronous execution (`core/task.mbt`,
`core/compose.mbt`, `core/registry.mbt`, `core/context.mbt`).

A `Task` of the source holds a `run` closure and a reference to its
`TaskState`. The closure is represented by the function that built it, the
reference by the number of the cell, so one task object used in two places is
two subtrees over one cell. The cancellation token and the cells are shared
mutable state and are threaded through. -/
namespace Mulp.Core

/-- What one call of a leaf's `run` does: the result it returns, and whether it
cancels the context's token on the way. -/
structure Body where
  result : TaskResult
  cancels : Bool

inductive Task where
  | newTask (state : Nat) (name : String) (run : Body)
  | series (state : Nat) (tasks : List Task)
  | parallel (state : Nat) (tasks : List Task)
  | taskFrom (state : Nat) (name : String) (source : Task)

/-- `Task::name`: `series` and `parallel` name their task themselves. -/
def Task.name : Task → String
  | .newTask _ name _ => name
  | .series _ _ => "series"
  | .parallel _ _ => "parallel"
  | .taskFrom _ name _ => name

def Task.children : Task → List Task
  | .newTask _ _ _ => []
  | .series _ tasks => tasks
  | .parallel _ tasks => tasks
  | .taskFrom _ _ source => [source]

/-- The fields of `Context` that execution reads besides its token. -/
structure Context where
  cwd : String
  nowMs : Int

/-- The shared mutable state of a run, with two observations of it: the leaf
bodies entered and the `Task::execute` calls returned, each with its result. -/
structure RunState where
  cancelled : Bool
  lastRunMs : Nat → Option Int
  entered : List (Nat × TaskResult)
  returned : List (Nat × TaskResult)

namespace RunState

def cancel (s : RunState) : RunState := { s with cancelled := true }

def stamp (s : RunState) (cell : Nat) (nowMs : Int) : RunState :=
  { s with lastRunMs := fun c => if c = cell then some nowMs else s.lastRunMs c }

def enter (s : RunState) (cell : Nat) (r : TaskResult) : RunState :=
  { s with entered := s.entered ++ [(cell, r)] }

def return_ (s : RunState) (cell : Nat) (r : TaskResult) : RunState :=
  { s with returned := s.returned ++ [(cell, r)] }

@[simp] theorem cancel_cancelled (s : RunState) : s.cancel.cancelled = true := rfl
@[simp] theorem cancel_entered (s : RunState) : s.cancel.entered = s.entered := rfl
@[simp] theorem cancel_returned (s : RunState) : s.cancel.returned = s.returned := rfl
@[simp] theorem cancel_lastRunMs (s : RunState) : s.cancel.lastRunMs = s.lastRunMs := rfl
@[simp] theorem stamp_cancelled (s : RunState) (c : Nat) (n : Int) :
    (s.stamp c n).cancelled = s.cancelled := rfl
@[simp] theorem stamp_entered (s : RunState) (c : Nat) (n : Int) :
    (s.stamp c n).entered = s.entered := rfl
@[simp] theorem stamp_returned (s : RunState) (c : Nat) (n : Int) :
    (s.stamp c n).returned = s.returned := rfl
@[simp] theorem return_cancelled (s : RunState) (c : Nat) (r : TaskResult) :
    (s.return_ c r).cancelled = s.cancelled := rfl
@[simp] theorem return_entered (s : RunState) (c : Nat) (r : TaskResult) :
    (s.return_ c r).entered = s.entered := rfl
@[simp] theorem return_returned (s : RunState) (c : Nat) (r : TaskResult) :
    (s.return_ c r).returned = s.returned ++ [(c, r)] := rfl
@[simp] theorem return_lastRunMs (s : RunState) (c : Nat) (r : TaskResult) :
    (s.return_ c r).lastRunMs = s.lastRunMs := rfl
@[simp] theorem enter_cancelled (s : RunState) (c : Nat) (r : TaskResult) :
    (s.enter c r).cancelled = s.cancelled := rfl
@[simp] theorem enter_entered (s : RunState) (c : Nat) (r : TaskResult) :
    (s.enter c r).entered = s.entered ++ [(c, r)] := rfl
@[simp] theorem enter_returned (s : RunState) (c : Nat) (r : TaskResult) :
    (s.enter c r).returned = s.returned := rfl
@[simp] theorem enter_lastRunMs (s : RunState) (c : Nat) (r : TaskResult) :
    (s.enter c r).lastRunMs = s.lastRunMs := rfl

end RunState

/-- The call of a leaf's closure: it may cancel the token, and returns the one result that it has.
-/
def Body.call (cell : Nat) (run : Body) (s : RunState) : TaskResult × RunState :=
  (run.result, if run.cancels then (s.enter cell run.result).cancel else s.enter cell run.result)

/-- `Task::execute` on the task with state `cell`, name `name` and closure `run`. -/
def executeWith (ctx : Context) (cell : Nat) (name : String)
    (run : RunState → TaskResult × RunState) (s : RunState) : TaskResult × RunState :=
  if s.cancelled then
    (.error (.taskFailed name "cancelled"), s.return_ cell (.error (.taskFailed name "cancelled")))
  else
    match run s with
    | (.ok _, s') => (.ok (), (s'.stamp cell ctx.nowMs).return_ cell (.ok ()))
    | (.error err, s') => (.error err, s'.return_ cell (.error err))

/-- What `parallel` returns once its loop is over: the errors in the order of the tasks, or `Ok` if
there are none. -/
def parallelResult : Option MulpError → TaskResult
  | some err => .error err
  | none => .ok ()

mutual
def Task.execute (ctx : Context) : Task → RunState → TaskResult × RunState
  | .newTask cell name run => executeWith ctx cell name (run.call cell)
  | .series cell tasks => executeWith ctx cell "series" (seriesLoop ctx tasks)
  | .parallel cell tasks => executeWith ctx cell "parallel" (parallelLoop ctx tasks none)
  | .taskFrom cell name source => executeWith ctx cell name (source.execute ctx)

/-- The loop of `series`, from the item it has come to. -/
def seriesLoop (ctx : Context) : List Task → RunState → TaskResult × RunState
  | [], s => (.ok (), s)
  | item :: rest, s =>
      if s.cancelled then (.error (.taskFailed item.name "cancelled"), s)
      else
        match item.execute ctx s with
        | (.ok _, s') => seriesLoop ctx rest s'
        | (.error err, s') => (.error err, s')

/-- The loop of `parallel`, from the item it has come to; the token stops it
with whatever first error it has, also none. -/
def parallelLoop (ctx : Context) : List Task → Option MulpError → RunState → TaskResult × RunState
  | [], firstError, s => (parallelResult firstError, s)
  | item :: rest, firstError, s =>
      if s.cancelled then (parallelResult firstError, s)
      else
        match item.execute ctx s with
        | (.ok _, s') => parallelLoop ctx rest firstError s'
        | (.error err, s') => parallelLoop ctx rest (firstError <|> some err) s'.cancel
end

def lastRun (s : RunState) (cell : Nat) : Option Int := s.lastRunMs cell

end Mulp.Core
