import Mulp.Core.Error
import Mulp.Lib.KeyedList

/-! Registries of async tasks (`core/async_task.mbt`).

A registry reads nothing of its tasks but their names, so closures are values of a
type `Run` of which nothing is known. -/
namespace Mulp.Core

/-- The record `AsyncTask`; `state` is the cell of its last run, which no other task has. -/
inductive AsyncTaskRecord (Run : Type) where
  | mk (name : String) (children : List (AsyncTaskRecord Run)) (run : Run) (state : Nat)

def AsyncTaskRecord.name {Run : Type} : AsyncTaskRecord Run → String
  | .mk name _ _ _ => name

/-- `AsyncRegistry`; `init` is what the callback does to the tasks. -/
structure AsyncRegistry (Run : Type) where
  name : String
  tasks : List (AsyncTaskRecord Run)
  init : List (AsyncTaskRecord Run) → List (AsyncTaskRecord Run)

namespace AsyncRegistry

variable {Run : Type}

/-- `new_async_registry_with_name`. -/
def withName (name : String) : AsyncRegistry Run := { name, tasks := [], init := id }

def callInit (self : AsyncRegistry Run) : AsyncRegistry Run :=
  { self with tasks := self.init self.tasks }

/-- `AsyncRegistry::set_task`: over the first task of that name, or at the end. -/
def setTask (self : AsyncRegistry Run) (task : AsyncTaskRecord Run) : AsyncRegistry Run :=
  { self with tasks := Keyed.upsert AsyncTaskRecord.name task self.tasks }

/-- The push at the end of `async_task` and of `async_task_from`. -/
def push (self : AsyncRegistry Run) (task : AsyncTaskRecord Run) : AsyncRegistry Run :=
  { self with tasks := self.tasks ++ [task] }

/-- `async_task`: the new task, and the registry with it. -/
def asyncTask (self : AsyncRegistry Run) (name : String) (run : Run) (state : Nat) :
    AsyncTaskRecord Run × AsyncRegistry Run :=
  let next := .mk name [] run state
  (next, self.push next)

/-- `async_task_from`; `runSource` makes the closure that executes the source. -/
def asyncTaskFrom (self : AsyncRegistry Run) (runSource : AsyncTaskRecord Run → Run)
    (name : String) (source : AsyncTaskRecord Run) (state : Nat) :
    AsyncTaskRecord Run × AsyncRegistry Run :=
  let next := .mk name [source] (runSource source) state
  (next, self.push next)

/-- `AsyncRegistry::find`: the first task of that name. -/
def find (self : AsyncRegistry Run) (name : String) : Option (AsyncTaskRecord Run) :=
  Keyed.lookup AsyncTaskRecord.name name self.tasks

/-- The last task of that name. -/
def findLast (self : AsyncRegistry Run) (name : String) : Option (AsyncTaskRecord Run) :=
  Keyed.lookup AsyncTaskRecord.name name self.tasks.reverse

/-- No two tasks have the same name. A registry keeps this by itself, as it replaces the task of a
name; one with tasks from elsewhere need not have it, and then finds the first of a name only. -/
def Distinct (self : AsyncRegistry Run) : Prop :=
  Keyed.Distinct AsyncTaskRecord.name self.tasks

/-- The loop of `Undertaker::set_registry`, which puts the tasks into the new registry one after the
other; a later one replaces an earlier one of its name. -/
def setTasks (self : AsyncRegistry Run) (tasks : List (AsyncTaskRecord Run)) :
    AsyncRegistry Run :=
  tasks.foldl setTask self

variable {self : AsyncRegistry Run} {name : String}

/-- An `init` that does nothing. -/
theorem callInit_eq (h : self.init = id) : self.callInit = self := by
  rw [callInit, show self.init self.tasks = self.tasks by rw [h, id_eq]]

theorem setTasks_tasks (tasks : List (AsyncTaskRecord Run)) :
    (self.setTasks tasks).tasks =
      tasks.foldl (fun acc task => Keyed.upsert AsyncTaskRecord.name task acc) self.tasks := by
  induction tasks generalizing self with
  | nil => rfl
  | cons task tasks ih =>
      rw [setTasks, List.foldl_cons, List.foldl_cons]
      exact ih

@[simp] theorem setTasks_init (tasks : List (AsyncTaskRecord Run)) :
    (self.setTasks tasks).init = self.init := by
  induction tasks generalizing self with
  | nil => rfl
  | cons task tasks ih =>
      rw [setTasks, List.foldl_cons]
      exact ih

theorem find_setTasks (tasks : List (AsyncTaskRecord Run)) :
    (self.setTasks tasks).find name =
      (Keyed.lookup AsyncTaskRecord.name name tasks.reverse).or (self.find name) := by
  rw [find, setTasks_tasks, Keyed.lookup_foldl_upsert]
  rfl

theorem findLast_eq_none_iff : self.findLast name = none ↔ self.find name = none :=
  Keyed.lookup_reverse_eq_none_iff

theorem find_push_of_ne {task : AsyncTaskRecord Run} (h : task.name ≠ name) :
    (self.push task).find name = self.find name :=
  Keyed.lookup_concat_ne h

namespace Distinct

theorem findLast_eq (h : self.Distinct) : self.findLast name = self.find name :=
  h.lookup_reverse name

protected theorem setTask (h : self.Distinct) (task : AsyncTaskRecord Run) :
    (self.setTask task).Distinct :=
  Keyed.Distinct.upsert h task

protected theorem setTasks (h : self.Distinct) (tasks : List (AsyncTaskRecord Run)) :
    (self.setTasks tasks).Distinct := by
  induction tasks generalizing self with
  | nil => exact h
  | cons task tasks ih => exact ih (h.setTask task)

protected theorem push (h : self.Distinct) {task : AsyncTaskRecord Run}
    (hnew : self.find task.name = none) : (self.push task).Distinct :=
  Keyed.Distinct.concat h hnew

end Distinct

end AsyncRegistry

end Mulp.Core
