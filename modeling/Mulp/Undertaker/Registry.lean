import Mulp.Core.AsyncRegistry

/-! The registry of an undertaker (`undertaker/undertaker.mbt`).

Installing another registry copies every task that is known into it, one after the
other, after its `init` has run. What is found by a name is the first task with it, and
what is copied last replaces that. -/
namespace Mulp

open Mulp.Core

structure Undertaker (Run : Type) where
  registry : AsyncRegistry Run

namespace Undertaker

variable {Run : Type}

/-- `new_undertaker`. -/
def new : Undertaker Run := { registry := .withName "default" }

/-- `Undertaker::set_registry`. The loop goes over a copy of the installed tasks, so it
is the same when the new registry is the installed one. -/
def setRegistry (self : Undertaker Run) (newReg : AsyncRegistry Run) : Undertaker Run :=
  { self with registry := (newReg.setTasks self.registry.tasks).callInit }

/-- `Undertaker::task`; `state` is the cell of the new task. -/
def task (self : Undertaker Run) (name : String) (run : Run) (state : Nat) :
    Except MulpError (AsyncTaskRecord Run × Undertaker Run) :=
  match self.registry.find name with
  | some _ => .error (.configError ("duplicate task: " ++ name))
  | none =>
      let (next, registry) := self.registry.asyncTask name run state
      .ok (next, { self with registry })

def taskFrom (self : Undertaker Run) (runSource : AsyncTaskRecord Run → Run) (name : String)
    (source : AsyncTaskRecord Run) (state : Nat) :
    Except MulpError (AsyncTaskRecord Run × Undertaker Run) :=
  match self.registry.find name with
  | some _ => .error (.configError ("duplicate task: " ++ name))
  | none =>
      let (next, registry) := self.registry.asyncTaskFrom runSource name source state
      .ok (next, { self with registry })

def getTask (self : Undertaker Run) (name : String) : Option (AsyncTaskRecord Run) :=
  self.registry.find name

variable {self : Undertaker Run} {newReg : AsyncRegistry Run} {name : String}

/-- What an `init` that does nothing leaves: the last installed task of the name, else
the one of the new registry. -/
theorem getTask_setRegistry (h : newReg.init = id) (name : String) :
    (self.setRegistry newReg).getTask name =
      (self.registry.findLast name).or (newReg.find name) := by
  have hinit : (newReg.setTasks self.registry.tasks).init = id := by
    rw [AsyncRegistry.setTasks_init, h]
  rw [getTask, setRegistry, AsyncRegistry.callInit_eq hinit, AsyncRegistry.find_setTasks]
  rfl

/-- Every name known before gives the task it gave, and a name of the new registry only the task it
gives there. The first part is what must not be lost, and the second is what the new registry may
add. -/
structure Keeps (taker : Undertaker Run) (newReg : AsyncRegistry Run) : Prop where
  known : ∀ name task, taker.getTask name = some task →
    (taker.setRegistry newReg).getTask name = some task
  added : ∀ name task, taker.getTask name = none → newReg.find name = some task →
    (taker.setRegistry newReg).getTask name = some task

theorem setRegistry_added (h : newReg.init = id) (hold : self.getTask name = none) :
    (self.setRegistry newReg).getTask name = newReg.find name := by
  have hlast : self.registry.findLast name = none := AsyncRegistry.findLast_eq_none_iff.mpr hold
  rw [getTask_setRegistry h, hlast, Option.none_or]

/-- A replaced registry keeps every task reachable exactly if of the installed tasks
with one name the first is also the last. -/
theorem setRegistry_keeps_iff (self : Undertaker Run) (newReg : AsyncRegistry Run)
    (h : newReg.init = id) :
    self.Keeps newReg ↔ ∀ name, self.registry.findLast name = self.registry.find name := by
  constructor
  · intro hkeeps name
    cases hfirst : self.registry.find name with
    | none => exact AsyncRegistry.findLast_eq_none_iff.mpr hfirst
    | some task =>
        have hnew := hkeeps.known name task hfirst
        rw [getTask_setRegistry h] at hnew
        -- where there is a first task there is a last one, which is found now
        cases hlast : self.registry.findLast name with
        | none =>
            rw [AsyncRegistry.findLast_eq_none_iff.mp hlast] at hfirst
            cases hfirst
        | some last => rwa [hlast, Option.some_or] at hnew
  · intro hsame
    constructor
    · intro name task hold
      rw [getTask_setRegistry h, hsame]
      change self.registry.find name = some task at hold
      rw [hold, Option.some_or]
    · intro name task hold hnew
      rw [setRegistry_added h hold, hnew]

/-- An undertaker with the tasks `build` and `clean`, and a registry with another `build`. -/
theorem setRegistry_keeps_build :
    (Undertaker.mk (((AsyncRegistry.withName "default").push (.mk "build" [] () 0)).push
      (.mk "clean" [] () 1))).Keeps
      ((AsyncRegistry.withName "custom").push (.mk "build" [] () 2)) := by
  apply (setRegistry_keeps_iff _ _ rfl).mpr
  intro name
  apply AsyncRegistry.Distinct.findLast_eq
  show (["build", "clean"] : List String).Nodup
  decide

/-- Two tasks with the name `build`, installed by `async_task`: the first one is found, and
after the migration to an empty registry the second. -/
theorem setRegistry_not_keeps :
    ¬ (Undertaker.mk (((AsyncRegistry.withName "default").asyncTask "build" () 0).2.asyncTask
      "build" () 1).2).Keeps (AsyncRegistry.withName "custom") := by
  intro hkeeps
  have hnew := hkeeps.known "build" (.mk "build" [] () 0) rfl
  cases hnew

/-- The calls that a gulpfile makes. -/
inductive Call (Run : Type) where
  | task (name : String) (run : Run) (state : Nat)
  | taskFrom (name : String) (source : AsyncTaskRecord Run) (state : Nat)
  | setRegistry (newReg : AsyncRegistry Run)

/-- No registry with two tasks of one name, or with an `init`, is installed. -/
def Call.Plain : Call Run → Prop
  | .task _ _ _ => True
  | .taskFrom _ _ _ => True
  | .setRegistry newReg => newReg.Distinct ∧ newReg.init = id

/-- One call; a rejected registration changes nothing. The functions of the source raise or return
an error there, and the undertaker is what it was. -/
def call (runSource : AsyncTaskRecord Run → Run) (self : Undertaker Run) :
    Call Run → Undertaker Run
  | .task name run state =>
      match self.task name run state with
      | .ok (_, next) => next
      | .error _ => self
  | .taskFrom name source state =>
      match self.taskFrom runSource name source state with
      | .ok (_, next) => next
      | .error _ => self
  | .setRegistry newReg => self.setRegistry newReg

/-- What one call can do to the registry. -/
theorem call_cases (runSource : AsyncTaskRecord Run → Run) (self : Undertaker Run)
    (c : Call Run) :
    self.call runSource c = self ∨
      (∃ next, self.registry.find next.name = none ∧
        self.call runSource c = ⟨self.registry.push next⟩) ∨
      ∃ newReg, c = .setRegistry newReg ∧ self.call runSource c = self.setRegistry newReg := by
  cases c with
  | task name run state =>
      cases hfind : self.registry.find name with
      | some found => exact .inl (by simp [call, task, hfind])
      | none => exact .inr (.inl ⟨.mk name [] run state, hfind, by
          simp [call, task, hfind, AsyncRegistry.asyncTask]⟩)
  | taskFrom name source state =>
      cases hfind : self.registry.find name with
      | some found => exact .inl (by simp [call, taskFrom, hfind])
      | none => exact .inr (.inl ⟨.mk name [source] (runSource source) state, hfind, by
          simp [call, taskFrom, hfind, AsyncRegistry.asyncTaskFrom]⟩)
  | setRegistry newReg => exact .inr (.inr ⟨newReg, rfl, rfl⟩)

theorem call_distinct {runSource : AsyncTaskRecord Run → Run} {c : Call Run}
    (h : self.registry.Distinct) (hc : c.Plain) :
    (self.call runSource c).registry.Distinct := by
  obtain hsame | ⟨next, hnew, hpush⟩ | ⟨newReg, rfl, hset⟩ := call_cases runSource self c
  · rwa [hsame]
  · rw [hpush]
    exact h.push hnew
  · have hinit : (newReg.setTasks self.registry.tasks).init = id := by
      rw [AsyncRegistry.setTasks_init, hc.2]
    rw [hset, setRegistry, AsyncRegistry.callInit_eq hinit]
    exact hc.1.setTasks _

theorem call_getTask {runSource : AsyncTaskRecord Run → Run} {c : Call Run}
    {task : AsyncTaskRecord Run} (h : self.registry.Distinct) (hc : c.Plain)
    (hfind : self.getTask name = some task) :
    (self.call runSource c).getTask name = some task := by
  obtain hsame | ⟨next, hnew, hpush⟩ | ⟨newReg, rfl, hset⟩ := call_cases runSource self c
  · rwa [hsame]
  · have hne : next.name ≠ name := by
      rintro rfl
      exact absurd (hfind.symm.trans hnew) (by simp)
    rw [hpush, getTask, AsyncRegistry.find_push_of_ne hne]
    exact hfind
  · rw [hset, getTask_setRegistry hc.2, h.findLast_eq]
    change self.registry.find name = some task at hfind
    rw [hfind, Option.some_or]

theorem calls_distinct {runSource : AsyncTaskRecord Run → Run} {calls : List (Call Run)}
    (h : self.registry.Distinct) (hcalls : ∀ c ∈ calls, c.Plain) :
    (calls.foldl (call runSource) self).registry.Distinct := by
  induction calls generalizing self with
  | nil => exact h
  | cons c calls ih =>
      have hc : c.Plain := hcalls c List.mem_cons_self
      exact ih (call_distinct h hc) fun c' hc' => hcalls c' (List.mem_cons_of_mem c hc')

theorem calls_getTask {runSource : AsyncTaskRecord Run → Run} {calls : List (Call Run)}
    {task : AsyncTaskRecord Run} (h : self.registry.Distinct) (hcalls : ∀ c ∈ calls, c.Plain)
    (hfind : self.getTask name = some task) :
    (calls.foldl (call runSource) self).getTask name = some task := by
  induction calls generalizing self with
  | nil => exact hfind
  | cons c calls ih =>
      have hc : c.Plain := hcalls c List.mem_cons_self
      exact ih (call_distinct h hc) (fun c' hc' => hcalls c' (List.mem_cons_of_mem c hc'))
        (call_getTask h hc hfind)

/-- In any run from a new undertaker, a name once known gives the same task for ever. -/
theorem run_getTask {runSource : AsyncTaskRecord Run → Run} {calls rest : List (Call Run)}
    {task : AsyncTaskRecord Run} (hcalls : ∀ c ∈ calls ++ rest, c.Plain)
    (hfind : (calls.foldl (call runSource) new).getTask name = some task) :
    ((calls ++ rest).foldl (call runSource) new).getTask name = some task := by
  have hnew : (new : Undertaker Run).registry.Distinct := List.nodup_nil
  rw [List.foldl_append]
  apply calls_getTask _ _ hfind
  · apply calls_distinct hnew
    intro c hc
    exact hcalls c (List.mem_append_left rest hc)
  · intro c hc
    exact hcalls c (List.mem_append_right calls hc)

/-- Here `build` is registered, a second time in vain, and survives two new registries, of which
the first has a `build` of its own. -/
theorem run_getTask_build :
    let custom := (AsyncRegistry.withName "custom").push (.mk "build" [] 7 1)
    let calls : List (Call Nat) :=
      [.task "build" 5 0, .task "build" 6 2, .setRegistry custom]
    let rest : List (Call Nat) :=
      [.taskFrom "all" (.mk "build" [] 5 0) 3, .setRegistry (.withName "plain")]
    ((calls ++ rest).foldl (call fun _ => 0) new).getTask "build" = some (.mk "build" [] 5 0) := by
  intro custom calls rest
  have hcustom : custom.Distinct ∧ custom.init = id := ⟨List.nodup_singleton "build", rfl⟩
  have hempty : (AsyncRegistry.withName "plain" : AsyncRegistry Nat).Distinct := List.nodup_nil
  have hplain : ∀ c ∈ calls ++ rest, c.Plain := by
    intro c hc
    simp only [calls, rest, List.cons_append, List.nil_append, List.mem_cons, List.not_mem_nil,
      or_false] at hc
    rcases hc with rfl | rfl | rfl | rfl | rfl
    · trivial
    · trivial
    · exact hcustom
    · trivial
    · exact ⟨hempty, rfl⟩
  exact run_getTask hplain rfl

end Undertaker

end Mulp
