import Mulp.Core.AllOrError
import Mulp.Core.Registry
import Mulp.Platform.Process

/-! From a script's task to the status of the command (`entry/register.mbt`,
`entry/run.mbt`, `cmd/mulp/main.mbt`).

The outcome of a build passes through `run_args`, `run`, the exit status of the
script, the shell and the result of the command. -/
namespace Mulp.Entry

open Mulp.Core Mulp.Platform

/-! ## The script -/

/-- The task name `run_args` takes from its arguments. -/
def taskName (args : List String) : Option String :=
  match args with
  | _ :: "--watch" :: name :: _ => some name
  | _ :: name :: _ => some name
  | _ => none

def runArgs (registry : Registry) (args : List String) (ctx : Context) (s : RunState) :
    TaskResult × RunState :=
  match taskName args with
  | none => (.error (.configError "missing task argument"), s)
  | some name =>
      match registry.require name with
      | .ok found => found.execute ctx s
      | .error err => (.error err, s)

def renderArgs (registry : Registry) (args : List String) : Except MulpError String :=
  match args with
  | _ :: "--tasks" :: _ => .ok ("\n".intercalate registry.names)
  | _ :: "--tasks-json" :: _ => .ok registry.tasksJson
  | _ :: "--tree" :: _ => .ok registry.tree.render
  | _ => .error (.configError "not a render argument")

/-- The arguments `run` gives to `run_args`: those of the script, or the default task behind a first
word if there are fewer than two. -/
def effective (args : List String) (defaultTask : String) : List String :=
  if args.length ≥ 2 then args else ["entry", defaultTask]

/-- The context and the token `run` makes. -/
def newContext (nowMs : Int) : Context := ⟨".", nowMs⟩

def newToken (s : RunState) : RunState := { s with cancelled := false }

/-- `run`, with what it prints. -/
def run (registry : Registry) (args : List String) (defaultTask : String) (nowMs : Int)
    (s : RunState) : String × RunState :=
  match renderArgs registry args with
  | .ok output => (output ++ "\n", s)
  | .error _ =>
      match runArgs registry (effective args defaultTask) (newContext nowMs) (newToken s) with
      | (.ok _, s) => ("", s)
      | (.error err, s) => ("error: " ++ err.message ++ "\n", s)

/-- A process whose main has returned normally. -/
def mainReturned (printed : String) : Exit := ⟨0, printed.toUTF8.toList, []⟩

/-- The process of a script whose main is a call of `run`. -/
def script (registry : Registry) (args : List String) (defaultTask : String) (nowMs : Int)
    (s : RunState) : Exit :=
  mainReturned (run registry args defaultTask nowMs s).1

/-! ## The command -/

/-- `moon run` of a program, with the status of the program and outputs of its
own. -/
def moonRun (stdout stderr : List UInt8) (program : Exit) : Exit := ⟨program.status, stdout, stderr⟩

structure CommandResult where
  status : Int
  stdout : String
  stderr : String

def stripMoonDependencyNoise (stdout : String) : String :=
  "\n".intercalate ((stdout.splitOn "\n").filter fun line => !line.startsWith "Using cached ")

/-- `execute_moon_run_command`, from what came of the shell. -/
def executeMoonRunCommand (os : OS) (shell : ShellRun) : CommandResult :=
  match runProcess os shell with
  | .ok result =>
      { status := result.exitCode
        stdout := stripMoonDependencyNoise (String.ofList result.stdout)
        stderr := String.ofList result.stderr }
  | .error err => { status := 1, stdout := "", stderr := err.message }

/-- The command hands on the status of the process it has run. -/
theorem executeMoonRunCommand_status (os : OS) (child : Exit) :
    (executeMoonRunCommand os (.exited child)).status = child.status.toNat := by
  rw [executeMoonRunCommand, runProcess_exited]

/-! ## Failing builds -/

/-- The script has neither rendered an output nor executed a task successfully: it was given an
unknown task, or the task has returned an error. -/
def Fails (registry : Registry) (args : List String) (defaultTask : String) (nowMs : Int)
    (s : RunState) : Prop :=
  (∃ err, renderArgs registry args = .error err) ∧
    ∃ err, (runArgs registry (effective args defaultTask) (newContext nowMs) (newToken s)).1 =
      .error err

/-- The exit status of the script and the status of the command tell failures from successes. The
status goes through `moon run` and through the command, neither of which changes it. -/
structure FailureVisible (registry : Registry) (args : List String) (defaultTask : String)
    (nowMs : Int) (s : RunState) (os : OS) (stdout stderr : List UInt8) : Prop where
  script : (script registry args defaultTask nowMs s).status ≠ 0 ↔
    Fails registry args defaultTask nowMs s
  command : (executeMoonRunCommand os
      (.exited (moonRun stdout stderr (Entry.script registry args defaultTask nowMs s)))).status ≠ 0 ↔
    Fails registry args defaultTask nowMs s

def isRenderArgument (args : List String) : Bool :=
  match args with
  | _ :: arg :: _ => arg == "--tasks" || arg == "--tasks-json" || arg == "--tree"
  | _ => false

theorem renderArgs_error_iff (registry : Registry) (args : List String) :
    (∃ err, renderArgs registry args = .error err) ↔ isRenderArgument args = false := by
  unfold renderArgs isRenderArgument
  split
  · simp
  · simp
  · simp
  · -- the argument is none of the three that are matched before
    next htasks hjson htree =>
      rcases args with _ | ⟨program, _ | ⟨arg, rest⟩⟩
      · simp
      · simp
      · have hne : arg ≠ "--tasks" ∧ arg ≠ "--tasks-json" ∧ arg ≠ "--tree" := by
          refine ⟨?_, ?_, ?_⟩
          · rintro rfl
            exact htasks _ _ rfl
          · rintro rfl
            exact hjson _ _ rfl
          · rintro rfl
            exact htree _ _ rfl
        simp [hne]

/-- The task the arguments select is registered and returns `Ok` from a live token. -/
def Selects (registry : Registry) (args : List String) (defaultTask : String) : Prop :=
  ∃ name found, taskName (effective args defaultTask) = some name ∧
    registry.find name = some found ∧ found.returnsOk = true

theorem runArgs_ok_iff (registry : Registry) (args : List String) (defaultTask : String)
    (nowMs : Int) (s : RunState) :
    (runArgs registry (effective args defaultTask) (newContext nowMs) (newToken s)).1 = .ok () ↔
      Selects registry args defaultTask := by
  rw [runArgs, Selects]
  rcases taskName (effective args defaultTask) with _ | name
  · simp
  · simp only [Registry.require, Option.some.injEq]
    rcases hfind : registry.find name with _ | found
    · simp [hfind]
    · have hexecute := found.execute_ok_iff (newContext nowMs) (s := newToken s) rfl
      simp only [hexecute]
      constructor
      · intro hok
        exact ⟨name, found, rfl, hfind, hok⟩
      · intro ⟨_, _, hname, hfound, hok⟩
        rw [← hname, hfind] at hfound
        cases hfound
        exact hok

theorem fails_iff (registry : Registry) (args : List String) (defaultTask : String) (nowMs : Int)
    (s : RunState) : Fails registry args defaultTask nowMs s ↔
      ¬ (isRenderArgument args = true ∨ Selects registry args defaultTask) := by
  rw [Fails, renderArgs_error_iff, not_or, Bool.not_eq_true, ← runArgs_ok_iff registry args
    defaultTask nowMs s]
  refine and_congr_right fun _ => ?_
  rcases (runArgs registry (effective args defaultTask) (newContext nowMs) (newToken s)).1 with err | u
  · simp
  · simp

/-- Failures are visible in exactly the runs that do not fail: the status is zero
in all of them. -/
theorem failureVisible_iff (registry : Registry) (args : List String) (defaultTask : String)
    (nowMs : Int) (s : RunState) (os : OS) (stdout stderr : List UInt8) :
    FailureVisible registry args defaultTask nowMs s os stdout stderr ↔
      isRenderArgument args = true ∨ Selects registry args defaultTask := by
  have hscript : (script registry args defaultTask nowMs s).status = 0 := rfl
  have hcommand : (executeMoonRunCommand os
      (.exited (moonRun stdout stderr (script registry args defaultTask nowMs s)))).status = 0 := by
    rw [executeMoonRunCommand_status]
    rfl
  have hfails := fails_iff registry args defaultTask nowMs s
  constructor
  · intro h
    by_contra hnot
    exact h.script.mpr (hfails.mpr hnot) hscript
  · intro h
    have hnot : ¬ Fails registry args defaultTask nowMs s := fun hf => hfails.mp hf h
    constructor
    · simp [hscript, hnot]
    · simp [hcommand, hnot]

/-- A build that fails, and a task that is not registered: both end with status 0. -/
theorem failing_build_not_visible :
    ¬ FailureVisible ⟨"default", [.newTask 0 "build" ⟨.error (.taskFailed "build" "boom"), false⟩]⟩
        ["gulp.mbtx", "build"] "build" 0 .fresh .posix [] [] ∧
      ¬ FailureVisible ⟨"default", []⟩ ["gulp.mbtx", "deploy"] "build" 0 .fresh .posix [] [] := by
  constructor
  · intro h
    exact h.script.mpr ⟨⟨_, rfl⟩, _, rfl⟩ rfl
  · intro h
    exact h.script.mpr ⟨⟨_, rfl⟩, _, rfl⟩ rfl

end Mulp.Entry
