import Mathlib.Logic.Basic

/-! The error type every fallible operation of the program returns
(`core/error.mbt`), with the text each error renders to. -/
namespace Mulp.Core

inductive MulpError where
  | taskNotFound (name : String)
  | taskFailed (name cause : String)
  | parallelFailed (errors : List (String × String))
  | fileSystemError (detail : String)
  | globError (detail : String)
  | watchError (detail : String)
  | streamError (detail : String)
  | configError (detail : String)
  deriving DecidableEq, Repr

def MulpError.message : MulpError → String
  | .taskNotFound name => "Task not found: " ++ name
  | .taskFailed name cause => "Task failed: " ++ name ++ ": " ++ cause
  | .parallelFailed errors =>
      "Parallel failed: " ++ "; ".intercalate (errors.map fun item => item.1 ++ ": " ++ item.2)
  | .fileSystemError detail => "File system error: " ++ detail
  | .globError detail => "Glob error: " ++ detail
  | .watchError detail => "Watch error: " ++ detail
  | .streamError detail => "Stream error: " ++ detail
  | .configError detail => "Config error: " ++ detail

/-- `Result[Unit, MulpError]`. -/
abbrev TaskResult := Except MulpError Unit

def succeeded : TaskResult → Bool
  | .ok _ => true
  | .error _ => false

@[simp] theorem succeeded_ok (u : Unit) : succeeded (.ok u) = true := rfl

@[simp] theorem succeeded_error (err : MulpError) : succeeded (.error err) = false := rfl

end Mulp.Core
