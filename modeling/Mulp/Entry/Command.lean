import Mulp.Cli.Dispatch
import Mulp.Entry.Run

/-! The command `mulp` (`cmd/mulp/main.mbt`): what it does with its arguments before the
script runs.

It looks for the configuration and for the module root, and comes to a command that runs
the script, or to an output of its own. The command is given as a value; what running it
does is in `Run`. -/
namespace Mulp.Entry

open Mulp.Core Mulp.Text Mulp.Cli

/-- What a call comes to: a result, or a command to run in a directory. The command
is for a document. -/
inductive CommandRun where
  | done (result : CommandResult)
  | execute (document : ConfigDocument) (command : MoonRunCommand) (cwd : String)

/-- A failed call. -/
def CommandRun.fail (err : MulpError) : CommandRun := .done ⟨1, "", err.message⟩

def commandCwdFromArgs (cwd : String) (args : List String) : Option (Except MulpError String) :=
  match firstValue (· == "--cwd") args with
  | .error err => some (.error err)
  | .ok none => some (.ok cwd)
  | .ok (some path) => (joinConfigPath cwd path).map .ok

def mulpCommandOutput : String :=
  "\n".intercalate ["Usage: mulp [options] [task]", "", "Options:",
    "  --help                 Show this help.",
    "  -v, --version          Show the mulp version.",
    "  --cwd <dir>            Run as if started in dir.",
    "  --silent               Suppress all stdout output.",
    "  --quiet                Suppress non-error output.",
    "  --gulpfile <path>      Use an explicit gulp.mbtx.",
    "  --mulpfile <path>      Alias for --gulpfile.",
    "  --file <path>          Alias for --gulpfile.",
    "  -T, --tasks            List tasks.",
    "  --tasks-simple         Alias for --tasks.",
    "  --tasks-json           List tasks as JSON (for editor integrations).",
    "  --tree <task>          Render a task tree.",
    "  --watch <task>         Run a task in watch mode."]

def mulpVersion : String := "0.1.0"

section Read

/- What `read_text_file` gives for each path. -/
variable (read : String → Except MulpError String)

/-- The path that a script is run by. -/
def scriptPath (cwd : String) (document : ConfigDocument) : Option String := do
  match ← discoverMoonRoot read cwd with
  | .ok root => pathRelativeToRoot document.path root
  | .error _ => some document.path

/-- `mulp_command_result_from`, for a document that is a script. -/
def commandScript (cwd : String) (document : ConfigDocument) (args : List String) : Option CommandRun :=
  match parseArgs args "" with
  | .error err => some (.fail err)
  | .ok _ =>
      match argsWithoutConfigPath args with
      | .error err => some (.fail err)
      | .ok scriptArgs => do
          let path ← scriptPath read cwd document
          some (.execute document (moonRunScriptCommand path
            (normalizeScriptArgs (argsWithoutLogFlags scriptArgs))) cwd)

/-- `mulp_command_result_from`, for a document that is a configuration. -/
def commandConfig (cwd : String) (document : ConfigDocument) (args : List String) :
    Option CommandRun := do
  match ← parseConfig document.contents with
  | .error err => some (.fail err)
  | .ok config =>
      match parseArgs args config.mulp.defaultTask with
      | .error err => some (.fail err)
      | .ok cli => do
          let inferredEntry ←
            match ← discoverMoonRoot read cwd with
            | .ok root => (inferEntryFromMulpPath document.path root).map some
            | .error _ => some none
          match moonRunCommandWithEntry config cli inferredEntry with
          | .error err => some (.fail err)
          | .ok command => some (.execute document command cwd)

/-- `mulp_command_result_from`, in the directory and with the arguments that are left
when `--cwd` has been dealt with. -/
def commandIn (cwd : String) (args : List String) : Option CommandRun :=
  match commandConfigPathFromArgs args with
  | .error err => some (.fail err)
  | .ok configPath => do
      match ← loadRealConfig read cwd configPath with
      | .error err => some (.fail err)
      | .ok document =>
          if isMulpScriptPath document.path then commandScript read cwd document args
          else commandConfig read cwd document args

def mulpCommandResultFrom (cwd : String) (args : List String) : Option CommandRun :=
  if args = ["--help"] then some (.done ⟨0, mulpCommandOutput, ""⟩)
  else if args = ["--version"] ∨ args = ["-v"] then some (.done ⟨0, mulpVersion, ""⟩)
  else do
    match ← commandCwdFromArgs cwd args with
    | .error err => some (.fail err)
    | .ok cwd =>
        match argsWithoutCwd args with
        | .error err => some (.fail err)
        | .ok args => commandIn read cwd args

def watchTaskName (args : List String) : Except MulpError String :=
  match args with
  | "--watch" :: task :: _ => .ok task
  | _ => .error (.configError "missing watch task")

/-- `mulp_run_watch`, in the directory and with the arguments that are left when
`--cwd` has been dealt with. -/
def watchIn (cwd : String) (args : List String) : Option CommandRun :=
  match argsWithoutConfigPath args with
  | .error err => some (.fail err)
  | .ok scriptArgs =>
      match watchTaskName scriptArgs with
      | .error err => some (.fail err)
      | .ok taskName => do
          match ← loadRealConfig read cwd none with
          | .error err => some (.fail err)
          | .ok document =>
              if !isMulpScriptPath document.path then
                some (.fail (.configError "watch requires gulp.mbtx"))
              else do
                let path ← scriptPath read cwd document
                some (.execute document (moonRunScriptCommand path [taskName]) cwd)

/-- `mulp_run_watch`, up to the command that it runs at first and at every change. -/
def mulpRunWatch (cwd : String) (args : List String) : Option CommandRun := do
  match ← commandCwdFromArgs cwd args with
  | .error err => some (.fail err)
  | .ok cwd =>
      match argsWithoutCwd args with
      | .error err => some (.fail err)
      | .ok args => watchIn read cwd args

end Read

end Mulp.Entry
