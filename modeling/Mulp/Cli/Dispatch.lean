import Mulp.Cli.Args
import Mulp.Cli.Config
import Mulp.Cli.Discovery
import Mulp.Core.Registry

/-! From the arguments to the command that runs the tasks (`cli/proxy.mbt`,
`cli/output.mbt`, `cli/dispatch.mbt`), with the slices that it takes of paths. -/
namespace Mulp.Cli

open Mulp.Core Mulp.Text

structure MoonRunCommand where
  executable : String
  args : List String
  deriving DecidableEq

def isMulpScriptPath (path : String) : Bool := hasSuffix path ".mbtx"

def trimTrailingSlash (value : String) : Option String :=
  if value ≠ "/" && hasSuffix value "/" then slice value 0 (unitLength value - 1) else some value

def pathRelativeToRoot (path moonRoot : String) : Option String := do
  let root ← trimTrailingSlash moonRoot
  if path = root then some "."
  else if hasPrefix path (root ++ "/") then slice path (unitLength root + 1) (unitLength path)
  else some path

/-- The slices are between whole texts. -/
theorem exists_pathRelativeToRoot (path moonRoot : String) :
    ∃ relative, pathRelativeToRoot path moonRoot = some relative := by
  have hroot : trimTrailingSlash moonRoot = some (trimSlash moonRoot) := slice_trimSlash moonRoot
  rw [pathRelativeToRoot, hroot, Option.bind_eq_bind, Option.bind_some]
  split_ifs with hsame hbelow
  · exact ⟨".", rfl⟩
  · obtain ⟨rest, rfl⟩ := hasPrefix_iff.mp hbelow
    refine ⟨rest, slice_eq_some_iff.mpr ⟨trimSlash moonRoot ++ "/", "", ?_, ?_, rfl⟩⟩
    · rw [String.append_empty]
    · rw [unitLength_append]
      rfl
  · exact ⟨path, rfl⟩

def inferEntryFromMulpPath (path moonRoot : String) : Option String := do
  let suffix := "/mulp.mbt"
  let dir ←
    if hasSuffix path suffix then slice path 0 (unitLength path - unitLength suffix) else some path
  let root ← trimTrailingSlash moonRoot
  if dir = root then some "."
  else if hasPrefix dir (root ++ "/") then slice dir (unitLength root + 1) (unitLength dir)
  else some dir

def missingEntry : MulpError := .configError "missing mulp.entry"

def configuredOrInferredEntry (config : MulpConfig) (inferredEntry : Option String) :
    Except MulpError String :=
  if config.mulp.entry ≠ "" then .ok config.mulp.entry
  else
    match inferredEntry with
    | some entry => if entry = "" then .error missingEntry else .ok entry
    | none => .error missingEntry

def moonRunScriptCommand (scriptPath : String) (scriptArgs : List String) : MoonRunCommand :=
  ⟨"moon", ["run", "--quiet", "--target", "native", scriptPath, "--"] ++ scriptArgs⟩

def moonRunCommandWithEntry (config : MulpConfig) (cli : CliArgs) (inferredEntry : Option String) :
    Except MulpError MoonRunCommand :=
  match configuredOrInferredEntry config inferredEntry with
  | .error err => .error err
  | .ok entry =>
      .ok ⟨"moon", ["run", entry, "--"] ++
        match cli.action with
        | .run task => [task]
        | .watch task => ["--watch", task]
        | .listTasks => ["--tasks"]
        | .tasksJson => ["--tasks-json"]
        | .tree task => ["--tree", task]⟩

def renderCliOutput (cli : CliArgs) (registry : Registry) : Except MulpError String :=
  match cli.action with
  | .listTasks => .ok ("\n".intercalate registry.names)
  | .tasksJson => .ok registry.tasksJson
  | .tree _ => .ok registry.tree.render
  | .run _ | .watch _ => .error (.configError "run is not a renderable CLI output")

inductive CliDispatch where
  | proxy (command : MoonRunCommand)
  | rendered (output : String)

/-- `dispatch_cli`, for a document that is a script. -/
def dispatchScript (document : ConfigDocument) (args : List String) : Except MulpError CliDispatch := do
  let _ ← parseArgs args ""
  let scriptArgs ← argsWithoutConfigPath args
  .ok (.proxy (moonRunScriptCommand document.path (normalizeScriptArgs scriptArgs)))

/-- `dispatch_cli`, for a document that is a configuration. -/
def dispatchConfig (cwd : String) (document : ConfigDocument) (args : List String)
    (registry : Registry) : Option (Except MulpError CliDispatch) := do
  match ← parseConfig document.contents with
  | .error err => some (.error err)
  | .ok config =>
      match parseArgs args config.mulp.defaultTask with
      | .error err => some (.error err)
      | .ok cli =>
          match cli.action with
          | .run _ | .watch _ => do
              let entry ← inferEntryFromMulpPath document.path cwd
              some ((moonRunCommandWithEntry config cli (some entry)).map .proxy)
          | .listTasks | .tasksJson | .tree _ => some ((renderCliOutput cli registry).map .rendered)

def dispatchCli (cwd : String) (files : List (String × String)) (args : List String)
    (registry : Registry) : Option (Except MulpError CliDispatch) :=
  match configPathFromArgs args with
  | .error err => some (.error err)
  | .ok configPath => do
      match ← loadConfig cwd configPath files with
      | .error err => some (.error err)
      | .ok document =>
          if isMulpScriptPath document.path then some (dispatchScript document args)
          else dispatchConfig cwd document args registry

end Mulp.Cli
