import Mulp.Core.Error
import Mulp.Text.Path

/-! The arguments of the command (`cli/args.mbt`, `cli/dispatch.mbt`,
`cmd/mulp/main.mbt`): the parser, and the scanners that look for single flags. -/
namespace Mulp.Cli

open Mulp.Core Mulp.Text

inductive CliAction where
  | run (task : String)
  | listTasks
  | tasksJson
  | tree (task : String)
  | watch (task : String)
  deriving DecidableEq

structure CliArgs where
  configPath : Option String
  action : CliAction
  logLevel : Int
  deriving DecidableEq

/-! ## `parse_args` -/

def isConfigPathFlag (arg : String) : Bool :=
  arg == "--config" || arg == "--mulpfile" || arg == "--file" || arg == "--gulpfile"

def missingValue (flag : String) : MulpError := .configError ("missing value for " ++ flag)

def multipleActions : MulpError := .configError "multiple CLI actions"

/-- The variables of `parse_args`. -/
structure ParseState where
  configPath : Option String
  action : CliAction
  logLevel : Int
  sawAction : Bool

/-- The loop of `parse_args`, over the arguments that are left. -/
def parseFrom (state : ParseState) : List String → Except MulpError CliArgs
  | [] => .ok ⟨state.configPath, state.action, state.logLevel⟩
  | arg :: rest =>
      if isConfigPathFlag arg then
        match rest with
        | [] => .error (missingValue arg)
        | value :: rest => parseFrom { state with configPath := some value } rest
      else if arg = "--tasks" ∨ arg = "--tasks-simple" ∨ arg = "-T" then
        if state.sawAction then .error multipleActions
        else parseFrom { state with action := .listTasks, sawAction := true } rest
      else if arg = "--tasks-json" then
        if state.sawAction then .error multipleActions
        else parseFrom { state with action := .tasksJson, sawAction := true } rest
      else if arg = "--tree" then
        if state.sawAction then .error multipleActions
        else
          match rest with
          | [] => .error (.configError "missing task for --tree")
          | task :: rest => parseFrom { state with action := .tree task, sawAction := true } rest
      else if arg = "--watch" then
        if state.sawAction then .error multipleActions
        else
          match rest with
          | [] => .error (.configError "missing task for --watch")
          | task :: rest => parseFrom { state with action := .watch task, sawAction := true } rest
      else if arg = "--silent" then parseFrom { state with logLevel := 0 } rest
      else if arg = "--quiet" then parseFrom { state with logLevel := 1 } rest
      else if hasPrefix arg "--" then .error (.configError ("unknown flag: " ++ arg))
      else if state.sawAction then .error multipleActions
      else parseFrom { state with action := .run arg, sawAction := true } rest

def parseArgs (args : List String) (defaultTask : String) : Except MulpError CliArgs :=
  parseFrom ⟨none, .run defaultTask, 2, false⟩ args

/-! ## Scanners -/

/-- The value of the first of these flags; the flag and its value are looked for in neighbouring
arguments, whatever stands before them. -/
def firstValue (isFlag : String → Bool) : List String → Except MulpError (Option String)
  | [] => .ok none
  | arg :: rest =>
      if isFlag arg then
        match rest with
        | [] => .error (missingValue arg)
        | value :: _ => .ok (some value)
      else firstValue isFlag rest

/-- The arguments without these flags and what follows each of them. -/
def withoutPairs (isFlag : String → Bool) : List String → Except MulpError (List String)
  | [] => .ok []
  | arg :: rest =>
      if isFlag arg then
        match rest with
        | [] => .error (missingValue arg)
        | _ :: rest => withoutPairs isFlag rest
      else (withoutPairs isFlag rest).map (arg :: ·)

def configPathFromArgs (args : List String) : Except MulpError (Option String) :=
  firstValue isConfigPathFlag args

def commandConfigPathFromArgs (args : List String) : Except MulpError (Option String) :=
  firstValue isConfigPathFlag args

/-- `args_without_config_path`; `dispatch.mbt` and `main.mbt` have one each. -/
def argsWithoutConfigPath (args : List String) : Except MulpError (List String) :=
  withoutPairs isConfigPathFlag args

def argsWithoutCwd (args : List String) : Except MulpError (List String) :=
  withoutPairs (· == "--cwd") args

/-- `--silent` or `--quiet`. -/
def isLogFlag (arg : String) : Bool := arg == "--silent" || arg == "--quiet"

def argsWithoutLogFlags (args : List String) : List String :=
  args.filter fun arg => arg != "--silent" && arg != "--quiet"

def logLevelFromArgs : List String → Int
  | [] => 2
  | arg :: rest =>
      if arg = "--silent" then 0
      else if arg = "--quiet" then 1
      else logLevelFromArgs rest

/-- `normalize_script_args`; `dispatch.mbt` and `main.mbt` have one each. -/
def normalizeScriptArgs (args : List String) : List String :=
  args.map fun arg => if arg = "--tasks-simple" ∨ arg = "-T" then "--tasks" else arg

/-! ### Their equations -/

section Scanners

variable {isFlag : String → Bool} {arg value : String} {rest kept : List String}

theorem firstValue_other (h : isFlag arg = false) :
    firstValue isFlag (arg :: rest) = firstValue isFlag rest := by
  rw [firstValue.eq_def]
  exact if_neg (by simp [h])

theorem firstValue_flag (h : isFlag arg = true) :
    firstValue isFlag (arg :: value :: rest) = .ok (some value) := by
  rw [firstValue, if_pos h]

theorem withoutPairs_other (h : isFlag arg = false) :
    withoutPairs isFlag (arg :: rest) = (withoutPairs isFlag rest).map (arg :: ·) := by
  rw [withoutPairs.eq_def]
  exact if_neg (by simp [h])

theorem withoutPairs_flag (h : isFlag arg = true) :
    withoutPairs isFlag (arg :: value :: rest) = withoutPairs isFlag rest := by
  rw [withoutPairs, if_pos h]

theorem withoutPairs_missing (h : isFlag arg = true) :
    withoutPairs isFlag [arg] = .error (missingValue arg) := by
  rw [withoutPairs, if_pos h]

/-- No such flag is left. -/
theorem withoutPairs_free (h : withoutPairs isFlag rest = .ok kept) :
    ∀ arg ∈ kept, isFlag arg = false := by
  induction rest using withoutPairs.induct isFlag generalizing kept with
  | case1 => cases h; nofun
  | case2 arg hflag => rw [withoutPairs_missing hflag] at h; cases h
  | case3 arg hflag value rest ih => exact ih (by rwa [withoutPairs_flag hflag] at h)
  | case4 arg rest hflag ih =>
      rw [withoutPairs_other (Bool.eq_false_iff.mpr hflag)] at h
      cases hrest : withoutPairs isFlag rest with
      | error err => rw [hrest] at h; cases h
      | ok more =>
          rw [hrest] at h
          cases h
          exact List.forall_mem_cons.mpr ⟨Bool.eq_false_iff.mpr hflag, ih hrest⟩

/-- Every flag has a value after it, read from the left. -/
inductive ValuesGiven (isFlag : String → Bool) : List String → Prop where
  | nil : ValuesGiven isFlag []
  | flag {arg value : String} {rest : List String} :
      isFlag arg = true → ValuesGiven isFlag rest → ValuesGiven isFlag (arg :: value :: rest)
  | other {arg : String} {rest : List String} :
      isFlag arg = false → ValuesGiven isFlag rest → ValuesGiven isFlag (arg :: rest)

theorem withoutPairs_ok_iff :
    (∃ kept, withoutPairs isFlag rest = .ok kept) ↔ ValuesGiven isFlag rest := by
  constructor
  · intro h
    induction rest using withoutPairs.induct isFlag with
    | case1 => exact .nil
    | case2 arg hflag =>
        obtain ⟨kept, h⟩ := h
        rw [withoutPairs_missing hflag] at h
        cases h
    | case3 arg hflag value rest ih =>
        exact .flag hflag (ih (by rwa [withoutPairs_flag hflag] at h))
    | case4 arg rest hflag ih =>
        rw [withoutPairs_other (Bool.eq_false_iff.mpr hflag)] at h
        refine .other (Bool.eq_false_iff.mpr hflag) (ih ?_)
        cases hrest : withoutPairs isFlag rest with
        | error err =>
            rw [hrest] at h
            obtain ⟨kept, h⟩ := h
            cases h
        | ok kept => exact ⟨kept, rfl⟩
  · intro h
    induction h with
    | nil => exact ⟨[], rfl⟩
    | flag hflag _ ih => rwa [withoutPairs_flag hflag]
    | other hflag _ ih =>
        obtain ⟨kept, hkept⟩ := ih
        rw [withoutPairs_other hflag, hkept]
        exact ⟨_, rfl⟩

/-- When no flag is last, the first one has a value. -/
theorem firstValue_of_withoutPairs (h : withoutPairs isFlag rest = .ok kept) :
    ∃ found, firstValue isFlag rest = .ok found := by
  have hgiven := withoutPairs_ok_iff.mp ⟨kept, h⟩
  clear h
  induction hgiven with
  | nil => exact ⟨none, rfl⟩
  | flag hflag _ _ => exact ⟨_, firstValue_flag hflag⟩
  | other hflag _ ih => rwa [firstValue_other hflag]

theorem isLogFlag_iff : isLogFlag arg = true ↔ arg = "--silent" ∨ arg = "--quiet" := by
  simp [isLogFlag]

theorem argsWithoutLogFlags_eq (args : List String) :
    argsWithoutLogFlags args = args.filter (!isLogFlag ·) := by
  refine List.filter_congr fun arg _ => ?_
  simp [isLogFlag, bne]

end Scanners

end Mulp.Cli
