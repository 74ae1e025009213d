import Mathlib.Tactic.SplitIfs
import Mulp.Cli.Args

/-! How the arguments of the command are to be read (`cli/args.mbt`): what
`parse_args` accepts, and what it makes of it. -/
namespace Mulp.Cli

open Mulp.Core Mulp.Text

/-! ## Invocations -/

inductive ConfigFlag where
  | config
  | mulpfile
  | file
  | gulpfile

def ConfigFlag.text : ConfigFlag → String
  | .config => "--config"
  | .mulpfile => "--mulpfile"
  | .file => "--file"
  | .gulpfile => "--gulpfile"

inductive LogFlag where
  | silent
  | quiet
  deriving DecidableEq

def LogFlag.text : LogFlag → String
  | .silent => "--silent"
  | .quiet => "--quiet"

def LogFlag.level : LogFlag → Int
  | .silent => 0
  | .quiet => 1

inductive TasksFlag where
  | tasks
  | tasksSimple
  | short

def TasksFlag.text : TasksFlag → String
  | .tasks => "--tasks"
  | .tasksSimple => "--tasks-simple"
  | .short => "-T"

/-- An argument that is not a flag: the parser takes every argument for the task that does not begin
as one. -/
structure TaskName where
  text : String
  not_flag : hasPrefix text "--" = false
  not_short : text ≠ "-T"

/-- What can be given any number of times, anywhere. -/
inductive Setting where
  | config (flag : ConfigFlag) (value : String)
  | log (flag : LogFlag)

namespace Setting

def args : Setting → List String
  | config flag value => [flag.text, value]
  | log flag => [flag.text]

def configValue : Setting → Option String
  | config _ value => some value
  | log _ => none

def logFlag : Setting → Option LogFlag
  | config _ _ => none
  | log flag => some flag

end Setting

/-- What can be given once. -/
inductive Request where
  | run (task : TaskName)
  | listTasks (flag : TasksFlag)
  | tasksJson
  | tree (task : String)
  | watch (task : String)

namespace Request

def args : Request → List String
  | run task => [task.text]
  | listTasks flag => [flag.text]
  | tasksJson => ["--tasks-json"]
  | tree task => ["--tree", task]
  | watch task => ["--watch", task]

def action : Request → CliAction
  | run task => .run task.text
  | listTasks _ => .listTasks
  | tasksJson => .tasksJson
  | tree task => .tree task
  | watch task => .watch task

/-- The task that follows a flag. -/
def flagTask : Request → Option String
  | tree task => some task
  | watch task => some task
  | _ => none

end Request

/-- An argument list: settings with at most one request among them. -/
structure Invocation where
  before : List Setting
  request : Option Request
  after : List Setting

namespace Invocation

variable (self : Invocation)

def args : List String :=
  self.before.flatMap Setting.args ++ ((self.request.map Request.args).getD [] ++
    self.after.flatMap Setting.args)

def settings : List Setting := self.before ++ self.after

def configValues : List String := self.settings.filterMap Setting.configValue

def logFlags : List LogFlag := self.settings.filterMap Setting.logFlag

/-- What is asked for; the last settings count. It is told by the list of requests, and not by the
texts that ask for them. -/
def meaning (defaultTask : String) : CliArgs where
  configPath := self.configValues.getLast?
  action := (self.request.map Request.action).getD (.run defaultTask)
  logLevel := (self.logFlags.getLast?.map LogFlag.level).getD 2

end Invocation

/-! ## The parser accepts the invocations -/

namespace ParseState

def set (state : ParseState) : Setting → ParseState
  | .config _ value => { state with configPath := some value }
  | .log flag => { state with logLevel := flag.level }

def ask (state : ParseState) (request : Request) : ParseState :=
  { state with action := request.action, sawAction := true }

/-- The state after an invocation. -/
def take (state : ParseState) (invocation : Invocation) : ParseState :=
  let asked :=
    match invocation.request with
    | none => invocation.before.foldl set state
    | some request => (invocation.before.foldl set state).ask request
  invocation.after.foldl set asked

def result (state : ParseState) : CliArgs := ⟨state.configPath, state.action, state.logLevel⟩

/-- Settings change the configuration and the level. -/
theorem foldl_set (settings : List Setting) (state : ParseState) : settings.foldl set state =
    { state with
      configPath := (settings.filterMap Setting.configValue).getLast?.or state.configPath
      logLevel := ((settings.filterMap Setting.logFlag).getLast?.map LogFlag.level).getD
        state.logLevel } := by
  induction settings generalizing state with
  | nil => rfl
  | cons setting settings ih =>
      rw [List.foldl_cons, ih]
      cases setting with
      | config flag value =>
          -- a later value replaces this one
          cases hlast : (settings.filterMap Setting.configValue).getLast? with
          | none => simp [set, Setting.configValue, Setting.logFlag, List.getLast?_cons, hlast]
          | some last => simp [set, Setting.configValue, Setting.logFlag, List.getLast?_cons, hlast]
      | log flag =>
          cases hlast : (settings.filterMap Setting.logFlag).getLast? with
          | none => simp [set, Setting.configValue, Setting.logFlag, List.getLast?_cons, hlast]
          | some last => simp [set, Setting.configValue, Setting.logFlag, List.getLast?_cons, hlast]

end ParseState

section Parser

variable {state : ParseState} {args rest : List String} {c : CliArgs}

theorem isConfigPathFlag_text (flag : ConfigFlag) : isConfigPathFlag flag.text = true := by
  cases flag <;> rfl

theorem exists_configFlag {arg : String} (h : isConfigPathFlag arg = true) :
    ∃ flag : ConfigFlag, arg = flag.text := by
  simp only [isConfigPathFlag, Bool.or_eq_true, beq_iff_eq] at h
  obtain ((rfl | rfl) | rfl) | rfl := h
  · exact ⟨.config, rfl⟩
  · exact ⟨.mulpfile, rfl⟩
  · exact ⟨.file, rfl⟩
  · exact ⟨.gulpfile, rfl⟩

theorem isConfigPathFlag_dashes {arg : String} (h : isConfigPathFlag arg = true) :
    hasPrefix arg "--" = true := by
  obtain ⟨flag, rfl⟩ := exists_configFlag h
  cases flag <;> rfl

theorem parseFrom_setting (setting : Setting) :
    parseFrom state (setting.args ++ rest) = parseFrom (state.set setting) rest := by
  cases setting with
  | config flag value => cases flag <;> rfl
  | log flag =>
      rw [parseFrom.eq_def]
      cases flag <;> rfl

theorem parseFrom_settings (settings : List Setting) :
    parseFrom state (settings.flatMap Setting.args ++ rest) =
      parseFrom (settings.foldl ParseState.set state) rest := by
  induction settings generalizing state with
  | nil => rfl
  | cons setting settings ih =>
      rw [List.flatMap_cons, List.append_assoc, parseFrom_setting, ih, List.foldl_cons]

theorem parseFrom_request (hsaw : state.sawAction = false) (request : Request) :
    parseFrom state (request.args ++ rest) = parseFrom (state.ask request) rest := by
  cases request with
  | run task =>
      obtain ⟨text, hflag, hshort⟩ := task
      have hne {flag : String} (h : hasPrefix flag "--" = true) : text ≠ flag := by
        rintro rfl
        rw [hflag] at h
        cases h
      have hconfig : ¬ isConfigPathFlag text = true := fun h => by
        rw [isConfigPathFlag_dashes h] at hflag
        cases hflag
      have htasks : ¬ (text = "--tasks" ∨ text = "--tasks-simple" ∨ text = "-T") := by
        rintro (h | h | h)
        · exact hne rfl h
        · exact hne rfl h
        · exact hshort h
      -- a name fails every test of the loop up to the last branch
      show parseFrom state (text :: rest) = _
      rw [parseFrom.eq_def]
      dsimp only
      rw [if_neg hconfig, if_neg htasks, if_neg (hne rfl), if_neg (hne rfl), if_neg (hne rfl),
        if_neg (hne rfl), if_neg (hne rfl), hflag, hsaw]
      rfl
  | listTasks flag =>
      obtain ⟨configPath, action, logLevel, sawAction⟩ := state
      cases hsaw
      rw [parseFrom.eq_def]
      cases flag <;> rfl
  | _ =>
      obtain ⟨configPath, action, logLevel, sawAction⟩ := state
      cases hsaw
      rw [parseFrom.eq_def]
      rfl

/-- A second request is an error. -/
theorem first_request {saw : Bool} {err : MulpError} {parsed : Except MulpError CliArgs}
    (h : (if saw = true then .error err else parsed) = .ok c) : saw = false ∧ parsed = .ok c := by
  cases saw with
  | true => cases h
  | false => exact ⟨rfl, h⟩

/-- One turn of the loop takes a setting or, if there was none before, a request. -/
theorem parseFrom_cases (h : parseFrom state args = .ok c) :
    (args = [] ∧ c = state.result) ∨
      (∃ setting rest, args = Setting.args setting ++ rest ∧
        parseFrom (state.set setting) rest = .ok c) ∨
      ∃ request rest, state.sawAction = false ∧ args = Request.args request ++ rest ∧
        parseFrom (state.ask request) rest = .ok c := by
  cases args with
  | nil => exact .inl ⟨rfl, (Except.ok.inj h).symm⟩
  | cons arg rest =>
      rw [parseFrom.eq_def] at h
      dsimp only at h
      -- in the order of the loop
      by_cases hconfig : isConfigPathFlag arg = true
      · rw [if_pos hconfig] at h
        obtain ⟨flag, rfl⟩ := exists_configFlag hconfig
        cases rest with
        | nil => cases h
        | cons value rest => exact .inr (.inl ⟨.config flag value, rest, rfl, h⟩)
      rw [if_neg hconfig] at h
      by_cases htasks : arg = "--tasks" ∨ arg = "--tasks-simple" ∨ arg = "-T"
      · rw [if_pos htasks] at h
        obtain ⟨hsaw, h⟩ := first_request h
        obtain rfl | rfl | rfl := htasks
        · exact .inr (.inr ⟨.listTasks .tasks, rest, hsaw, rfl, h⟩)
        · exact .inr (.inr ⟨.listTasks .tasksSimple, rest, hsaw, rfl, h⟩)
        · exact .inr (.inr ⟨.listTasks .short, rest, hsaw, rfl, h⟩)
      rw [if_neg htasks] at h
      by_cases hjson : arg = "--tasks-json"
      · rw [if_pos hjson] at h
        obtain ⟨hsaw, h⟩ := first_request h
        subst hjson
        exact .inr (.inr ⟨.tasksJson, rest, hsaw, rfl, h⟩)
      rw [if_neg hjson] at h
      by_cases htree : arg = "--tree"
      · rw [if_pos htree] at h
        obtain ⟨hsaw, h⟩ := first_request h
        subst htree
        cases rest with
        | nil => cases h
        | cons task rest => exact .inr (.inr ⟨.tree task, rest, hsaw, rfl, h⟩)
      rw [if_neg htree] at h
      by_cases hwatch : arg = "--watch"
      · rw [if_pos hwatch] at h
        obtain ⟨hsaw, h⟩ := first_request h
        subst hwatch
        cases rest with
        | nil => cases h
        | cons task rest => exact .inr (.inr ⟨.watch task, rest, hsaw, rfl, h⟩)
      rw [if_neg hwatch] at h
      by_cases hsilent : arg = "--silent"
      · rw [if_pos hsilent] at h
        subst hsilent
        exact .inr (.inl ⟨.log .silent, rest, rfl, h⟩)
      rw [if_neg hsilent] at h
      by_cases hquiet : arg = "--quiet"
      · rw [if_pos hquiet] at h
        subst hquiet
        exact .inr (.inl ⟨.log .quiet, rest, rfl, h⟩)
      rw [if_neg hquiet] at h
      by_cases hflag : hasPrefix arg "--" = true
      · rw [if_pos hflag] at h
        cases h
      · rw [if_neg hflag] at h
        obtain ⟨hsaw, h⟩ := first_request h
        have hshort : arg ≠ "-T" := fun heq => htasks (.inr (.inr heq))
        exact .inr (.inr ⟨.run ⟨arg, Bool.eq_false_iff.mpr hflag, hshort⟩, rest, hsaw, rfl, h⟩)

theorem length_args_pos (setting : Setting) : 0 < setting.args.length := by
  cases setting <;> exact Nat.succ_pos _

/-- After a request there are only settings. -/
theorem exists_settings (hsaw : state.sawAction = true) (h : parseFrom state args = .ok c) :
    ∃ settings : List Setting, args = settings.flatMap Setting.args ∧
      c = (settings.foldl ParseState.set state).result := by
  induction hlength : args.length using Nat.strongRecOn generalizing state args with
  | _ n ih =>
      obtain ⟨rfl, hc⟩ | ⟨setting, rest, rfl, hrest⟩ | ⟨request, rest, hfalse, -, -⟩ :=
        parseFrom_cases h
      · exact ⟨[], rfl, hc⟩
      · have hpos := length_args_pos setting
        rw [List.length_append] at hlength
        have hsaw' : (state.set setting).sawAction = true := by cases setting <;> exact hsaw
        obtain ⟨settings, rfl, hc⟩ := ih rest.length (by omega) hsaw' hrest rfl
        exact ⟨setting :: settings, rfl, hc⟩
      · rw [hsaw] at hfalse
        cases hfalse

theorem exists_invocation (hsaw : state.sawAction = false) (h : parseFrom state args = .ok c) :
    ∃ invocation : Invocation, args = invocation.args ∧ c = (state.take invocation).result := by
  induction hlength : args.length using Nat.strongRecOn generalizing state args with
  | _ n ih =>
      obtain ⟨rfl, hc⟩ | ⟨setting, rest, rfl, hrest⟩ | ⟨request, rest, -, rfl, hrest⟩ :=
        parseFrom_cases h
      · exact ⟨⟨[], none, []⟩, rfl, hc⟩
      · have hpos := length_args_pos setting
        rw [List.length_append] at hlength
        have hsaw' : (state.set setting).sawAction = false := by cases setting <;> exact hsaw
        obtain ⟨⟨before, request, after⟩, rfl, hc⟩ := ih rest.length (by omega) hsaw' hrest rfl
        exact ⟨⟨setting :: before, request, after⟩, (List.append_assoc ..).symm, hc⟩
      · obtain ⟨after, rfl, hc⟩ := exists_settings rfl hrest
        exact ⟨⟨[], some request, after⟩, rfl, hc⟩

theorem parseFrom_invocation (hsaw : state.sawAction = false) (invocation : Invocation) :
    parseFrom state invocation.args = .ok (state.take invocation).result := by
  obtain ⟨before, request, after⟩ := invocation
  have hafter (state : ParseState) : parseFrom state (after.flatMap Setting.args) =
      .ok (after.foldl ParseState.set state).result := by
    have h := @parseFrom_settings state [] after
    rwa [List.append_nil] at h
  rw [Invocation.args, parseFrom_settings]
  cases request with
  | none => exact hafter _
  | some request =>
      have hsaw' : (before.foldl ParseState.set state).sawAction = false := by
        rw [ParseState.foldl_set]
        exact hsaw
      exact (parseFrom_request hsaw' request).trans (hafter _)

/-- The parser starts without an action. -/
theorem result_take (invocation : Invocation) (defaultTask : String) :
    (ParseState.take ⟨none, .run defaultTask, 2, false⟩ invocation).result =
      invocation.meaning defaultTask := by
  obtain ⟨before, request, after⟩ := invocation
  have hvalues : (before ++ after).filterMap Setting.configValue =
      before.filterMap Setting.configValue ++ after.filterMap Setting.configValue :=
      List.filterMap_append
  have hflags : (before ++ after).filterMap Setting.logFlag =
      before.filterMap Setting.logFlag ++ after.filterMap Setting.logFlag := List.filterMap_append
  have hlevel (first last : Option LogFlag) :
      (last.map LogFlag.level).getD ((first.map LogFlag.level).getD 2) =
        ((last.or first).map LogFlag.level).getD 2 := by
    cases last <;> rfl
  cases request with
  | none =>
      simp only [ParseState.take, ParseState.foldl_set, ParseState.result, Invocation.meaning,
        Invocation.configValues, Invocation.logFlags, Invocation.settings, hvalues, hflags,
        List.getLast?_append, Option.or_none, hlevel]
      rfl
  | some request =>
      simp only [ParseState.take, ParseState.foldl_set, ParseState.ask, ParseState.result,
        Invocation.meaning, Invocation.configValues, Invocation.logFlags,
        Invocation.settings, hvalues, hflags, List.getLast?_append, Option.or_none, hlevel]
      rfl

/-- What the parser accepts are the invocations. -/
theorem parseArgs_iff {defaultTask : String} : parseArgs args defaultTask = .ok c ↔
    ∃ invocation : Invocation, args = invocation.args ∧ c = invocation.meaning defaultTask := by
  constructor
  · intro h
    obtain ⟨invocation, hargs, hc⟩ := exists_invocation rfl h
    exact ⟨invocation, hargs, hc.trans (result_take invocation defaultTask)⟩
  · rintro ⟨invocation, rfl, rfl⟩
    rw [parseArgs, parseFrom_invocation rfl, result_take]

end Parser

end Mulp.Cli
