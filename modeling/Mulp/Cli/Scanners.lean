import Mulp.Cli.Invocation

/-! The scanners of the command line beside its parser (`cli/args.mbt`,
`cmd/mulp/main.mbt`).

Before the arguments are parsed some flags are looked for, each by a loop of its own
that knows nothing of the others. A loop takes the first such flag it finds, the parser
the last one; and a loop takes a task's name for a flag. -/
namespace Mulp.Cli

open Mulp.Core Mulp.Text

/-! ## Scans of invocations -/

section Scans

variable {isFlag : String → Bool} {args rest : List String}

theorem map_nil_append (x : Except MulpError (List String)) : x.map ([] ++ ·) = x := by
  cases x <;> rfl

theorem map_cons_append (x : Except MulpError (List String)) (arg : String) (args : List String) :
    (x.map (args ++ ·)).map (arg :: ·) = x.map ((arg :: args) ++ ·) := by
  cases x <;> rfl

theorem firstValue_append (h : ∀ arg ∈ args, isFlag arg = false) :
    firstValue isFlag (args ++ rest) = firstValue isFlag rest := by
  induction args with
  | nil => rfl
  | cons arg args ih =>
      rw [List.forall_mem_cons] at h
      rw [List.cons_append, firstValue_other h.1, ih h.2]

theorem withoutPairs_append (h : ∀ arg ∈ args, isFlag arg = false) :
    withoutPairs isFlag (args ++ rest) = (withoutPairs isFlag rest).map (args ++ ·) := by
  induction args with
  | nil => exact (map_nil_append _).symm
  | cons arg args ih =>
      rw [List.forall_mem_cons] at h
      rw [List.cons_append, withoutPairs_other h.1, ih h.2, map_cons_append]

/-- The arguments of a request are flags of its own, a name or the task of a flag. -/
theorem Request.args_free {request : Request}
    (hdashes : ∀ arg, isFlag arg = true → hasPrefix arg "--" = true)
    (hown : ∀ flag ∈ ["--tasks", "--tasks-simple", "-T", "--tasks-json", "--tree", "--watch"],
      isFlag flag = false)
    (htask : ∀ task ∈ request.flagTask, isFlag task = false) :
    ∀ arg ∈ request.args, isFlag arg = false := by
  cases request with
  | run task =>
      rw [Request.args, List.forall_mem_singleton]
      by_contra hflag
      have h := hdashes task.text (Bool.not_eq_false _ ▸ hflag)
      rw [task.not_flag] at h
      cases h
  | listTasks flag =>
      rw [Request.args, List.forall_mem_singleton]
      cases flag <;> exact hown _ (by decide)
  | tasksJson =>
      rw [Request.args, List.forall_mem_singleton]
      exact hown _ (by decide)
  | tree task =>
      rw [Request.args, List.forall_mem_cons, List.forall_mem_singleton]
      exact ⟨hown _ (by decide), htask task rfl⟩
  | watch task =>
      rw [Request.args, List.forall_mem_cons, List.forall_mem_singleton]
      exact ⟨hown _ (by decide), htask task rfl⟩

theorem Request.args_not_config {request : Request}
    (htask : ∀ task ∈ request.flagTask, isConfigPathFlag task = false) :
    ∀ arg ∈ request.args, isConfigPathFlag arg = false :=
  args_free (fun _ => isConfigPathFlag_dashes) (by decide) htask

theorem Request.args_not_log {request : Request}
    (htask : ∀ task ∈ request.flagTask, isLogFlag task = false) :
    ∀ arg ∈ request.args, isLogFlag arg = false := by
  refine args_free (fun arg harg => ?_) (by decide) htask
  rcases isLogFlag_iff.mp harg with rfl | rfl <;> rfl

theorem firstValue_settings (settings : List Setting) :
    firstValue isConfigPathFlag (settings.flatMap Setting.args ++ rest) =
      match (settings.filterMap Setting.configValue).head? with
      | some value => .ok (some value)
      | none => firstValue isConfigPathFlag rest := by
  induction settings with
  | nil => rfl
  | cons setting settings ih =>
      cases setting with
      | config flag value => exact firstValue_flag (isConfigPathFlag_text flag)
      | log flag =>
          have hflag : isConfigPathFlag flag.text = false := by cases flag <;> rfl
          exact (firstValue_other hflag).trans ih

/-- The log flags of settings, as they are given. -/
def logArgs (settings : List Setting) : List String :=
  (settings.filterMap Setting.logFlag).map LogFlag.text

theorem withoutPairs_settings (settings : List Setting) :
    withoutPairs isConfigPathFlag (settings.flatMap Setting.args ++ rest) =
      (withoutPairs isConfigPathFlag rest).map (logArgs settings ++ ·) := by
  induction settings with
  | nil => exact (map_nil_append _).symm
  | cons setting settings ih =>
      cases setting with
      | config flag value => exact (withoutPairs_flag (isConfigPathFlag_text flag)).trans ih
      | log flag =>
          have hflag : isConfigPathFlag flag.text = false := by cases flag <;> rfl
          have hmap := congrArg (Except.map (flag.text :: ·)) ih
          exact (withoutPairs_other hflag).trans (hmap.trans (map_cons_append ..))

/-- Every flag of settings has its value. -/
theorem exists_withoutPairs_settings (settings : List Setting) :
    ∃ kept, withoutPairs isConfigPathFlag (settings.flatMap Setting.args) = .ok kept := by
  have h := @withoutPairs_settings [] settings
  rw [List.append_nil] at h
  exact ⟨_, h⟩

theorem isLogFlag_text (flag : LogFlag) : isLogFlag flag.text = true := by
  cases flag <;> rfl

theorem filter_logArgs (settings : List Setting) :
    (logArgs settings).filter (!isLogFlag ·) = [] := by
  rw [List.filter_eq_nil_iff]
  intro arg harg
  obtain ⟨flag, -, rfl⟩ := List.mem_map.mp harg
  simp [isLogFlag_text]

/-- The level is that of the first log flag. -/
theorem logLevelFromArgs_eq (args : List String) : logLevelFromArgs args =
    match (args.filter isLogFlag).head? with
    | some arg => if arg = "--silent" then 0 else 1
    | none => 2 := by
  induction args with
  | nil => rfl
  | cons arg args ih =>
      rw [logLevelFromArgs]
      split_ifs with hsilent hquiet
      · simp [hsilent, isLogFlag]
      · simp [hquiet, isLogFlag]
      · have hflag : isLogFlag arg = false := by simp [isLogFlag, hsilent, hquiet]
        rw [ih, List.filter_cons_of_neg (by simp [hflag])]

end Scans

/-! ## Scanners and parser -/

/-- The scanners find what the parser finds, and leave what it needs for the same action. It is one
condition for each of the loops. -/
structure Agrees (args : List String) (defaultTask : String) (c : CliArgs) : Prop where
  config : configPathFromArgs args = .ok c.configPath
  commandConfig : commandConfigPathFromArgs args = .ok c.configPath
  level : logLevelFromArgs args = c.logLevel
  filtered : ∃ kept, argsWithoutConfigPath args = .ok kept ∧
    parseArgs (argsWithoutLogFlags kept) defaultTask = .ok ⟨none, c.action, 2⟩

namespace Invocation

variable (self : Invocation)

/-- The task of `--tree` or `--watch`. -/
def flagTask : Option String := self.request.bind Request.flagTask

/-- The task is no flag that a scanner looks for, the first configuration is the last one, and the
first log flag anywhere is the last one that is a setting. Each part is about one of the loops, and
none of them mentions the loops. -/
structure Unambiguous : Prop where
  task : ∀ task ∈ self.flagTask, isConfigPathFlag task = false ∧ isLogFlag task = false
  config : self.configValues.head? = self.configValues.getLast?
  level : (self.args.filter isLogFlag).head? = self.logFlags.getLast?.map LogFlag.text

def requestArgs : List String := (self.request.map Request.args).getD []

variable {self}

theorem requestArgs_free {isFlag : String → Bool} (hrequest : ∀ request : Request,
      (∀ task ∈ request.flagTask, isFlag task = false) → ∀ arg ∈ request.args, isFlag arg = false)
    (htask : ∀ task ∈ self.flagTask, isFlag task = false) :
    ∀ arg ∈ self.requestArgs, isFlag arg = false := by
  rw [requestArgs]
  cases hasked : self.request with
  | none => nofun
  | some request =>
      refine hrequest request fun task hmem => htask task ?_
      rw [flagTask, hasked]
      exact hmem

theorem args_eq : self.args = self.before.flatMap Setting.args ++
    (self.requestArgs ++ (self.after.flatMap Setting.args ++ [])) := by
  rw [List.append_nil]
  rfl

/-- The first configuration is found. -/
theorem firstValue_args (htask : ∀ task ∈ self.flagTask, isConfigPathFlag task = false) :
    firstValue isConfigPathFlag self.args = .ok self.configValues.head? := by
  have hfree := requestArgs_free (fun _ => Request.args_not_config) htask
  have hvalues : self.configValues = self.before.filterMap Setting.configValue ++
      self.after.filterMap Setting.configValue := List.filterMap_append
  rw [args_eq, firstValue_settings, firstValue_append hfree, firstValue_settings, hvalues,
    List.head?_append]
  cases (self.before.filterMap Setting.configValue).head? with
  | some value => rfl
  | none => cases (self.after.filterMap Setting.configValue).head? <;> rfl

/-- The configurations are left out. -/
theorem withoutPairs_args (htask : ∀ task ∈ self.flagTask, isConfigPathFlag task = false) :
    withoutPairs isConfigPathFlag self.args =
      .ok (logArgs self.before ++ (self.requestArgs ++ logArgs self.after)) := by
  have hfree := requestArgs_free (fun _ => Request.args_not_config) htask
  rw [args_eq, withoutPairs_settings, withoutPairs_append hfree, withoutPairs_settings]
  simp [withoutPairs, Except.map]

/-- The log flags are left out. -/
theorem withoutLogFlags_args (htask : ∀ task ∈ self.flagTask, isLogFlag task = false) :
    argsWithoutLogFlags (logArgs self.before ++ (self.requestArgs ++ logArgs self.after)) =
      self.requestArgs := by
  have hfree := requestArgs_free (fun _ => Request.args_not_log) htask
  have hkept : self.requestArgs.filter (!isLogFlag ·) = self.requestArgs :=
    List.filter_eq_self.mpr fun arg harg => by simp [hfree arg harg]
  rw [argsWithoutLogFlags_eq, List.filter_append, List.filter_append, filter_logArgs,
    filter_logArgs, hkept, List.append_nil, List.nil_append]

/-- The request by itself asks for the same action. -/
theorem parseArgs_requestArgs (defaultTask : String) : parseArgs self.requestArgs defaultTask =
    .ok ⟨none, (self.meaning defaultTask).action, 2⟩ := by
  refine parseArgs_iff.mpr ⟨⟨[], self.request, []⟩, ?_, rfl⟩
  rw [args_eq]
  simp [requestArgs]

/-- Arguments without the flags of scanners ask for no task that is one. -/
theorem flagTask_of_filtered {args : List String} {defaultTask : String} {c : CliArgs}
    (h : parseArgs args defaultTask = .ok c)
    (haction : c.action = (self.meaning defaultTask).action) {task : String}
    (htask : task ∈ self.flagTask) : task ∈ args := by
  obtain ⟨other, rfl, rfl⟩ := parseArgs_iff.mp h
  rw [flagTask, Option.mem_def, Option.bind_eq_some_iff] at htask
  obtain ⟨request, hrequest, htask⟩ := htask
  rw [meaning, meaning, hrequest] at haction
  have hmem : ∀ asked ∈ other.request, ∀ arg ∈ asked.args, arg ∈ other.args := by
    intro asked hasked arg harg
    rw [args_eq, requestArgs, hasked]
    simp [harg]
  -- the same action is asked for with the same task
  rcases other with ⟨before, _ | asked, after⟩
  · cases request <;> cases htask <;> cases haction
  · cases request <;> cases htask <;> cases asked <;> cases haction <;>
      exact hmem _ rfl _ (by simp [Request.args])

/-- The level is that of the last log setting if this is the first log flag. -/
theorem logLevel_iff (defaultTask : String) :
    logLevelFromArgs self.args = (self.meaning defaultTask).logLevel ↔
      (self.args.filter isLogFlag).head? = self.logFlags.getLast?.map LogFlag.text := by
  rw [logLevelFromArgs_eq, meaning]
  cases hfirst : (self.args.filter isLogFlag).head? with
  | none =>
      cases self.logFlags.getLast? with
      | none => simp
      | some last => cases last <;> simp [LogFlag.level]
  | some first =>
      have hflag : isLogFlag first = true := by
        have hmem := List.mem_of_mem_head? hfirst
        exact (List.mem_filter.mp hmem).2
      rcases isLogFlag_iff.mp hflag with rfl | rfl
      · cases self.logFlags.getLast? with
        | none => simp
        | some last => cases last <;> simp [LogFlag.level, LogFlag.text]
      · cases self.logFlags.getLast? with
        | none => simp
        | some last => cases last <;> simp [LogFlag.level, LogFlag.text]

/-- The scanners agree with the parser on exactly the unambiguous invocations. -/
theorem agrees_iff (defaultTask : String) :
    Agrees self.args defaultTask (self.meaning defaultTask) ↔ self.Unambiguous := by
  constructor
  · rintro ⟨hconfig, -, hlevel, kept, hkept, hparse⟩
    have htask : ∀ task ∈ self.flagTask, isConfigPathFlag task = false ∧
        isLogFlag task = false := by
      intro task hmem
      -- the parser still finds the task, so no scanner has taken it out
      have harg := flagTask_of_filtered hparse rfl hmem
      rw [argsWithoutLogFlags_eq, List.mem_filter] at harg
      exact ⟨withoutPairs_free hkept task harg.1, by simpa using harg.2⟩
    rw [configPathFromArgs, firstValue_args fun task hmem => (htask task hmem).1] at hconfig
    exact ⟨htask, Except.ok.inj hconfig, (logLevel_iff defaultTask).mp hlevel⟩
  · rintro ⟨htask, hconfig, hlevel⟩
    have hfirst := firstValue_args fun task hmem => (htask task hmem).1
    rw [hconfig] at hfirst
    refine ⟨hfirst, hfirst, (logLevel_iff defaultTask).mpr hlevel, _,
      withoutPairs_args fun task hmem => (htask task hmem).1, ?_⟩
    rw [withoutLogFlags_args fun task hmem => (htask task hmem).2]
    exact parseArgs_requestArgs defaultTask

end Invocation

/-- An accepted argument list is an invocation, and the scanners agree with the
parser if and only if it is an unambiguous one. -/
theorem scanners_agree_iff {args : List String} {defaultTask : String} {c : CliArgs}
    (h : parseArgs args defaultTask = .ok c) :
    ∃ invocation : Invocation, args = invocation.args ∧ c = invocation.meaning defaultTask ∧
      (Agrees args defaultTask c ↔ invocation.Unambiguous) := by
  obtain ⟨invocation, rfl, rfl⟩ := parseArgs_iff.mp h
  exact ⟨invocation, rfl, rfl, invocation.agrees_iff defaultTask⟩

theorem scanners_agree_silent : ∃ invocation : Invocation,
    ["--silent", "--config", "gulp.mbtx", "build"] = invocation.args ∧
      ⟨some "gulp.mbtx", .run "build", 0⟩ = invocation.meaning "default" ∧
      (Agrees ["--silent", "--config", "gulp.mbtx", "build"] "default"
        ⟨some "gulp.mbtx", .run "build", 0⟩ ↔ invocation.Unambiguous) :=
  scanners_agree_iff rfl

/-- A flag is given twice, or stands where a value does. -/
theorem scanners_disagree :
    (∃ c, parseArgs ["--config", "a.mbtx", "--config", "b.mbtx"] "default" = .ok c ∧
      ¬ Agrees ["--config", "a.mbtx", "--config", "b.mbtx"] "default" c) ∧
    (∃ c, parseArgs ["--silent", "--quiet"] "default" = .ok c ∧
      ¬ Agrees ["--silent", "--quiet"] "default" c) ∧
    ∃ c, parseArgs ["--watch", "--silent"] "default" = .ok c ∧
      ¬ Agrees ["--watch", "--silent"] "default" c := by
  refine ⟨⟨⟨some "b.mbtx", .run "default", 2⟩, rfl, fun h => ?_⟩,
    ⟨⟨none, .run "default", 1⟩, rfl, fun h => ?_⟩, ⟨none, .watch "--silent", 2⟩, rfl, fun h => ?_⟩
  · have hfirst : configPathFromArgs ["--config", "a.mbtx", "--config", "b.mbtx"] =
      .ok (some "a.mbtx") := rfl
    exact absurd (Except.ok.inj (hfirst.symm.trans h.config)) (by decide)
  · exact absurd h.level (by decide)
  · exact absurd h.level (by decide)

end Mulp.Cli
