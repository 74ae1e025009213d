import Mulp.Entry.Forward

/-! Which script and which task are watched (`cmd/mulp/main.mbt`).

Watching finds the task by its own scan of the arguments, and the document by a
discovery in the directory of the command; both should be what the parser finds. -/
namespace Mulp.Entry

open Mulp.Core Mulp.Text Mulp.Cli

/-- `mulp_run_watch` comes to the script of this document, to be run with this task. -/
def RunsWatched (read : String → Except MulpError String) (cwd : String) (args : List String)
    (document : ConfigDocument) (task dir : String) : Prop :=
  ∃ path, scriptPath read dir document = some path ∧
    mulpRunWatch read cwd args = some (.execute document (moonRunScriptCommand path [task]) dir)

/-- No log flag is given before `--watch`, the task is no flag for a configuration path, the
document that is asked for is the one that discovery finds, and the module root can be looked for.
Each of the four is where one of the scans would find something else. -/
structure Watchable (read : String → Except MulpError String) (dir : String) (configPath : Option String)
    (task : String) (invocation : Invocation) : Prop where
  first : logArgs invocation.before = []
  task : isConfigPathFlag task = false
  found : discoverRealConfig read dir = loadRealConfig read dir configPath
  root : (discoverMoonRoot read dir).isSome = true

section Watch

variable {read : String → Except MulpError String} {cwd dir task d : String} {raw args kept : List String}
  {document : ConfigDocument} {configPath : Option String} {level : Int} {invocation : Invocation}

/-- The invocations that ask for a task to be watched. -/
theorem request_of_watch (h : (invocation.meaning d).action = .watch task) :
    invocation.request = some (.watch task) := by
  obtain ⟨before, request, after⟩ := invocation
  rcases request with _ | request
  · cases h
  · cases request with
    | watch other =>
        cases h
        rfl
    | _ => cases h

theorem watchIn_eq {found : ConfigDocument} {path other : String}
    (hkept : argsWithoutConfigPath args = .ok kept) (htask : watchTaskName kept = .ok other)
    (hfound : discoverRealConfig read dir = some (.ok found))
    (hscript : isMulpScriptPath found.path = true) (hpath : scriptPath read dir found = some path) :
    watchIn read dir args = some (.execute found (moonRunScriptCommand path [other]) dir) := by
  rw [watchIn, hkept]
  dsimp only
  rw [htask]
  dsimp only
  rw [loadRealConfig, hfound, Option.bind_eq_bind, Option.bind_some]
  dsimp only
  rw [hscript, Bool.not_true, if_neg Bool.false_ne_true, hpath]
  rfl

/-- What comes to a command has taken a task and found a script. -/
theorem watchIn_execute {command : MoonRunCommand} {at' : String}
    (h : watchIn read dir args = some (.execute document command at')) :
    ∃ kept other path, argsWithoutConfigPath args = .ok kept ∧ watchTaskName kept = .ok other ∧
      discoverRealConfig read dir = some (.ok document) ∧ scriptPath read dir document = some path ∧
        command = moonRunScriptCommand path [other] := by
  cases hkept : argsWithoutConfigPath args with
  | error err =>
      rw [watchIn, hkept] at h
      cases h
  | ok kept =>
      rw [watchIn, hkept] at h
      dsimp only at h
      cases htask : watchTaskName kept with
      | error err =>
          rw [htask] at h
          cases h
      | ok other =>
          rw [htask, loadRealConfig, Option.bind_eq_bind, Option.bind_eq_some_iff] at h
          obtain ⟨found, hfound, h⟩ := h
          cases found with
          | error err => cases h
          | ok found =>
              dsimp only at h
              split_ifs at h with hscript
              · cases h
              · rw [Option.bind_eq_bind, Option.bind_eq_some_iff] at h
                obtain ⟨path, hpath, h⟩ := h
                cases h
                exact ⟨kept, other, path, rfl, htask, hfound, hpath, rfl⟩

theorem watchIn_iff (hscript : isMulpScriptPath document.path = true) :
    (∃ path, scriptPath read dir document = some path ∧
      watchIn read dir args = some (.execute document (moonRunScriptCommand path [task]) dir)) ↔
      (∃ kept, argsWithoutConfigPath args = .ok kept ∧ watchTaskName kept = .ok task) ∧
        discoverRealConfig read dir = some (.ok document) ∧
          (discoverMoonRoot read dir).isSome = true := by
  rw [← scriptPath_isSome document, Option.isSome_iff_exists]
  constructor
  · rintro ⟨path, hpath, h⟩
    obtain ⟨kept, other, path', hkept, htask, hfound, -, hcommand⟩ := watchIn_execute h
    have hsame : [task] = [other] := moonRunScriptCommand_inj hcommand
    rw [List.singleton_inj.mp hsame]
    exact ⟨⟨kept, hkept, htask⟩, hfound, path, hpath⟩
  · rintro ⟨⟨kept, hkept, htask⟩, hfound, path, hpath⟩
    exact ⟨path, hpath, watchIn_eq hkept htask hfound hscript hpath⟩

theorem watchTaskName_watch {other : String} {more : List String} :
    watchTaskName ("--watch" :: other :: more) = .ok other := rfl

theorem watchTaskName_ok {other : String} (h : watchTaskName kept = .ok other) :
    ∃ more, kept = "--watch" :: other :: more := by
  unfold watchTaskName at h
  split at h
  · cases h
    exact ⟨_, rfl⟩
  · cases h

/-- The task that is taken is the one asked for. -/
theorem watchTask_iff (h : invocation.request = some (.watch task)) :
    (∃ kept, argsWithoutConfigPath invocation.args = .ok kept ∧ watchTaskName kept = .ok task) ↔
      logArgs invocation.before = [] ∧ isConfigPathFlag task = false := by
  obtain ⟨before, request, after⟩ := invocation
  cases h
  have hargs : argsWithoutConfigPath (Invocation.args ⟨before, some (.watch task), after⟩) =
      (withoutPairs isConfigPathFlag ("--watch" :: task :: after.flatMap Setting.args)).map
        (logArgs before ++ ·) := withoutPairs_asked before after (.watch task)
  rw [hargs]
  constructor
  · rintro ⟨kept, hkept, hname⟩
    obtain ⟨left, hleft, rfl⟩ := exists_of_map_ok hkept
    obtain ⟨more, hmore⟩ := watchTaskName_ok hname
    have hbefore : logArgs before = [] := by
      cases hlog : logArgs before with
      | nil => rfl
      | cons flag flags =>
          -- the first argument would be a log flag
          rw [hlog] at hmore
          have hflag : flag = "--watch" := (List.cons.inj hmore).1
          have hlogflag := @isLogFlag_of_mem before flag (hlog ▸ List.mem_cons_self)
          rw [hflag] at hlogflag
          exact absurd hlogflag (by decide)
    rw [hbefore, List.nil_append] at hmore
    have hmem : task ∈ left := by
      rw [hmore]
      exact List.mem_cons_of_mem _ List.mem_cons_self
    exact ⟨hbefore, withoutPairs_free hleft task hmem⟩
  · rintro ⟨hbefore, hconfig⟩
    obtain ⟨more, hmore⟩ := exists_withoutPairs_settings after
    refine ⟨"--watch" :: task :: more, ?_, watchTaskName_watch⟩
    rw [withoutPairs_kept rfl (withoutPairs_kept hconfig hmore), hbefore]
    rfl

/-- A script that is given a task to watch executes it, unless it is a flag of its own. -/
theorem performs_single {registry : Registry} :
    Performs registry [task] d ⟨configPath, .watch task, level⟩ ↔
    task ∉ ["--tasks", "--tasks-json", "--tree"] := by
  by_cases hwatch : task = "--watch"
  · subst hwatch
    exact iff_of_true (performs_watch_nil.mpr rfl) (by decide)
  · constructor
    · rintro ⟨⟨err, herr⟩, -⟩ hmem
      simp only [List.mem_cons, List.not_mem_nil, or_false] at hmem
      rcases hmem with rfl | rfl | rfl
      · cases herr
      · cases herr
      · cases herr
    · intro h
      refine (performs_first ?_).mpr rfl
      simp only [List.mem_cons, List.not_mem_nil, or_false, not_or] at h ⊢
      exact ⟨h.1, h.2.1, h.2.2, hwatch⟩

/-- An accepted argument list that asks for a task to be watched: watch mode runs the
script that is asked for with this task exactly under these conditions. -/
theorem watch_runs_iff (hraw : argsWithoutCwd raw = .ok args)
    (hdir : commandCwdFromArgs cwd raw = some (.ok dir))
    (hparse : parseArgs args d = .ok ⟨configPath, .watch task, level⟩)
    (hload : loadRealConfig read dir configPath = some (.ok document))
    (hscript : isMulpScriptPath document.path = true) (registry : Registry) :
    ∃ invocation : Invocation, args = invocation.args ∧
      (RunsWatched read cwd raw document task dir ↔ Watchable read dir configPath task invocation) ∧
      (Performs registry [task] d ⟨configPath, .watch task, level⟩ ↔
        task ∉ ["--tasks", "--tasks-json", "--tree"]) := by
  obtain ⟨invocation, rfl, hmeaning⟩ := parseArgs_iff.mp hparse
  have hrequest : invocation.request = some (.watch task) := by
    refine @request_of_watch task d invocation ?_
    rw [← hmeaning]
  have hin : mulpRunWatch read cwd raw = watchIn read dir invocation.args := by
    rw [mulpRunWatch, hdir, Option.bind_eq_bind, Option.bind_some, hraw]
  refine ⟨invocation, rfl, ?_, performs_single⟩
  rw [RunsWatched, hin, watchIn_iff hscript, watchTask_iff hrequest]
  constructor
  · rintro ⟨⟨hfirst, htask⟩, hfound, hroot⟩
    exact ⟨hfirst, htask, hfound.trans hload.symm, hroot⟩
  · rintro ⟨hfirst, htask, hfound, hroot⟩
    exact ⟨⟨hfirst, htask⟩, hfound.trans hload, hroot⟩

end Watch

theorem watch_runs_build : ∃ invocation : Invocation, ["--watch", "build"] = invocation.args ∧
    (RunsWatched oneScript "/" ["--cwd", "app", "--watch", "build"] ⟨"/app/gulp.mbtx", ""⟩ "build" "/app" ↔
      Watchable oneScript "/app" none "build" invocation) ∧
    (Performs oneTask ["build"] "default" ⟨none, .watch "build", 2⟩ ↔
      "build" ∉ ["--tasks", "--tasks-json", "--tree"]) :=
  watch_runs_iff rfl (by decide) rfl loadRealConfig_oneScript (by decide) oneTask

/-- A disk with another script, which discovery does not find. -/
def otherScript (path : String) : Except MulpError String :=
  if path = "/other/gulp.mbtx" then .ok "" else oneScript path

/-- A log flag that comes first is taken for a missing task, and the configuration
path is left unread. -/
theorem watch_not_runs :
    (parseArgs ["--silent", "--watch", "build"] "default" = .ok ⟨none, .watch "build", 0⟩ ∧
      loadRealConfig oneScript "/app" none = some (.ok ⟨"/app/gulp.mbtx", ""⟩) ∧
      ¬ RunsWatched oneScript "/app" ["--silent", "--watch", "build"] ⟨"/app/gulp.mbtx", ""⟩ "build" "/app") ∧
    parseArgs ["--watch", "build", "--config", "/other/gulp.mbtx"] "default" =
        .ok ⟨some "/other/gulp.mbtx", .watch "build", 2⟩ ∧
      loadRealConfig otherScript "/app" (some "/other/gulp.mbtx") = some (.ok ⟨"/other/gulp.mbtx", ""⟩) ∧
      ¬ RunsWatched otherScript "/app" ["--watch", "build", "--config", "/other/gulp.mbtx"]
        ⟨"/other/gulp.mbtx", ""⟩ "build" "/app" := by
  refine ⟨⟨rfl, loadRealConfig_oneScript, ?_⟩, rfl, by decide, ?_⟩
  · rintro ⟨path, -, hrun⟩
    cases hrun
  · rintro ⟨path, -, hrun⟩
    have hin : mulpRunWatch otherScript "/app"
        ["--watch", "build", "--config", "/other/gulp.mbtx"] =
        watchIn otherScript "/app" ["--watch", "build", "--config", "/other/gulp.mbtx"] := rfl
    obtain ⟨-, -, -, -, -, hfound, -, -⟩ := watchIn_execute (hin.symm.trans hrun)
    have happ := @searchUp_found _
      (fun _ candidate => (otherScript candidate).toOption.map (ConfigDocument.mk candidate))
      defaultConfigFileName "/app" ⟨"/app/gulp.mbtx", ""⟩ (by decide)
    rw [discoverRealConfig_eq, trimSlash_other (by decide), happ] at hfound
    exact absurd hfound (by decide)

end Mulp.Entry
