import Mulp.Entry.ScriptArgs

/-! From the command line to what the script does (`cli/dispatch.mbt`, `cli/proxy.mbt`).

The arguments go through two programs: the command takes out what is for itself, and the
script parses what is left, behind a word of its own. What is asked for is told by the
abstract invocation, which both texts are compared with. -/
namespace Mulp.Entry

open Mulp.Core Mulp.Text Mulp.Cli

/-! ## The two ways to the script -/

/-- The configuration that these arguments name is a script. -/
def LoadsScript (load : Option String → Option (Except MulpError ConfigDocument)) (args : List String) :
    Prop :=
  ∀ path, configPathFromArgs args = .ok path →
    ∃ document, load path = some (.ok document) ∧ isMulpScriptPath document.path = true

/-- `dispatch_cli` gives a command whose script does what is asked for. -/
def DispatchPerforms (cwd : String) (files : List (String × String)) (args : List String)
    (known registry : Registry) (defaultTask : String) (cli : CliArgs) : Prop :=
  ∃ path scriptArgs, dispatchCli cwd files args known =
      some (.ok (.proxy (moonRunScriptCommand path scriptArgs))) ∧
    Performs registry scriptArgs defaultTask cli

/-- `mulp_command_result_from` executes a command whose script does what is asked for. -/
def CommandPerforms (read : String → Except MulpError String) (cwd : String) (args : List String)
    (registry : Registry) (defaultTask : String) (cli : CliArgs) : Prop :=
  ∃ document path scriptArgs dir, mulpCommandResultFrom read cwd args =
      some (.execute document (moonRunScriptCommand path scriptArgs) dir) ∧
    Performs registry scriptArgs defaultTask cli

/-- The settings that come before what is asked for. -/
def leading (invocation : Invocation) : List Setting :=
  match invocation.request with
  | none => invocation.settings
  | some _ => invocation.before

def SurvivesIn (keep : String → Bool) (invocation : Invocation) : Prop :=
  ∀ request ∈ invocation.request, Survives keep (invocation.after.flatMap Setting.args) request

/-- There is no log flag before what is asked for, unless that is to execute a task of the flag's
name; and what is asked for is left. A log flag that the dispatcher leaves in front is taken for a
task by the script. -/
structure Dispatched (invocation : Invocation) (defaultTask : String) : Prop where
  first : ∀ flag ∈ (logArgs (leading invocation)).head?,
    actionTask (invocation.meaning defaultTask).action = some flag
  request : SurvivesIn (fun _ => true) invocation

/-- The arguments are not those of a request for the version, the module root can be looked for, and
what is asked for is left when the command has taken out what is for itself. -/
structure Commanded (read : String → Except MulpError String) (args : List String) (dir : String)
    (invocation : Invocation) : Prop where
  version : args ≠ ["-v"]
  root : (discoverMoonRoot read dir).isSome = true
  request : SurvivesIn (!isLogFlag ·) invocation

/-! ## What is left for the script -/

section Left

variable {registry : Registry} {defaultTask : String} {cli : CliArgs} {keep : String → Bool}

theorem exists_of_map_ok {ε α β : Type} {f : α → β} {x : Except ε α} {b : β} (h : x.map f = .ok b) :
    ∃ a, x = .ok a ∧ f a = b := by
  cases x with
  | error err => cases h
  | ok a => exact ⟨a, rfl, Except.ok.inj h⟩

theorem performs_log {flag : String} {rest : List String} (h : isLogFlag flag = true) :
    Performs registry (normalizeScriptArgs (flag :: rest)) defaultTask cli ↔
      actionTask cli.action = some flag := by
  rcases isLogFlag_iff.mp h with rfl | rfl
  · exact performs_first (by decide)
  · exact performs_first (by decide)

theorem isLogFlag_of_mem {settings : List Setting} {flag : String} (h : flag ∈ logArgs settings) :
    isLogFlag flag = true := by
  obtain ⟨flag, -, rfl⟩ := List.mem_map.mp h
  exact isLogFlag_text flag

/-- A task that has a log flag's name is left. -/
theorem survives_of_task {flag : String} {rest : List String} {request : Request}
    (hflag : isLogFlag flag = true) (hkept : keep flag = true)
    (h : actionTask request.action = some flag) : Survives keep rest request := by
  cases request with
  | watch task =>
      cases h
      rcases isLogFlag_iff.mp hflag with rfl | rfl
      · exact ⟨rfl, hkept, by decide⟩
      · exact ⟨rfl, hkept, by decide⟩
  | run task => trivial
  | _ => cases h

theorem performs_settings (settings : List Setting) :
    Performs registry (normalizeScriptArgs ((logArgs settings).filter keep)) defaultTask cli ↔
      actionTask cli.action = some ((((logArgs settings).filter keep).head?).getD defaultTask) := by
  cases hflags : (logArgs settings).filter keep with
  | nil => exact performs_nil
  | cons flag more =>
      have hmem : flag ∈ (logArgs settings).filter keep := by
        rw [hflags]
        exact List.mem_cons_self
      exact performs_log (isLogFlag_of_mem (List.mem_filter.mp hmem).1)

/-- An invocation without a request leaves its log flags. -/
theorem performs_unasked (before after : List Setting) :
    (∃ kept, argsWithoutConfigPath (Invocation.args ⟨before, none, after⟩) = .ok kept ∧
      Performs registry (normalizeScriptArgs (kept.filter keep)) defaultTask
        (Invocation.meaning ⟨before, none, after⟩ defaultTask)) ↔
      ∀ flag ∈ ((logArgs (before ++ after)).filter keep).head?, some defaultTask = some flag := by
  have hkept : argsWithoutConfigPath (Invocation.args ⟨before, none, after⟩) =
      .ok (logArgs (before ++ after)) := by
    have h := @Invocation.withoutPairs_args ⟨before, none, after⟩ (by nofun)
    rw [argsWithoutConfigPath, h]
    simp [Invocation.requestArgs, logArgs]
  constructor
  · rintro ⟨kept, hargs, hperforms⟩ flag hflag
    cases hkept.symm.trans hargs
    rw [performs_settings] at hperforms
    exact hperforms.trans (congrArg (fun first => some (first.getD defaultTask)) hflag)
  · intro h
    refine ⟨_, hkept, ?_⟩
    rw [performs_settings]
    cases hflags : ((logArgs (before ++ after)).filter keep).head? with
    | none => rfl
    | some flag => exact h flag hflags

/-- The arguments of a request come after the log flags that stand before it. -/
theorem withoutPairs_asked (before after : List Setting) (request : Request) :
    argsWithoutConfigPath (Invocation.args ⟨before, some request, after⟩) =
      (withoutPairs isConfigPathFlag (request.args ++ after.flatMap Setting.args)).map
        (logArgs before ++ ·) := withoutPairs_settings before

theorem performs_asked (hkeep : ∀ arg, isLogFlag arg = false → keep arg = true)
    (before after : List Setting) (request : Request) :
    (∃ kept, argsWithoutConfigPath (Invocation.args ⟨before, some request, after⟩) = .ok kept ∧
      Performs registry (normalizeScriptArgs (kept.filter keep)) defaultTask
        (Invocation.meaning ⟨before, some request, after⟩ defaultTask)) ↔
      (∀ flag ∈ ((logArgs before).filter keep).head?, actionTask request.action = some flag) ∧
        Survives keep (after.flatMap Setting.args) request := by
  obtain ⟨more, hmore⟩ := exists_withoutPairs_settings after
  have hrequest : (∃ kept, withoutPairs isConfigPathFlag
      (request.args ++ after.flatMap Setting.args) =
        .ok kept ∧ Performs registry (normalizeScriptArgs (kept.filter keep)) defaultTask
          (Invocation.meaning ⟨before, some request, after⟩ defaultTask)) ↔
      Survives keep (after.flatMap Setting.args) request :=
    performs_request hkeep hmore request
  rw [withoutPairs_asked]
  cases hflags : (logArgs before).filter keep with
  | nil =>
      rw [and_iff_right (by nofun), ← hrequest]
      constructor
      · rintro ⟨kept, hkept, hperforms⟩
        obtain ⟨left, hleft, rfl⟩ := exists_of_map_ok hkept
        rw [List.filter_append, hflags] at hperforms
        exact ⟨left, hleft, hperforms⟩
      · rintro ⟨left, hleft, hperforms⟩
        refine ⟨logArgs before ++ left, by rw [hleft]; rfl, ?_⟩
        rwa [List.filter_append, hflags]
  | cons flag flags =>
      have hmem : flag ∈ (logArgs before).filter keep := by
        rw [hflags]
        exact List.mem_cons_self
      obtain ⟨hmem, hkept⟩ := List.mem_filter.mp hmem
      have hflag := isLogFlag_of_mem hmem
      -- whatever follows, the flag is taken for the task
      have hfirst (left : List String) :
          Performs registry (normalizeScriptArgs ((logArgs before ++ left).filter keep)) defaultTask
              (Invocation.meaning ⟨before, some request, after⟩ defaultTask) ↔
            actionTask request.action = some flag := by
        rw [List.filter_append, hflags]
        exact performs_log hflag
      constructor
      · rintro ⟨kept, hkept', hperforms⟩
        obtain ⟨left, hleft, rfl⟩ := exists_of_map_ok hkept'
        have htask := (hfirst left).mp hperforms
        refine ⟨fun other hother => ?_, survives_of_task hflag hkept htask⟩
        cases hother
        exact htask
      · rintro ⟨htask, hleft⟩
        obtain ⟨left, hleft, -⟩ := hrequest.mpr hleft
        exact ⟨logArgs before ++ left, by rw [hleft]; rfl, (hfirst left).mpr (htask flag rfl)⟩

/-- The script does what an invocation asks for exactly if a log flag that is kept
does not come first, and what is asked for is left. -/
theorem performs_invocation (hkeep : ∀ arg, isLogFlag arg = false → keep arg = true)
    (invocation : Invocation) :
    (∃ kept, argsWithoutConfigPath invocation.args = .ok kept ∧
      Performs registry (normalizeScriptArgs (kept.filter keep)) defaultTask
        (invocation.meaning defaultTask)) ↔
      (∀ flag ∈ ((logArgs (leading invocation)).filter keep).head?,
        actionTask (invocation.meaning defaultTask).action = some flag) ∧
          SurvivesIn keep invocation := by
  obtain ⟨before, request, after⟩ := invocation
  cases request with
  | none =>
      have hnone : SurvivesIn keep ⟨before, none, after⟩ := by nofun
      rw [and_iff_left hnone]
      exact performs_unasked before after
  | some request =>
      have hsurvives : SurvivesIn keep ⟨before, some request, after⟩ ↔
          Survives keep (after.flatMap Setting.args) request := by
        simp [SurvivesIn]
      rw [hsurvives]
      exact performs_asked hkeep before after request

end Left

/-! ## The commands -/

section Commands

variable {cwd dir d : String} {files : List (String × String)} {args raw scriptArgs : List String}
  {known registry : Registry} {c cli : CliArgs} {read : String → Except MulpError String}
  {invocation : Invocation}

theorem moonRunScriptCommand_inj {path other : String} {otherArgs : List String}
    (h : moonRunScriptCommand path scriptArgs = moonRunScriptCommand other otherArgs) :
    scriptArgs = otherArgs := by
  have hargs := congrArg (·.args.drop 6) h
  exact hargs

theorem dispatchScript_eq (document : ConfigDocument) (h : parseArgs args "" = .ok cli) :
    dispatchScript document args = (argsWithoutConfigPath args).map fun kept =>
      .proxy (moonRunScriptCommand document.path (normalizeScriptArgs kept)) := by
  rw [dispatchScript, h]
  show (argsWithoutConfigPath args).bind _ = _
  cases argsWithoutConfigPath args with
  | error err => rfl
  | ok kept => rfl

theorem dispatch_iff (hparse : parseArgs args "" = .ok c)
    (hload : LoadsScript (loadConfig cwd · files) args) :
    DispatchPerforms cwd files args known registry d cli ↔
      ∃ kept, argsWithoutConfigPath args = .ok kept ∧
        Performs registry (normalizeScriptArgs kept) d cli := by
  have hscript {path : Option String} (hpath : configPathFromArgs args = .ok path) :
      ∃ document, dispatchCli cwd files args known =
      some ((argsWithoutConfigPath args).map fun kept =>
        .proxy (moonRunScriptCommand document (normalizeScriptArgs kept))) := by
    obtain ⟨document, hdocument, hsuffix⟩ := hload path hpath
    refine ⟨document.path, ?_⟩
    simp only [dispatchCli, hpath, hdocument, Option.bind_eq_bind, Option.bind_some,
      hsuffix, if_true, dispatchScript_eq document hparse]
  constructor
  · rintro ⟨path, scriptArgs, hdispatch, hperforms⟩
    -- a flag without its value ends the dispatch before a document is loaded
    cases hpath : configPathFromArgs args with
    | error err =>
        rw [dispatchCli, hpath] at hdispatch
        cases hdispatch
    | ok found =>
        obtain ⟨document, hdocument⟩ := hscript hpath
        rw [hdocument, Option.some.injEq] at hdispatch
        obtain ⟨kept, hkept, hproxy⟩ := exists_of_map_ok hdispatch
        injection hproxy with hproxy
        rw [← moonRunScriptCommand_inj hproxy] at hperforms
        exact ⟨kept, hkept, hperforms⟩
  · rintro ⟨kept, hkept, hperforms⟩
    obtain ⟨found, hpath⟩ : ∃ found, configPathFromArgs args = .ok found :=
      firstValue_of_withoutPairs hkept
    obtain ⟨document, hdocument⟩ := hscript hpath
    rw [hkept] at hdocument
    exact ⟨document, _, hdocument, hperforms⟩

/-- The path that a script is run by is there if the module root can be looked for. -/
theorem scriptPath_isSome (document : ConfigDocument) :
    (scriptPath read dir document).isSome = (discoverMoonRoot read dir).isSome := by
  rw [scriptPath]
  cases hroot : discoverMoonRoot read dir with
  | none => rfl
  | some found =>
      cases found with
      | error err => rfl
      | ok root =>
          obtain ⟨relative, hrelative⟩ := exists_pathRelativeToRoot document.path root
          exact congrArg Option.isSome hrelative

theorem commandIn_iff (hparse : parseArgs args "" = .ok c)
    (hload : LoadsScript (loadRealConfig read dir) args) :
    (∃ document path scriptArgs where', commandIn read dir args =
        some (.execute document (moonRunScriptCommand path scriptArgs) where') ∧
      Performs registry scriptArgs d cli) ↔
      (discoverMoonRoot read dir).isSome = true ∧ ∃ kept, argsWithoutConfigPath args = .ok kept ∧
        Performs registry (normalizeScriptArgs (argsWithoutLogFlags kept)) d cli := by
  have hscript {path : Option String} (hpath : configPathFromArgs args = .ok path) :
      ∃ document, commandIn read dir args = commandScript read dir document args := by
    obtain ⟨document, hdocument, hsuffix⟩ := hload path hpath
    refine ⟨document, ?_⟩
    have hpath' : commandConfigPathFromArgs args = .ok path := hpath
    simp only [commandIn, hpath', hdocument, Option.bind_eq_bind, Option.bind_some,
      hsuffix, if_true]
  have hcommand {kept : List String} (hkept : argsWithoutConfigPath args = .ok kept)
      (document : ConfigDocument) : commandScript read dir document args =
        (scriptPath read dir document).map fun path => .execute document (moonRunScriptCommand path
          (normalizeScriptArgs (argsWithoutLogFlags kept))) dir := by
    rw [commandScript, hparse]
    dsimp only
    rw [hkept]
    cases scriptPath read dir document <;> rfl
  constructor
  · rintro ⟨document, path, scriptArgs, where', hrun, hperforms⟩
    cases hpath : configPathFromArgs args with
    | error err =>
        have hpath' : commandConfigPathFromArgs args = .error err := hpath
        rw [commandIn, hpath'] at hrun
        cases hrun
    | ok found =>
        obtain ⟨other, hother⟩ := hscript hpath
        rw [hother] at hrun
        -- the scanner and the filter fail on the same arguments
        cases hkept : argsWithoutConfigPath args with
        | error err =>
            rw [commandScript, hparse] at hrun
            dsimp only at hrun
            rw [hkept] at hrun
            cases hrun
        | ok kept =>
            rw [hcommand hkept, Option.map_eq_some_iff] at hrun
            obtain ⟨script, hroot, hexecute⟩ := hrun
            injection hexecute with _ hmoon _
            rw [← moonRunScriptCommand_inj hmoon] at hperforms
            refine ⟨?_, kept, rfl, hperforms⟩
            rw [← scriptPath_isSome other, hroot]
            rfl
  · rintro ⟨hroot, kept, hkept, hperforms⟩
    obtain ⟨found, hpath⟩ : ∃ found, configPathFromArgs args = .ok found :=
      firstValue_of_withoutPairs hkept
    obtain ⟨document, hdocument⟩ := hscript hpath
    rw [← scriptPath_isSome document, Option.isSome_iff_exists] at hroot
    obtain ⟨path, hpath⟩ := hroot
    rw [hcommand hkept, hpath] at hdocument
    exact ⟨document, path, _, dir, hdocument, hperforms⟩

theorem command_iff (hraw : argsWithoutCwd raw = .ok args)
    (hdir : commandCwdFromArgs cwd raw = some (.ok dir)) (hparse : parseArgs args "" = .ok c) :
    CommandPerforms read cwd raw registry d cli ↔ raw ≠ ["-v"] ∧
      ∃ document path scriptArgs where', commandIn read dir args =
          some (.execute document (moonRunScriptCommand path scriptArgs) where') ∧
        Performs registry scriptArgs d cli := by
  -- these two are no arguments that the parser accepts, but `-v` is a task to it
  have hhelp : raw ≠ ["--help"] := by
    rintro rfl
    cases hraw
    cases hparse
  have hversion : raw ≠ ["--version"] := by
    rintro rfl
    cases hraw
    cases hparse
  have hin (h : raw ≠ ["-v"]) : mulpCommandResultFrom read cwd raw = commandIn read dir args := by
    rw [mulpCommandResultFrom, if_neg hhelp, if_neg (not_or.mpr ⟨hversion, h⟩), hdir,
      Option.bind_eq_bind, Option.bind_some, hraw]
  constructor
  · rintro ⟨document, path, scriptArgs, where', hrun, hperforms⟩
    have hshort : raw ≠ ["-v"] := by
      rintro rfl
      cases hrun
    exact ⟨hshort, document, path, scriptArgs, where', (hin hshort).symm.trans hrun, hperforms⟩
  · rintro ⟨hshort, document, path, scriptArgs, where', hrun, hperforms⟩
    exact ⟨document, path, scriptArgs, where', (hin hshort).trans hrun, hperforms⟩

/-- An accepted argument list is an invocation, and the script does what it asks for
exactly under these conditions on it. -/
theorem script_performs_iff (h : parseArgs args d = .ok cli) (registry : Registry) :
    ∃ invocation : Invocation, args = invocation.args ∧ cli = invocation.meaning d ∧
      (∀ cwd files known, LoadsScript (loadConfig cwd · files) args →
        (DispatchPerforms cwd files args known registry d cli ↔ Dispatched invocation d)) ∧
      ∀ read cwd raw dir, argsWithoutCwd raw = .ok args →
        commandCwdFromArgs cwd raw = some (.ok dir) → LoadsScript (loadRealConfig read dir) args →
        (CommandPerforms read cwd raw registry d cli ↔ Commanded read raw dir invocation) := by
  obtain ⟨invocation, rfl, rfl⟩ := parseArgs_iff.mp h
  have hparse : parseArgs invocation.args "" = .ok (invocation.meaning "") :=
    parseArgs_iff.mpr ⟨invocation, rfl, rfl⟩
  refine ⟨invocation, rfl, rfl, fun cwd files known hload => ?_,
    fun read cwd raw dir hraw hdir hload => ?_⟩
  · have hall (args : List String) : args.filter (fun _ => true) = args :=
      List.filter_eq_self.mpr fun _ _ => rfl
    have hperforms := @performs_invocation registry d (fun _ => true) (fun _ _ => rfl) invocation
    simp only [hall] at hperforms
    rw [dispatch_iff hparse hload, hperforms]
    exact ⟨fun ⟨hfirst, hrequest⟩ => ⟨hfirst, hrequest⟩, fun h => ⟨h.first, h.request⟩⟩
  · have hperforms :=
      @performs_invocation registry d (!isLogFlag ·) (fun _ hlog => by simp [hlog]) invocation
    simp only [← argsWithoutLogFlags_eq] at hperforms
    have hnone : ∀ flag ∈ ([] : List String).head?, actionTask (invocation.meaning d).action =
        some flag := by
      nofun
    rw [command_iff hraw hdir hparse, commandIn_iff hparse hload, hperforms, argsWithoutLogFlags_eq,
      filter_logArgs, and_iff_right hnone]
    exact ⟨fun ⟨hversion, hroot, hrequest⟩ => ⟨hversion, hroot, hrequest⟩,
      fun h => ⟨h.version, h.root, h.request⟩⟩

end Commands

/-- The registry of a script with one task. -/
def oneTask : Registry := ⟨"default", [.newTask 0 "build" ⟨.ok (), false⟩]⟩

/-- A disk that holds one script and its module. -/
def oneScript (path : String) : Except MulpError String :=
  if path = "/app/gulp.mbtx" ∨ path = "/app/moon.mod.json" then .ok ""
  else .error (.configError "no such file")

theorem loadsScript_memory {args : List String} (h : configPathFromArgs args = .ok none) :
    LoadsScript (loadConfig "/app" · [("/app/gulp.mbtx", "")]) args := by
  intro path hpath
  cases h.symm.trans hpath
  have hfound := @searchUp_found _ (fun _ candidate => findFile candidate [("/app/gulp.mbtx", "")])
    defaultConfigFileName "/app" ⟨"/app/gulp.mbtx", ""⟩ (by decide)
  refine ⟨⟨"/app/gulp.mbtx", ""⟩, ?_, by decide⟩
  show discoverConfig "/app" _ = _
  rw [discoverConfig_eq, trimSlash_other (by decide), hfound]
  rfl

theorem loadRealConfig_oneScript :
    loadRealConfig oneScript "/app" none = some (.ok ⟨"/app/gulp.mbtx", ""⟩) := by
  have hfound := @searchUp_found _
    (fun _ candidate => (oneScript candidate).toOption.map (ConfigDocument.mk candidate))
    defaultConfigFileName "/app" ⟨"/app/gulp.mbtx", ""⟩ (by decide)
  show discoverRealConfig oneScript "/app" = _
  rw [discoverRealConfig_eq, trimSlash_other (by decide), hfound]
  rfl

theorem loadsScript_disk {args : List String} (h : configPathFromArgs args = .ok none) :
    LoadsScript (loadRealConfig oneScript "/app") args := by
  intro path hpath
  cases h.symm.trans hpath
  exact ⟨_, loadRealConfig_oneScript, by decide⟩

theorem script_performs_build : ∃ invocation : Invocation,
    ["build"] = invocation.args ∧ ⟨none, .run "build", 2⟩ = invocation.meaning "default" ∧
      (DispatchPerforms "/app" [("/app/gulp.mbtx", "")] ["build"] oneTask oneTask "default"
          ⟨none, .run "build", 2⟩ ↔ Dispatched invocation "default") ∧
      (CommandPerforms oneScript "/" ["--cwd", "app", "build"] oneTask "default"
          ⟨none, .run "build", 2⟩ ↔ Commanded oneScript ["--cwd", "app", "build"] "/app" invocation) := by
  obtain ⟨invocation, hargs, hmeaning, hdispatch, hcommand⟩ :=
    @script_performs_iff "default" ["build"] _ rfl oneTask
  exact ⟨invocation, hargs, hmeaning, hdispatch _ _ _ (loadsScript_memory rfl),
    hcommand _ _ _ _ rfl (by decide) (loadsScript_disk rfl)⟩

/-- A log flag is taken for the task, and a task for the flag of another. -/
theorem script_not_performs :
    (∃ cli, parseArgs ["--silent", "build"] "default" = .ok cli ∧
      LoadsScript (loadConfig "/app" · [("/app/gulp.mbtx", "")]) ["--silent", "build"] ∧
      ¬ DispatchPerforms "/app" [("/app/gulp.mbtx", "")] ["--silent", "build"] oneTask oneTask
        "default" cli) ∧
    ∃ cli, parseArgs ["--watch", "-T"] "default" = .ok cli ∧
      LoadsScript (loadRealConfig oneScript "/app") ["--watch", "-T"] ∧
      ¬ CommandPerforms oneScript "/app" ["--watch", "-T"] oneTask "default" cli := by
  refine ⟨⟨⟨none, .run "build", 0⟩, rfl, loadsScript_memory rfl, fun h => ?_⟩,
    ⟨none, .watch "-T", 2⟩, rfl, loadsScript_disk rfl, fun h => ?_⟩
  · rw [dispatch_iff (c := ⟨none, .run "build", 0⟩) rfl (loadsScript_memory rfl)] at h
    obtain ⟨kept, hkept, hperforms⟩ := h
    cases hkept
    have htask := (performs_first (by decide)).mp hperforms
    exact absurd htask (by decide)
  · have hdir : commandCwdFromArgs "/app" ["--watch", "-T"] = some (.ok "/app") := rfl
    rw [command_iff rfl hdir (c := ⟨none, .watch "-T", 2⟩) rfl,
      commandIn_iff (c := ⟨none, .watch "-T", 2⟩) rfl (loadsScript_disk rfl)] at h
    obtain ⟨-, -, kept, hkept, hperforms⟩ := h
    cases hkept
    have htask := performs_watch.mp hperforms
    exact absurd htask (by decide)

end Mulp.Entry
