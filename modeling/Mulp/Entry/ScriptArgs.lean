import Mulp.Cli.Scanners
import Mulp.Entry.Command

/-! What a script does with the arguments that the command leaves it
(`cli/dispatch.mbt`, `cmd/mulp/main.mbt`, `entry/register.mbt`, `entry/run.mbt`). -/
namespace Mulp.Entry

open Mulp.Core Mulp.Text Mulp.Cli

/-! ## What the script does -/

/-- The script looks up and executes this task and no other. -/
def Executes (registry : Registry) (args : List String) (defaultTask task : String) : Prop :=
  (∃ err, renderArgs registry args = .error err) ∧ taskName (effective args defaultTask) = some task

/-- `run` is then that of the one task. -/
theorem Executes.run_eq {registry : Registry} {args : List String} {defaultTask task : String}
    (h : Executes registry args defaultTask task) (nowMs : Int) (s : RunState) :
    run registry args defaultTask nowMs s =
      match registry.require task with
      | .error err => ("error: " ++ err.message ++ "\n", newToken s)
      | .ok found =>
          match found.execute (newContext nowMs) (newToken s) with
          | (.ok _, s) => ("", s)
          | (.error err, s) => ("error: " ++ err.message ++ "\n", s) := by
  obtain ⟨⟨err, hrender⟩, hname⟩ := h
  rw [run, hrender]
  dsimp only
  rw [runArgs, hname]
  dsimp only
  cases registry.require task with
  | error err => rfl
  | ok found =>
      obtain ⟨result | result, after⟩ := found.execute (newContext nowMs) (newToken s)
      · rfl
      · rfl

/-- `run(registry, ["entry"] + script_args, default_task)` does what the arguments
of the command say. -/
def Performs (registry : Registry) (scriptArgs : List String) (defaultTask : String) (cli : CliArgs) :
    Prop :=
  match cli.action with
  | .run task | .watch task => Executes registry ("entry" :: scriptArgs) defaultTask task
  | .listTasks | .tasksJson | .tree _ =>
      renderArgs registry ("entry" :: scriptArgs) = renderCliOutput cli registry

/-- The task of an action that executes one. -/
def actionTask : CliAction → Option String
  | .run task | .watch task => some task
  | .listTasks | .tasksJson | .tree _ => none

section Script

variable {registry : Registry} {scriptArgs rest : List String} {defaultTask task : String} {cli : CliArgs}

/-- A first argument other than `--watch` is the task. -/
theorem taskName_first (h : task ≠ "--watch") : taskName ("entry" :: task :: rest) = some task := by
  unfold taskName
  split
  · next heq =>
      injection heq with _ heq
      injection heq with htask _
      exact absurd htask h
  · next heq =>
      injection heq with _ heq
      injection heq with htask _
      rw [htask]
  · next hshort => exact absurd rfl (hshort _ _ _)

/-- Arguments that render nothing execute one task. -/
theorem performs_iff_of_task (hrender : isRenderArgument ("entry" :: scriptArgs) = false)
    (hname : taskName (effective ("entry" :: scriptArgs) defaultTask) = some task) :
    Performs registry scriptArgs defaultTask cli ↔ actionTask cli.action = some task := by
  have herror := (renderArgs_error_iff registry ("entry" :: scriptArgs)).mpr hrender
  have hexecutes (other : String) :
      Executes registry ("entry" :: scriptArgs) defaultTask other ↔ some other = some task := by
    rw [Executes, and_iff_right herror, hname, eq_comm]
  have hrenders {output : String} : ¬ renderArgs registry ("entry" :: scriptArgs) = .ok output := by
    obtain ⟨err, herr⟩ := herror
    rw [herr]
    nofun
  obtain ⟨configPath, action, logLevel⟩ := cli
  cases action with
  | run other => exact hexecutes other
  | watch other => exact hexecutes other
  | _ => exact iff_of_false hrenders nofun

theorem performs_nil :
    Performs registry [] defaultTask cli ↔ actionTask cli.action = some defaultTask := by
  refine performs_iff_of_task rfl ?_
  by_cases hwatch : defaultTask = "--watch"
  · subst hwatch
    rfl
  · exact taskName_first hwatch

/-- The first argument is a task, unless it is a flag of the script. -/
theorem performs_first (h : task ∉ ["--tasks", "--tasks-json", "--tree", "--watch"]) :
    Performs registry (task :: rest) defaultTask cli ↔ actionTask cli.action = some task := by
  simp only [List.mem_cons, List.not_mem_nil, or_false, not_or] at h
  refine performs_iff_of_task ?_ ?_
  · simp [isRenderArgument, h]
  · rw [effective, if_pos (by simp)]
    exact taskName_first h.2.2.2

theorem performs_watch : Performs registry ("--watch" :: task :: rest) defaultTask cli ↔
    actionTask cli.action = some task :=
  performs_iff_of_task rfl (by simp [effective, taskName])

theorem performs_watch_nil : Performs registry ["--watch"] defaultTask cli ↔
    actionTask cli.action = some "--watch" :=
  performs_iff_of_task rfl rfl

theorem performs_tasks (h : cli.action = .listTasks) :
    Performs registry ("--tasks" :: rest) defaultTask cli := by
  simp only [Performs, renderCliOutput, h]
  rfl

theorem performs_tasksJson (h : cli.action = .tasksJson) :
    Performs registry ("--tasks-json" :: rest) defaultTask cli := by
  simp only [Performs, renderCliOutput, h]
  rfl

theorem performs_tree (h : cli.action = .tree task) :
    Performs registry ("--tree" :: rest) defaultTask cli := by
  simp only [Performs, renderCliOutput, h]
  rfl

end Script

/-! ## What is left for it -/

section Left

variable {registry : Registry} {defaultTask : String} {configPath : Option String} {level : Int}
  {keep : String → Bool} {arg : String} {rest more : List String}

theorem withoutPairs_kept (harg : isConfigPathFlag arg = false)
    (hrest : withoutPairs isConfigPathFlag rest = .ok more) :
    withoutPairs isConfigPathFlag (arg :: rest) = .ok (arg :: more) := by
  rw [withoutPairs_other harg, hrest]
  rfl

theorem normalize_kept (hkeep : keep arg = true) (harg : ¬ (arg = "--tasks-simple" ∨ arg = "-T")) :
    normalizeScriptArgs ((arg :: more).filter keep) =
      arg :: normalizeScriptArgs (more.filter keep) := by
  rw [List.filter_cons_of_pos hkeep, normalizeScriptArgs, List.map_cons, if_neg harg]
  rfl

theorem normalize_alias (hkeep : keep arg = true) (harg : arg = "--tasks-simple" ∨ arg = "-T") :
    normalizeScriptArgs ((arg :: more).filter keep) =
      "--tasks" :: normalizeScriptArgs (more.filter keep) := by
  rw [List.filter_cons_of_pos hkeep, normalizeScriptArgs, List.map_cons, if_pos harg]
  rfl

theorem mem_normalizeScriptArgs {args : List String} (h : arg ∈ normalizeScriptArgs args) :
    arg = "--tasks" ∨ arg ∈ args := by
  obtain ⟨other, hother, harg⟩ := List.mem_map.mp h
  split_ifs at harg with halias
  · exact .inl harg.symm
  · exact .inr (harg ▸ hother)

theorem TaskName.free (task : TaskName) : isConfigPathFlag task.text = false ∧
    isLogFlag task.text = false ∧ ¬ (task.text = "--tasks-simple" ∨ task.text = "-T") ∧
    task.text ∉ ["--tasks", "--tasks-json", "--tree", "--watch"] := by
  obtain ⟨text, hflag, hshort⟩ := task
  have hne {flag : String} (h : hasPrefix flag "--" = true) : text ≠ flag := by
    rintro rfl
    rw [hflag] at h
    cases h
  refine ⟨?_, ?_, ?_, ?_⟩
  · rw [Bool.eq_false_iff]
    intro h
    exact hne (isConfigPathFlag_dashes h) rfl
  · rw [Bool.eq_false_iff, Ne, isLogFlag_iff, not_or]
    exact ⟨hne rfl, hne rfl⟩
  · exact not_or.mpr ⟨hne rfl, hshort⟩
  · simp only [List.mem_cons, List.not_mem_nil, or_false, not_or]
    exact ⟨hne rfl, hne rfl, hne rfl, hne rfl⟩

/-- What is asked for is left when the configuration paths are taken out, and then
the arguments that are not to be kept. -/
def Survives (keep : String → Bool) (rest : List String) : Request → Prop
  | .watch task => isConfigPathFlag task = false ∧ keep task = true ∧
      ¬ (task = "--tasks-simple" ∨ task = "-T")
  | .tree task => ValuesGiven isConfigPathFlag (task :: rest)
  | .run _ | .listTasks _ | .tasksJson => True

/-- What a script that watches is told to watch is what is left after `--watch`. -/
theorem watched_left {task : String} (hkeep : ∀ arg, isLogFlag arg = false → keep arg = true)
    {kept : List String}
    (hkept : withoutPairs isConfigPathFlag ("--watch" :: task :: rest) = .ok kept)
    (hperforms : Performs registry (normalizeScriptArgs (kept.filter keep)) defaultTask
      ⟨configPath, .watch task, level⟩) : isConfigPathFlag task = false ∧ keep task = true := by
  rw [withoutPairs_other rfl] at hkept
  cases hmore : withoutPairs isConfigPathFlag (task :: rest) with
  | error err =>
      rw [hmore] at hkept
      cases hkept
  | ok left =>
      rw [hmore] at hkept
      cases hkept
      have hnormal : normalizeScriptArgs (("--watch" :: left).filter keep) =
          "--watch" :: normalizeScriptArgs (left.filter keep) :=
        normalize_kept (hkeep _ rfl) (by decide)
      have hmem : task = "--watch" ∨ task ∈ normalizeScriptArgs (left.filter keep) := by
        rw [hnormal] at hperforms
        cases hargs : normalizeScriptArgs (left.filter keep) with
        | nil =>
            -- nothing is left after the flag, and the script executes `--watch`
            rw [hargs, performs_watch_nil] at hperforms
            exact .inl (Option.some.inj hperforms)
        | cons first others =>
            rw [hargs, performs_watch] at hperforms
            rw [Option.some.inj hperforms]
            exact .inr List.mem_cons_self
      rcases hmem with rfl | hmem
      · exact ⟨rfl, hkeep _ rfl⟩
      · rcases mem_normalizeScriptArgs hmem with rfl | hmem
        · exact ⟨rfl, hkeep _ rfl⟩
        · rw [List.mem_filter] at hmem
          exact ⟨withoutPairs_free hmore task hmem.1, hmem.2⟩

/-- The script watches the task that follows, if it is one that is left. -/
theorem performs_watched {task : String} (hkeep : ∀ arg, isLogFlag arg = false → keep arg = true)
    (hrest : withoutPairs isConfigPathFlag rest = .ok more) :
    (∃ kept, withoutPairs isConfigPathFlag ("--watch" :: task :: rest) = .ok kept ∧
      Performs registry (normalizeScriptArgs (kept.filter keep)) defaultTask
        ⟨configPath, .watch task, level⟩) ↔ Survives keep rest (.watch task) := by
  have hnormal (left : List String) : normalizeScriptArgs (("--watch" :: left).filter keep) =
      "--watch" :: normalizeScriptArgs (left.filter keep) :=
    normalize_kept (hkeep _ rfl) (by decide)
  have hall (h : isConfigPathFlag task = false) :
      withoutPairs isConfigPathFlag ("--watch" :: task :: rest) = .ok ("--watch" :: task :: more) :=
    withoutPairs_kept rfl (withoutPairs_kept h hrest)
  constructor
  · rintro ⟨kept, hkept, hperforms⟩
    obtain ⟨hconfig, htask⟩ := watched_left hkeep hkept hperforms
    refine ⟨hconfig, htask, fun halias => ?_⟩
    -- a task of these names is taken for `--tasks`
    cases (hall hconfig).symm.trans hkept
    rw [hnormal, normalize_alias htask halias, performs_watch] at hperforms
    have heq : task = "--tasks" := Option.some.inj hperforms
    rw [heq] at halias
    exact absurd halias (by decide)
  · rintro ⟨hconfig, htask, hname⟩
    refine ⟨_, hall hconfig, ?_⟩
    rw [hnormal, normalize_kept htask hname, performs_watch]
    rfl

/-- The script does what is asked for exactly if that is left. -/
theorem performs_request (hkeep : ∀ arg, isLogFlag arg = false → keep arg = true)
    (hrest : withoutPairs isConfigPathFlag rest = .ok more) (request : Request) :
    (∃ kept, withoutPairs isConfigPathFlag (request.args ++ rest) = .ok kept ∧
      Performs registry (normalizeScriptArgs (kept.filter keep)) defaultTask
        ⟨configPath, request.action, level⟩) ↔ Survives keep rest request := by
  cases request with
  | run task =>
      obtain ⟨hconfig, hlog, halias, hscript⟩ := TaskName.free task
      refine iff_of_true ⟨_, withoutPairs_kept hconfig hrest, ?_⟩ trivial
      rw [normalize_kept (hkeep _ hlog) halias, performs_first hscript]
      rfl
  | listTasks flag =>
      have hconfig : isConfigPathFlag flag.text = false := by cases flag <;> rfl
      have hlog : isLogFlag flag.text = false := by cases flag <;> rfl
      refine iff_of_true ⟨_, withoutPairs_kept hconfig hrest, ?_⟩ trivial
      cases flag with
      | tasks =>
          rw [normalize_kept (hkeep _ hlog) (by decide)]
          exact performs_tasks rfl
      | tasksSimple =>
          rw [normalize_alias (hkeep _ hlog) (by decide)]
          exact performs_tasks rfl
      | short =>
          rw [normalize_alias (hkeep _ hlog) (by decide)]
          exact performs_tasks rfl
  | tasksJson =>
      refine iff_of_true ⟨_, withoutPairs_kept rfl hrest, ?_⟩ trivial
      rw [normalize_kept (hkeep _ rfl) (by decide)]
      exact performs_tasksJson rfl
  | tree task =>
      -- the flag alone makes the script print its tree, whatever follows it
      have htree {left : List String} (hleft : withoutPairs isConfigPathFlag (task :: rest) =
          .ok left) :
          withoutPairs isConfigPathFlag (Request.args (.tree task) ++ rest) =
          .ok ("--tree" :: left) :=
        withoutPairs_kept rfl hleft
      rw [Survives, ← withoutPairs_ok_iff]
      constructor
      · rintro ⟨kept, hkept, -⟩
        cases hmore : withoutPairs isConfigPathFlag (task :: rest) with
        | error err =>
            have herror : withoutPairs isConfigPathFlag (Request.args (.tree task) ++ rest) =
                .error err := by
              show withoutPairs isConfigPathFlag ("--tree" :: task :: rest) = _
              rw [withoutPairs_other rfl, hmore]
              rfl
            rw [herror] at hkept
            cases hkept
        | ok left => exact ⟨left, rfl⟩
      · rintro ⟨left, hleft⟩
        refine ⟨_, htree hleft, ?_⟩
        rw [normalize_kept (hkeep _ rfl) (by decide)]
        exact performs_tree rfl
  | watch task => exact performs_watched hkeep hrest

end Left

end Mulp.Entry
