import Mathlib.Data.List.Perm.Basic
import Mulp.Core.AsyncTask

/-! What `async_parallel` and `async_parallel_settle` report about their
children, over every interleaving: the error list holds an entry for each child
whose `execute` returned `Err`, in the order of their ends. A child that raised
leaves no entry. -/
namespace Mulp.Core

def Proc.returnedOk : Proc → Bool
  | .finished _ _ c => c.isOk
  | _ => false

def Proc.raised : Proc → Bool
  | .finished _ _ .raised => true
  | _ => false

/-- The entry the closure of a spawned child records. -/
def Proc.errorEntry : Proc → Option (String × String)
  | .finished name _ (.returned (.error err)) => some (name, err.message)
  | _ => none

@[simp] theorem returnedOk_finished (name : String) (entered : Bool) (c : Completion) :
    (Proc.finished name entered c).returnedOk = c.isOk := rfl
@[simp] theorem raised_returned (name : String) (entered : Bool) (r : TaskResult) :
    (Proc.finished name entered (.returned r)).raised = false := rfl
@[simp] theorem raised_raised (name : String) (entered : Bool) :
    (Proc.finished name entered .raised).raised = true := rfl
@[simp] theorem entry_ok (name : String) (entered : Bool) (u : Unit) :
    (Proc.finished name entered (.returned (.ok u))).errorEntry = none := rfl
@[simp] theorem entry_error (name : String) (entered : Bool) (err : MulpError) :
    (Proc.finished name entered (.returned (.error err))).errorEntry = some (name, err.message) :=
    rfl
@[simp] theorem entry_raised (name : String) (entered : Bool) :
    (Proc.finished name entered .raised).errorEntry = none := rfl

/-- The names of the children whose `execute` did not return `Ok`. -/
def failedNames (children : List Proc) : List String :=
  (children.filter fun p => !p.returnedOk).map Proc.name

/-- The combinator reports its children exactly: `Ok` iff every child's `execute` returned `Ok`, and
otherwise an `Err` with one entry for each child whose `execute` did not. The entries are in the
order in which the children end, which is any order. -/
structure ReportsExactly (children : List Proc) (c : Completion) : Prop where
  ok_iff : c = .returned (.ok ()) ↔ ∀ p ∈ children, p.returnedOk = true
  entries : c ≠ .returned (.ok ()) → ∃ errors, c = .returned (.error (.parallelFailed errors)) ∧
    (errors.map Prod.fst).Perm (failedNames children)

theorem onChild_errors (kind : GroupKind) (p : Proc) (sh : Shared)
    (errors : List (String × String)) :
    (onChild kind p sh errors).2 = errors ++ p.errorEntry.toList := by
  unfold onChild Proc.errorEntry
  split <;> simp_all

theorem Step.entry_eq_none {ctx sh p sh' p'} (h : Step ctx sh p sh' p') : p.errorEntry = none := by
  cases h <;> rfl

/-- The children keep the names of their tasks, and the error list holds the entries of the children
in some order. A child that is over has its entry in the list already, since the closure that runs
it appends the entry in the same step. -/
structure GroupInv (tasks : List AsyncTask) (children : List Proc)
    (errors : List (String × String)) : Prop where
  names : children.map Proc.name = tasks.map AsyncTask.name
  errors : errors.Perm (children.filterMap Proc.errorEntry)

theorem GroupInv.spawned (tasks : List AsyncTask) : GroupInv tasks (tasks.map .pending) [] := by
  refine ⟨by simp [Proc.name, Function.comp_def], ?_⟩
  have hnone : (tasks.map Proc.pending).filterMap Proc.errorEntry = [] := by
    simp [List.filterMap_eq_nil_iff, Proc.errorEntry]
  rw [hnone]

/-- A child's step appends its entry, if the step ended it with an `Err`. -/
theorem GroupInv.child {ctx sh sh' tasks kind p p' pre post errors}
    (h : GroupInv tasks (pre ++ p :: post) errors) (hstep : Step ctx sh p sh' p') :
    GroupInv tasks (pre ++ p' :: post) (onChild kind p' sh' errors).2 := by
  constructor
  · rw [← h.names]
    simp [hstep.name_eq]
  · have herr := h.errors
    rw [onChild_errors]
    simp only [List.filterMap_append, List.filterMap_cons, hstep.entry_eq_none] at herr ⊢
    cases p'.errorEntry with
    | none => simpa using herr
    | some e =>
        refine (herr.append_right [e]).trans ?_
        rw [List.append_assoc]
        exact List.perm_append_comm.append_left _ |>.trans (by simp)

/-- Every state of the combinator before its end is a group that satisfies the
invariant. -/
theorem group_inv {ctx sh kind state name tasks sh' p}
    (hrun : OpenSteps ctx (sh, spawnAll kind state name tasks) (sh', p)) :
    p.isFinished = true ∨ ∃ children errors,
      p = .group kind state name children errors ∧ GroupInv tasks children errors := by
  generalize hb : (sh', p) = b at hrun
  induction hrun generalizing sh' p with
  | refl =>
      cases hb
      exact .inr ⟨_, _, rfl, .spawned tasks⟩
  | @tail a b hrun hstep ih =>
      cases hb
      rcases ih rfl with hfin | ⟨children, errors, hgroup, hinv⟩
      · rcases hstep with hstep | ⟨-, hsame⟩
        · rw [hstep.not_finished] at hfin
          cases hfin
        · rw [show p = a.2 from hsame]
          exact .inl hfin
      · rcases hstep with hstep | ⟨-, hsame⟩
        · rw [hgroup] at hstep
          cases hstep with
          | child hchild => exact .inr ⟨_, _, rfl, hinv.child hchild⟩
          | groupEnd hall => exact .inl rfl
        · exact .inr ⟨children, errors, hsame.trans hgroup, hinv⟩

/-- Among finished children, those that did not return `Ok` are those with an
entry and those that raised. -/
theorem failedNames_length (children : List Proc) (hall : ∀ p ∈ children, p.isFinished = true) :
    (failedNames children).length = (children.filterMap Proc.errorEntry).length +
      (children.filter Proc.raised).length := by
  induction children with
  | nil => rfl
  | cons p rest ih =>
      have hrest := ih fun q hq => hall q (List.mem_cons_of_mem p hq)
      have hp := hall p List.mem_cons_self
      simp only [failedNames, List.length_map] at hrest ⊢
      match p, hp with
      | .finished _ _ (.returned (.ok _)), _ =>
          simpa [List.filterMap_cons, Completion.isOk] using hrest
      | .finished _ _ (.returned (.error _)), _ =>
          simp [Completion.isOk, hrest]
          omega
      | .finished _ _ .raised, _ =>
          simp [List.filterMap_cons, List.filter_cons, Completion.isOk, hrest]
          omega

/-- Without a raise the entries name exactly the children that did not return
`Ok`. -/
theorem failedNames_eq (children : List Proc) (hall : ∀ p ∈ children, p.isFinished = true)
    (hraise : ∀ p ∈ children, p.raised = false) :
    (children.filterMap Proc.errorEntry).map Prod.fst = failedNames children := by
  induction children with
  | nil => rfl
  | cons p rest ih =>
      have hrest := ih (fun q hq => hall q (List.mem_cons_of_mem p hq))
        fun q hq => hraise q (List.mem_cons_of_mem p hq)
      simp only [failedNames] at hrest ⊢
      match p, hall p List.mem_cons_self, hraise p List.mem_cons_self with
      | .finished _ _ (.returned (.ok _)), _, _ =>
          simpa [List.filterMap_cons, Completion.isOk] using hrest
      | .finished _ _ (.returned (.error _)), _, _ =>
          simpa [List.filterMap_cons, Completion.isOk, Proc.name] using hrest

theorem failedNames_eq_nil_iff (children : List Proc) :
    failedNames children = [] ↔ ∀ p ∈ children, p.returnedOk = true := by
  simp [failedNames, List.filter_eq_nil_iff]

theorem reportsExactly_of_perm {children errors}
    (h : (errors.map Prod.fst).Perm (failedNames children)) :
    ReportsExactly children (.returned (groupResult errors)) := by
  have hnil : errors = [] ↔ failedNames children = [] := by
    constructor
    · rintro rfl
      exact h.nil_eq.symm
    · intro hf
      rw [hf] at h
      exact List.map_eq_nil_iff.mp h.eq_nil
  refine ⟨?_, fun hne => ⟨errors, ?_, h⟩⟩
  · rw [← failedNames_eq_nil_iff, ← hnil]
    cases errors <;> simp [groupResult]
  · cases errors with
    | nil => exact absurd rfl hne
    | cons e rest => rfl

theorem ReportsExactly.perm {children errors}
    (h : ReportsExactly children (.returned (groupResult errors))) :
    (errors.map Prod.fst).Perm (failedNames children) := by
  cases errors with
  | nil =>
      have hall := h.ok_iff.mp rfl
      rw [(failedNames_eq_nil_iff children).mpr hall]
      simp
  | cons e rest =>
      have hne : Completion.returned (groupResult (e :: rest)) ≠ .returned (.ok ()) := by
        simp [groupResult]
      obtain ⟨errors, heq, hperm⟩ := h.entries hne
      have hsame : e :: rest = errors := by simpa [groupResult] using heq
      rwa [hsame]

/-- In every run of either combinator to its return, whatever its children do
and whoever else cancels the token, the report is exact if and only if no child
raised. -/
theorem asyncGroup_reportsExactly_iff {ctx : Context} {kind : GroupKind} {state : Nat}
    {name name' : String} {tasks : List AsyncTask} {sh sh₁ sh₂ : Shared} {children : List Proc}
    {errors : List (String × String)} {entered : Bool} {c : Completion}
    (hrun : OpenSteps ctx (sh, spawnAll kind state name tasks)
      (sh₁, .group kind state name children errors))
    (hret : Step ctx sh₁ (.group kind state name children errors) sh₂
      (.finished name' entered c)) :
    ReportsExactly children c ↔ ∀ p ∈ children, p.raised = false := by
  have hinv : GroupInv tasks children errors := by
    rcases group_inv hrun with hfin | ⟨children', errors', heq, hinv⟩
    · cases hfin
    · cases heq
      exact hinv
  cases hret with
  | groupEnd hall =>
      constructor
      · intro hreport
        have hlen := hreport.perm.length_eq
        rw [List.length_map, hinv.errors.length_eq, failedNames_length children hall] at hlen
        have hnone : children.filter Proc.raised = [] := List.length_eq_zero_iff.mp (by omega)
        simpa [List.filter_eq_nil_iff] using hnone
      · intro hraise
        refine reportsExactly_of_perm ?_
        rw [← failedNames_eq children hall hraise]
        exact hinv.errors.map Prod.fst

/-- A live token and no stamps. -/
def Shared.fresh : Shared := ⟨false, fun _ => none⟩

/-- A leaf whose call ends with `c`. -/
def leafEnding (name : String) (c : Completion) : AsyncTask := .newAsyncTask 1 name ⟨[c], false⟩

theorem Step.onlyChild {ctx sh sh' p p'} (h : Step ctx sh p sh' p') (kind : GroupKind)
    (state : Nat) (name : String) (errors : List (String × String)) :
    Step ctx sh (.group kind state name [p] errors) (onChild kind p' sh' errors).1
      (.group kind state name [p'] (onChild kind p' sh' errors).2) :=
  @Step.child ctx sh sh' kind state name p p' [] [] errors h

/-- The run of a combinator over the one child `a` that calls its closure. -/
theorem single_child_run (ctx : Context) (kind : GroupKind) (state : Nat) (c : Completion) :
    OpenSteps ctx (.fresh, spawnAll kind state "parallel" [leafEnding "a" c])
      ((onChild kind (.finished "a" true c) (finish ctx 1 .fresh c) []).1,
        .group kind state "parallel" [.finished "a" true c]
          (onChild kind (.finished "a" true c) (finish ctx 1 .fresh c) []).2) := by
  have henter : Step ctx .fresh (.pending (leafEnding "a" c)) .fresh (.body 1 "a" ⟨[c], false⟩) :=
    .enter rfl rfl
  have hend : Step ctx .fresh (.body 1 "a" ⟨[c], false⟩) (finish ctx 1 .fresh c)
      (.finished "a" true c) := .bodyEnd (by simp)
  have hfirst := henter.onlyChild kind state "parallel" []
  have hlast := hend.onlyChild kind state "parallel" []
  exact OpenSteps.step (OpenSteps.step .refl hfirst) hlast

theorem OpenSteps.child {ctx a sh sh' kind state name p p' errors} (pre post : List Proc)
    (h : OpenSteps ctx a (sh, .group kind state name (pre ++ p :: post) errors))
    (hstep : Step ctx sh p sh' p') :
    OpenSteps ctx a ((onChild kind p' sh' errors).1,
      .group kind state name (pre ++ p' :: post) (onChild kind p' sh' errors).2) :=
  h.step (.child hstep)

/-- `a` and `b` are under way when `b` fails, which cancels the token; `c` is refused, and `a` goes
on to its end. -/
theorem refused_child_reportsExactly :
    ReportsExactly
      [.finished "a" true (.returned (.ok ())),
        .finished "b" true (.returned (.error (.taskFailed "b" "no"))),
        .finished "c" false (.returned (.error (.taskFailed "c" "cancelled")))]
      (.returned (.error (.parallelFailed [("b", (MulpError.taskFailed "b" "no").message),
        ("c", (MulpError.taskFailed "c" "cancelled").message)]))) := by
  let ok : Completion := .returned (.ok ())
  let failed : Completion := .returned (.error (.taskFailed "b" "no"))
  let ctx : Context := ⟨".", 0⟩
  have hstart : OpenSteps ctx
      (.fresh, spawnAll .parallel 0 "parallel" [leafEnding "a" ok, leafEnding "b" failed, leafEnding "c" ok])
      (.fresh, .group .parallel 0 "parallel"
        ([] ++ .pending (leafEnding "a" ok) :: [.pending (leafEnding "b" failed), .pending (leafEnding "c" ok)])
        []) := .refl
  have ha := hstart.child [] _ (.enter rfl rfl)
  have hb := OpenSteps.child [.body 1 "a" ⟨[ok], false⟩] [.pending (leafEnding "c" ok)] ha (.enter rfl rfl)
  have hfail := OpenSteps.child [.body 1 "a" ⟨[ok], false⟩] [.pending (leafEnding "c" ok)] hb
    (.bodyEnd (List.mem_singleton_self failed))
  have hrefuse := OpenSteps.child
    [.body 1 "a" ⟨[ok], false⟩, .finished "b" true failed] [] hfail (.refuse rfl)
  have hend := OpenSteps.child []
    [.finished "b" true failed, .finished "c" false (.returned (.error (.taskFailed "c" "cancelled")))]
    hrefuse (.bodyEnd (List.mem_singleton_self ok))
  refine (asyncGroup_reportsExactly_iff hend (.groupEnd ?_)).mpr ?_
  · simp [Proc.isFinished]
  · simp [ok, failed]

/-- `async_parallel([a])` returns `Ok` after `a` raised. -/
theorem raising_child_not_reported : ∃ sh sh',
    OpenSteps ⟨".", 0⟩ (.fresh, spawnAll .parallel 0 "parallel" [leafEnding "a" .raised])
      (sh, .group .parallel 0 "parallel" [.finished "a" true .raised] []) ∧
    Step ⟨".", 0⟩ sh (.group .parallel 0 "parallel" [.finished "a" true .raised] []) sh'
      (.finished "parallel" true (.returned (.ok ()))) ∧
    ¬ ReportsExactly [.finished "a" true .raised] (.returned (.ok ())) := by
  refine ⟨_, _, single_child_run ⟨".", 0⟩ .parallel 0 .raised,
    .groupEnd (by simp [Proc.isFinished]), fun h => ?_⟩
  have hok := h.ok_iff.mp rfl _ List.mem_cons_self
  cases hok

end Mulp.Core
