import Mulp.Core.Outcome

/-! The order in which the coroutines of a task tree run (`moonbitlang/async`,
`internal/coroutine` and `task_group.mbt`).

Every child of a task group is a coroutine, and so is the function that spawns
the children. A coroutine that is spawned, or woken, goes to the end of
`run_later`; the one at its head runs until it suspends. So the queue decides
which of two coroutines that are both ready comes first, and the only freedom
left is when a leaf's closure suspends and when something wakes it. -/
namespace Mulp.Core

/-- Where a coroutine has come to. The places in the queue are numbered in the
order in which they are given out, and a coroutine keeps the number of its last
one: with it, it stands in the queue, runs, or waits to be woken. -/
inductive Coroutine where
  /-- `execute(ctx)` is not called yet. -/
  | pending (ticket : Nat) (task : AsyncTask)
  /-- In a leaf's closure, which has suspended unless it is `ready`. -/
  | body (ticket : Nat) (ready : Bool) (state : Nat) (name : String) (run : AsyncBody)
  /-- At the head of the loop of `async_series`. -/
  | seriesHead (ticket : Nat) (state : Nat) (rest : List AsyncTask)
  /-- In the `execute` of an item of `async_series`. -/
  | series (state : Nat) (current : Coroutine) (rest : List AsyncTask)
  /-- Suspended in `with_task_group`, whose function stands in the queue with
  the ticket, to spawn the children. -/
  | fork (ticket : Nat) (kind : GroupKind) (state : Nat) (name : String) (tasks : List AsyncTask)
  /-- Suspended in `with_task_group`, until the last child wakes it: then `join`
  is its ticket. -/
  | group (join : Option Nat) (kind : GroupKind) (state : Nat) (name : String)
      (children : List Coroutine) (errors : List (String × String))
  /-- In the `execute` of the source of `async_task_from`. -/
  | source (state : Nat) (name : String) (inner : Coroutine)
  /-- `execute` is over. -/
  | finished (ticket : Nat) (name : String) (entered : Bool) (completion : Completion)

namespace Coroutine

def isFinished : Coroutine → Bool
  | .finished _ _ _ _ => true
  | _ => false

mutual
/-- The execution without its places in the queue: each turn of the scheduler is a step of it, or
none. -/
def erase : Coroutine → Proc
  | .pending _ t => .pending t
  | .body _ _ state name run => .body state name run
  | .seriesHead _ state rest => .seriesHead state rest
  | .series state current rest => .series state current.erase rest
  | .fork _ kind state name tasks => spawnAll kind state name tasks
  | .group _ kind state name children errors =>
      .group kind state name (eraseAll children) errors
  | .source state name inner => .source state name inner.erase
  | .finished _ name entered c => .finished name entered c

def eraseAll : List Coroutine → List Proc
  | [] => []
  | p :: rest => p.erase :: eraseAll rest
end

mutual
/-- The tickets of the coroutines that are ready. One that is over is not, but
what has ended within it goes on. -/
def queued : Coroutine → List Nat
  | .pending ticket _ => [ticket]
  | .body ticket ready _ _ _ => if ready then [ticket] else []
  | .seriesHead ticket _ _ => [ticket]
  | .series _ current _ => current.queued
  | .fork ticket _ _ _ _ => [ticket]
  | .group (some ticket) _ _ _ _ _ => [ticket]
  | .group none _ _ _ children _ => queuedAll children
  | .source _ _ inner => inner.queued
  | .finished ticket _ _ _ => [ticket]

def queuedAll : List Coroutine → List Nat
  | [] => []
  | p :: rest => (if p.isFinished then [] else p.queued) ++ queuedAll rest
end

end Coroutine

/-- The loop of `spawn_bg` calls; `fresh i` is the ticket that is given out
after `i` others. -/
def spawned (fresh : Nat → Nat) : List AsyncTask → List Coroutine
  | [] => []
  | t :: rest => .pending (fresh 0) t :: spawned (fun i => fresh (i + 1)) rest

/-- The end of a child, or of the function that spawns them, wakes the parent
when no child is left. -/
def joinTicket (fresh : Nat → Nat) (used : Nat) (children : List Coroutine) : Option Nat × Nat :=
  if children.all (·.isFinished) then (some (fresh used), used + 1) else (none, used)

/-- The task's `run`, entered by the coroutine with the ticket, and how many
tickets this gives out. -/
def AsyncTask.enterAt (ticket : Nat) (fresh : Nat → Nat) : AsyncTask → Coroutine × Nat
  | .newAsyncTask state name run => (.body ticket true state name run, 0)
  | .asyncSeries state tasks => (.seriesHead ticket state tasks, 0)
  | .asyncParallel state tasks => (.fork (fresh 0) .parallel state "parallel" tasks, 1)
  | .asyncParallelSettle state tasks =>
      (.fork (fresh 0) .settle state (AsyncTask.asyncParallelSettle state tasks).name tasks, 1)
  | .asyncTaskFrom state name inner => (.source state name (.pending ticket inner), 0)

/-- What the coroutine with the ticket `now` does next, and how many tickets it
gives out. Until it suspends it keeps its ticket. -/
inductive Resumes (ctx : Context) (now : Nat) (fresh : Nat → Nat) :
    Shared → Coroutine → Shared → Coroutine → Nat → Prop where
  /-- `AsyncTask::execute` finds the token cancelled. -/
  | refuse {sh : Shared} {t : AsyncTask} (h : sh.cancelled = true) :
      Resumes ctx now fresh sh (.pending now t) sh
        (.finished now t.name false (.returned (.error (.taskFailed t.name "cancelled")))) 0
  /-- `AsyncTask::execute` calls `run`. -/
  | enter {sh : Shared} {t : AsyncTask} (h : sh.cancelled = false) :
      Resumes ctx now fresh sh (.pending now t) sh (t.enterAt now fresh).1 (t.enterAt now fresh).2
  | bodyCancel {sh : Shared} {state : Nat} {name : String} {run : AsyncBody}
      (h : run.cancels = true) :
      Resumes ctx now fresh sh (.body now true state name run) sh.cancel
        (.body now true state name run) 0
  | bodySuspend {sh : Shared} {state : Nat} {name : String} {run : AsyncBody} :
      Resumes ctx now fresh sh (.body now true state name run) sh
        (.body now false state name run) 0
  | bodyEnd {sh : Shared} {state : Nat} {name : String} {run : AsyncBody} {c : Completion}
      (h : c ∈ run.completions) :
      Resumes ctx now fresh sh (.body now true state name run) (finish ctx state sh c)
        (.finished now name true c) 0
  | seriesEnd {sh : Shared} {state : Nat} :
      Resumes ctx now fresh sh (.seriesHead now state [])
        (finish ctx state sh (.returned (.ok ())))
        (.finished now "series" true (.returned (.ok ()))) 0
  | seriesCancelled {sh : Shared} {state : Nat} {t : AsyncTask} {rest : List AsyncTask}
      (h : sh.cancelled = true) :
      Resumes ctx now fresh sh (.seriesHead now state (t :: rest)) sh
        (.finished now "series" true (.returned (.error (.taskFailed t.name "cancelled")))) 0
  | seriesNext {sh : Shared} {state : Nat} {t : AsyncTask} {rest : List AsyncTask}
      (h : sh.cancelled = false) :
      Resumes ctx now fresh sh (.seriesHead now state (t :: rest)) sh
        (.series state (.pending now t) rest) 0
  | seriesStep {sh sh' : Shared} {state : Nat} {p p' : Coroutine} {rest : List AsyncTask}
      {used : Nat} (h : Resumes ctx now fresh sh p sh' p' used) :
      Resumes ctx now fresh sh (.series state p rest) sh' (.series state p' rest) used
  | seriesOk {sh : Shared} {state : Nat} {name : String} {entered : Bool} {u : Unit}
      {rest : List AsyncTask} :
      Resumes ctx now fresh sh
        (.series state (.finished now name entered (.returned (.ok u))) rest) sh
        (.seriesHead now state rest) 0
  | seriesErr {sh : Shared} {state : Nat} {name : String} {entered : Bool} {err : MulpError}
      {rest : List AsyncTask} :
      Resumes ctx now fresh sh
        (.series state (.finished now name entered (.returned (.error err))) rest) sh
        (.finished now "series" true (.returned (.error err))) 0
  | seriesRaise {sh : Shared} {state : Nat} {name : String} {entered : Bool}
      {rest : List AsyncTask} :
      Resumes ctx now fresh sh (.series state (.finished now name entered .raised) rest) sh
        (.finished now "series" true .raised) 0
  /-- The group's function spawns the children, and ends. -/
  | fork {sh : Shared} {kind : GroupKind} {state : Nat} {name : String}
      {tasks : List AsyncTask} :
      Resumes ctx now fresh sh (.fork now kind state name tasks) sh
        (.group (joinTicket fresh tasks.length (spawned fresh tasks)).1 kind state name
          (spawned fresh tasks) [])
        (joinTicket fresh tasks.length (spawned fresh tasks)).2
  | child {sh sh' : Shared} {kind : GroupKind} {state : Nat} {name : String}
      {p p' : Coroutine} {pre post : List Coroutine} {errors : List (String × String)}
      {used : Nat} (h : Resumes ctx now fresh sh p sh' p' used) :
      Resumes ctx now fresh sh (.group none kind state name (pre ++ p :: post) errors)
        (onChild kind p'.erase sh' errors).1
        (.group (joinTicket fresh used (pre ++ p' :: post)).1 kind state name (pre ++ p' :: post)
          (onChild kind p'.erase sh' errors).2)
        (joinTicket fresh used (pre ++ p' :: post)).2
  /-- The parent goes on: `guard tg.children.is_empty()`. -/
  | groupEnd {sh : Shared} {kind : GroupKind} {state : Nat} {name : String}
      {children : List Coroutine} {errors : List (String × String)}
      (h : ∀ p ∈ children, p.isFinished = true) :
      Resumes ctx now fresh sh (.group (some now) kind state name children errors)
        (finish ctx state sh (.returned (groupResult errors)))
        (.finished now name true (.returned (groupResult errors))) 0
  | sourceStep {sh sh' : Shared} {state : Nat} {name : String} {p p' : Coroutine} {used : Nat}
      (h : Resumes ctx now fresh sh p sh' p' used) :
      Resumes ctx now fresh sh (.source state name p) sh' (.source state name p') used
  | sourceEnd {sh : Shared} {state : Nat} {name inner : String} {entered : Bool}
      {c : Completion} :
      Resumes ctx now fresh sh (.source state name (.finished now inner entered c))
        (finish ctx state sh c) (.finished now name true c) 0

/-- Something wakes a leaf that has suspended: a timer, a file, a process. It goes to the end of the
queue then, and this may happen at any time. -/
inductive Wakes (ticket : Nat) : Coroutine → Coroutine → Prop where
  | body {last state : Nat} {name : String} {run : AsyncBody} :
      Wakes ticket (.body last false state name run) (.body ticket true state name run)
  | series {state : Nat} {p p' : Coroutine} {rest : List AsyncTask} (h : Wakes ticket p p') :
      Wakes ticket (.series state p rest) (.series state p' rest)
  | child {kind : GroupKind} {state : Nat} {name : String} {p p' : Coroutine}
      {pre post : List Coroutine} {errors : List (String × String)} (h : Wakes ticket p p') :
      Wakes ticket (.group none kind state name (pre ++ p :: post) errors)
        (.group none kind state name (pre ++ p' :: post) errors)
  | source {state : Nat} {name : String} {p p' : Coroutine} (h : Wakes ticket p p') :
      Wakes ticket (.source state name p) (.source state name p')

/-- The scheduler: the next ticket, what the coroutines share, and the
coroutine from which all others descend. -/
structure Scheduler where
  next : Nat
  shared : Shared
  root : Coroutine

namespace Scheduler

/-- `execute` of the task is called. -/
def start (sh : Shared) (t : AsyncTask) : Scheduler := ⟨1, sh, .pending 0 t⟩

/-- One step of the head of the queue, or a leaf is woken. A coroutine that runs
has the least ticket, and those given out while it runs are larger: so it is at
the head until it suspends. -/
inductive Turn (ctx : Context) : Scheduler → Scheduler → Prop where
  | resume {s : Scheduler} {ticket used : Nat} {sh : Shared} {p : Coroutine}
      (hhead : ∀ other ∈ s.root.queued, ticket ≤ other)
      (h : Resumes ctx ticket (s.next + ·) s.shared s.root sh p used) :
      Turn ctx s ⟨s.next + used, sh, p⟩
  | wake {s : Scheduler} {p : Coroutine} (h : Wakes s.next s.root p) :
      Turn ctx s ⟨s.next + 1, s.shared, p⟩

/-- Any number of turns. -/
def Turns (ctx : Context) : Scheduler → Scheduler → Prop := Relation.ReflTransGen (Turn ctx)

end Scheduler

/-! ## The scheduler's runs are runs of the tree -/

namespace Coroutine

theorem eraseAll_eq_map (ps : List Coroutine) : eraseAll ps = ps.map erase := by
  induction ps with
  | nil => rfl
  | cons p rest ih => rw [eraseAll, ih, List.map_cons]

@[simp] theorem isFinished_erase (p : Coroutine) : p.erase.isFinished = p.isFinished := by
  cases p <;> rfl

end Coroutine

theorem eraseAll_spawned (fresh : Nat → Nat) (tasks : List AsyncTask) :
    Coroutine.eraseAll (spawned fresh tasks) = tasks.map .pending := by
  induction tasks generalizing fresh with
  | nil => rfl
  | cons t rest ih => simp [spawned, Coroutine.eraseAll, Coroutine.erase, ih]

theorem AsyncTask.erase_enterAt (ticket : Nat) (fresh : Nat → Nat) (t : AsyncTask) :
    (t.enterAt ticket fresh).1.erase = t.enter := by
  cases t <;> rfl

theorem Resumes.not_finished {ctx now fresh sh p sh' p' used}
    (h : Resumes ctx now fresh sh p sh' p' used) : p.isFinished = false := by
  cases h <;> rfl

/-- Every step is one of the tree's execution, but for those that only move
coroutines in the queue. -/
theorem Resumes.erase {ctx now fresh sh p sh' p' used}
    (h : Resumes ctx now fresh sh p sh' p' used) :
    Step ctx sh p.erase sh' p'.erase ∨ (sh' = sh ∧ p'.erase = p.erase) := by
  induction h with
  | refuse h => exact .inl (.refuse h)
  | enter h => exact .inl (.enter h (AsyncTask.erase_enterAt _ _ _))
  | bodyCancel h => exact .inl (.bodyCancel h)
  | bodySuspend => exact .inr ⟨rfl, rfl⟩
  | bodyEnd h => exact .inl (.bodyEnd h)
  | seriesEnd => exact .inl .seriesEnd
  | seriesCancelled h => exact .inl (.seriesCancelled h)
  | seriesNext h => exact .inl (.seriesNext h)
  | seriesStep _ ih =>
      rcases ih with hstep | ⟨hsh, hp⟩
      · exact .inl (.seriesStep hstep)
      · exact .inr ⟨hsh, by rw [Coroutine.erase, hp, Coroutine.erase]⟩
  | seriesOk => exact .inl .seriesOk
  | seriesErr => exact .inl .seriesErr
  | seriesRaise => exact .inl .seriesRaise
  | fork =>
      refine .inr ⟨rfl, ?_⟩
      simp only [Coroutine.erase, eraseAll_spawned, spawnAll]
  | child h ih =>
      simp only [Coroutine.erase, Coroutine.eraseAll_eq_map, List.map_append, List.map_cons]
      rcases ih with hstep | ⟨rfl, hp⟩
      · exact .inl (.child hstep)
      · -- a child that has only moved in the queue has not ended
        have hfin := h.not_finished
        rw [← Coroutine.isFinished_erase, ← hp] at hfin
        rw [onChild_of_not_finished hfin, hp]
        exact .inr ⟨rfl, rfl⟩
  | groupEnd h =>
      refine .inl (.groupEnd fun p hp => ?_)
      rw [Coroutine.eraseAll_eq_map] at hp
      obtain ⟨q, hq, rfl⟩ := List.mem_map.mp hp
      rw [Coroutine.isFinished_erase]
      exact h q hq
  | sourceStep _ ih =>
      rcases ih with hstep | ⟨hsh, hp⟩
      · exact .inl (.sourceStep hstep)
      · exact .inr ⟨hsh, by rw [Coroutine.erase, hp, Coroutine.erase]⟩
  | sourceEnd => exact .inl .sourceEnd

theorem Wakes.erase {ticket p p'} (h : Wakes ticket p p') : p'.erase = p.erase := by
  induction h with
  | body => rfl
  | series _ ih => rw [Coroutine.erase, ih, Coroutine.erase]
  | child _ ih =>
      simp only [Coroutine.erase, Coroutine.eraseAll_eq_map, List.map_append, List.map_cons, ih]
  | source _ ih => rw [Coroutine.erase, ih, Coroutine.erase]

theorem Scheduler.Turn.erase {ctx s s'} (h : Turn ctx s s') :
    Step ctx s.shared s.root.erase s'.shared s'.root.erase ∨
      (s'.shared = s.shared ∧ s'.root.erase = s.root.erase) := by
  cases h with
  | resume _ h => exact h.erase
  | wake h => exact .inr ⟨rfl, h.erase⟩

/-- What holds over every interleaving holds over the scheduler's runs. -/
theorem Scheduler.Turns.erase {ctx s s'} (h : Turns ctx s s') :
    Steps ctx (s.shared, s.root.erase) (s'.shared, s'.root.erase) := by
  induction h with
  | refl => exact .refl
  | tail _ hturn ih =>
      rcases hturn.erase with hstep | ⟨hsh, hp⟩
      · exact ih.step hstep
      · rwa [hsh, hp]

end Mulp.Core
