import Mathlib.Data.List.Induction
import Mulp.Core.AsyncTask
import Mulp.Lib.CondVar

/-! Callback tasks (`core/async_task.mbt`), and the coroutine that executes one.

What lies between two suspension points is one step. A suspended coroutine runs
again after something has woken it: a signal for which it waits, or a cancel. -/
namespace Mulp.Core

open CondVar

namespace Callback

/-- Where the call of `execute` has come to: before it, in `register`, in the wait for the
condition, or at its end. -/
inductive Phase where
  | pending
  /-- In `register`, which may be suspended. -/
  | registering
  /-- Suspended in `ready.wait()`. -/
  | waiting (waiter : Nat)
  /-- `execute` is over; `entered` tells whether it called `run`. -/
  | finished (entered : Bool) (completion : Completion)

/-- The coroutine: its place, the locals `completions` and `ready` of the task's
closure (`cond` here), whether it has been woken and whether it is being
cancelled; and the task's `last_run_ms`. -/
structure Call where
  phase : Phase
  completions : List TaskResult
  cond : Cond Unit
  woken : Bool
  cancelled : Bool
  lastRunMs : Option Int

/-- What happens next, to the coroutine or around it. -/
inductive Event where
  /-- `execute(ctx)` is called; `register` runs up to its first suspension. -/
  | execute (isCancelled : Bool)
  /-- Somebody invokes the callback, `register` itself or another coroutine. -/
  | callback (result : TaskResult)
  | registerReturns
  | registerRaises
  /-- The coroutine is cancelled from outside. -/
  | cancel
  /-- The scheduler runs the coroutine again. -/
  | resume

/-- A coroutine that has not called `execute` yet. -/
def Call.fresh (lastRunMs : Option Int) : Call := ⟨.pending, [], .empty, false, false, lastRunMs⟩

def duplicate (name : String) : MulpError := .taskFailed name "callback called more than once"

section Steps

variable (name : String) (ctx : Context)

/-- The end of `AsyncTask::execute`, after `run` has returned. -/
def Call.settle (self : Call) (result : TaskResult) : Call :=
  match result with
  | .ok _ =>
      { self with phase := .finished true (.returned (.ok ())), lastRunMs := some ctx.nowMs }
  | .error err => { self with phase := .finished true (.returned (.error err)) }

/-- From the head of the `while` loop to the next suspension, or to the end. A
wait of a coroutine that is being cancelled raises at once. -/
def Call.checkLoop (self : Call) : Call :=
  match self.completions with
  | [] =>
      let (waiter, cond) := self.cond.enqueue ()
      if self.cancelled then { self with cond := cond.leave waiter, phase := .finished true .raised }
      else { self with cond, phase := .waiting waiter, woken := false }
  | [result] => self.settle ctx result
  | _ :: _ :: _ => self.settle ctx (.error (duplicate name))

/-- The callback: `completions.push(result)` and `ready.signal()`. It may be called at any time,
also before the task waits and after it has ended. -/
def Call.invoke (self : Call) (result : TaskResult) : Call :=
  let (coro, cond) := self.cond.signal
  { self with
    completions := self.completions ++ [result]
    cond
    woken := self.woken || coro.isSome }

/-- One step; there is none for an event that cannot happen. -/
def step (self : Call) : Event → Option Call
  | .execute isCancelled =>
      match self.phase with
      | .pending =>
          if isCancelled then
            some { self with phase := .finished false (.returned (.error (.taskFailed name "cancelled"))) }
          else some { self with phase := .registering }
      | _ => none
  | .callback result =>
      match self.phase with
      | .pending => none
      | .finished false _ => none
      | _ => some (self.invoke result)
  | .registerReturns =>
      match self.phase with
      | .registering => some (self.checkLoop name ctx)
      | _ => none
  | .registerRaises =>
      match self.phase with
      | .registering => some { self with phase := .finished true .raised }
      | _ => none
  | .cancel => some { self with cancelled := true, woken := true }
  | .resume =>
      match self.phase with
      | .waiting waiter =>
          if self.woken then
            -- a cancel does not reach a waiter to which a signal has come
            if self.cancelled && !self.cond.wokenAt waiter then
              some { self with cond := self.cond.leave waiter, phase := .finished true .raised }
            else some (self.checkLoop name ctx)
          else none
      | _ => none

def run (self : Call) (events : List Event) : Option Call := events.foldlM (step name ctx) self

end Steps

/-! ## What a run comes to -/

/-- The result with which an event invokes the callback. -/
def Event.result : Event → Option TaskResult
  | .callback result => some result
  | _ => none

/-- The invocations of the callback, in order. -/
def results (events : List Event) : List TaskResult := events.filterMap Event.result

/-- What the task returns after the invocations. -/
def outcome (name : String) : List TaskResult → TaskResult
  | [result] => result
  | _ => .error (duplicate name)

def Phase.isFinished : Phase → Bool
  | .finished _ _ => true
  | _ => false

/-- `execute` ends with the event, after the ones before it. -/
def EndsAt (name : String) (ctx : Context) (start : Call) (before : List Event) (event : Event)
    (completion : Completion) : Prop :=
  ∃ earlier later, run name ctx start before = some earlier ∧ earlier.phase.isFinished = false ∧
    step name ctx earlier event = some later ∧ later.phase = .finished true completion

/-- A callback task completes exactly once: what holds after the events. -/
structure CompletesOnce (name : String) (ctx : Context) (lastRunMs : Option Int) (events : List Event)
    (s : Call) : Prop where
  /-- No wake-up is lost: a task that waits after an invocation is scheduled, and returns when it
  runs. -/
  resumes : ∀ waiter, s.phase = .waiting waiter → results events ≠ [] →
    s.woken = true ∧ ∃ later, step name ctx s .resume = some later ∧
      later.phase = .finished true (.returned (outcome name (results events)))
  /-- Without an invocation it goes on waiting, unless it is cancelled. -/
  waits : ∀ waiter, s.phase = .waiting waiter → results events = [] →
    s.woken = s.cancelled
  /-- An invocation before the wait is seen when `register` returns. -/
  registers : s.phase = .registering → results events ≠ [] →
    ∃ later, step name ctx s .registerReturns = some later ∧
      later.phase = .finished true (.returned (outcome name (results events)))
  /-- What it returned is determined by the invocations before it ended, and there were some. -/
  returned : ∀ result, s.phase = .finished true (.returned result) →
    ∃ before event after, events = before ++ event :: after ∧
      EndsAt name ctx (.fresh lastRunMs) before event (.returned result) ∧
      results before ≠ [] ∧ result = outcome name (results before)
  /-- It raises only what `register` raises, or a cancel that came before any invocation. -/
  raised : s.phase = .finished true .raised →
    ∃ before event after, events = before ++ event :: after ∧
      EndsAt name ctx (.fresh lastRunMs) before event .raised ∧
      (event = .registerRaises ∨ .cancel ∈ before ∧ results before = [])
  /-- The time of the run is recorded exactly when it returned `Ok`. -/
  stamped : s.phase = .finished true (.returned (.ok ())) ∧ s.lastRunMs = some ctx.nowMs ∨
    s.phase ≠ .finished true (.returned (.ok ())) ∧ s.lastRunMs = lastRunMs

/-! ## Runs -/

section Run

variable {name : String} {ctx : Context} {lastRunMs : Option Int} {s later : Call} {events : List Event}
  {event : Event}

theorem run_concat (start : Call) (events : List Event) (event : Event) :
    run name ctx start (events ++ [event]) =
      (run name ctx start events).bind fun s => step name ctx s event := by
  rw [run, List.foldlM_append, ← run]
  simp only [List.foldlM_cons, List.foldlM_nil, bind_pure]
  rfl

theorem results_concat (events : List Event) (event : Event) :
    results (events ++ [event]) = results events ++ event.result.toList := by
  rw [results, List.filterMap_append, ← results]
  cases event <;> rfl

/-- The loop is left as soon as there is a completion. -/
theorem phase_checkLoop (name : String) (ctx : Context) (h : s.completions ≠ []) :
    (s.checkLoop name ctx).phase = .finished true (.returned (outcome name s.completions)) := by
  rw [Call.checkLoop]
  rcases hseen : s.completions with _ | ⟨_ | _, _ | ⟨second, rest⟩⟩
  · exact absurd hseen h
  · rfl
  · rfl
  · rfl
  · rfl

/-- `last_run_ms` after a call that ends so. -/
def stampOf (ctx : Context) (lastRunMs : Option Int) : Completion → Option Int
  | .returned (.ok _) => some ctx.nowMs
  | .returned (.error _) => lastRunMs
  | .raised => lastRunMs

theorem lastRunMs_checkLoop (name : String) (ctx : Context) (h : s.completions ≠ []) :
    (s.checkLoop name ctx).lastRunMs =
      stampOf ctx s.lastRunMs (.returned (outcome name s.completions)) := by
  rw [Call.checkLoop]
  rcases hseen : s.completions with _ | ⟨_ | _, _ | ⟨second, rest⟩⟩
  · exact absurd hseen h
  · rfl
  · rfl
  · rfl
  · rfl

/-- Why the call may end so: it returns what the invocations before it say, and it raises only if
`register` does or it is cancelled first. -/
def Justified (name : String) (before : List Event) (event : Event) : Completion → Prop
  | .returned result => results before ≠ [] ∧ result = outcome name (results before)
  | .raised => event = .registerRaises ∨ .cancel ∈ before ∧ results before = []

/-- How the call has ended, if it has: with which event of the run, and why that was the one. What
comes after is of no effect, so the end is told by a split of the events and not by the last state.
-/
structure Ended (name : String) (ctx : Context) (lastRunMs : Option Int) (events : List Event)
    (completion : Completion) (s : Call) : Prop where
  split : ∃ before event after, events = before ++ event :: after ∧
    EndsAt name ctx (.fresh lastRunMs) before event completion ∧ Justified name before event completion
  stamped : s.lastRunMs = stampOf ctx lastRunMs completion

/-- What holds in a phase. The waiter is alone in the queue until it is signalled. -/
def Holds (name : String) (ctx : Context) (lastRunMs : Option Int) (events : List Event) (s : Call) :
    Phase → Prop
  | .pending => results events = [] ∧ s.completions = [] ∧ s.cond = .empty ∧ s.lastRunMs = lastRunMs
  | .registering => s.completions = results events ∧ s.cond = .empty ∧ s.lastRunMs = lastRunMs
  | .waiting waiter =>
      s.completions = results events ∧ s.lastRunMs = lastRunMs ∧
        (results events = [] →
          s.cond.queue = [waiter] ∧ s.cond.Waits waiter () ∧ s.woken = s.cancelled) ∧
        (results events ≠ [] → s.woken = true ∧ s.cond.queue = [] ∧ s.cond.wokenAt waiter = true)
  | .finished true completion => Ended name ctx lastRunMs events completion s
  | .finished false completion =>
      completion = .returned (.error (.taskFailed name "cancelled")) ∧ s.lastRunMs = lastRunMs

/-- The invariant of the runs: of each phase, what the completions and the queue of the condition
are then, and whether the coroutine has been woken. -/
structure Inv (name : String) (ctx : Context) (lastRunMs : Option Int) (events : List Event) (s : Call) :
    Prop where
  reached : run name ctx (.fresh lastRunMs) events = some s
  cancelled : s.cancelled = true → .cancel ∈ events
  holds : Holds name ctx lastRunMs events s s.phase

theorem Ended.concat {completion : Completion} (h : Ended name ctx lastRunMs events completion s)
    (event : Event) (hlast : later.lastRunMs = s.lastRunMs) :
    Ended name ctx lastRunMs (events ++ [event]) completion later := by
  obtain ⟨⟨before, last, after, rfl, hends⟩, hstamped⟩ := h
  exact ⟨⟨before, last, after ++ [event], by simp, hends⟩, by rwa [hlast]⟩

/-- The call ends with the step. -/
theorem Inv.ended (h : Inv name ctx lastRunMs events s) (hrunning : s.phase.isFinished = false)
    (hstep : step name ctx s event = some later) (completion : Completion)
    (hphase : later.phase = .finished true completion)
    (hjustified : Justified name events event completion)
    (hstamped : later.lastRunMs = stampOf ctx lastRunMs completion) :
    Holds name ctx lastRunMs (events ++ [event]) later later.phase := by
  rw [hphase]
  exact ⟨⟨events, event, [], rfl, ⟨s, later, h.reached, hrunning, hstep, hphase⟩, hjustified⟩,
    hstamped⟩

/-- From the head of the loop on, with the completions that there are. -/
theorem Inv.checkLoop (h : Inv name ctx lastRunMs events s) (hrunning : s.phase.isFinished = false)
    (hseen : s.completions = results events) (hcond : results events = [] → s.cond = .empty)
    (hlast : s.lastRunMs = lastRunMs) (hevent : event.result = none)
    (hstep : step name ctx s event = some (s.checkLoop name ctx)) :
    Holds name ctx lastRunMs (events ++ [event]) (s.checkLoop name ctx)
      (s.checkLoop name ctx).phase := by
  by_cases hnone : results events = []
  · have hempty : s.completions = [] := hseen.trans hnone
    by_cases hcancelled : s.cancelled = true
    · refine h.ended hrunning hstep .raised ?_ (.inr ⟨h.cancelled hcancelled, hnone⟩) ?_
      · simp only [Call.checkLoop, hempty, if_pos hcancelled]
      · simp only [Call.checkLoop, hempty, if_pos hcancelled, hlast, stampOf]
    · have hresults : results (events ++ [event]) = [] := by
        rw [results_concat, hnone, hevent]
        rfl
      have hloop : s.checkLoop name ctx =
          { s with
            cond := (s.cond.enqueue ()).2, phase := .waiting (s.cond.enqueue ()).1,
            woken := false } := by
        simp only [Call.checkLoop, hempty, if_neg hcancelled]
      rw [hloop]
      refine ⟨hempty.trans hresults.symm, hlast, fun _ => ⟨?_, Cond.waits_enqueue _ _, ?_⟩,
        fun hne => absurd hresults hne⟩
      · rw [hcond hnone]
        rfl
      · exact (Bool.eq_false_iff.mpr hcancelled).symm
  · have hne : s.completions ≠ [] := by rwa [hseen]
    have hphase := phase_checkLoop name ctx hne
    have hstamp := lastRunMs_checkLoop name ctx hne
    rw [hseen] at hphase
    rw [hseen, hlast] at hstamp
    exact h.ended hrunning hstep _ hphase ⟨hnone, rfl⟩ hstamp

theorem cancelled_checkLoop (s : Call) : (s.checkLoop name ctx).cancelled = s.cancelled := by
  rw [Call.checkLoop]
  rcases s.completions with _ | ⟨_ | _, _ | ⟨second, rest⟩⟩
  · dsimp only
    split_ifs <;> rfl
  all_goals rfl

/-- What the events do, each where it can happen. -/
theorem step_cases (h : step name ctx s event = some later) :
    (∃ isCancelled, event = .execute isCancelled ∧ s.phase = .pending ∧
      later.phase = (if isCancelled then
        .finished false (.returned (.error (.taskFailed name "cancelled"))) else .registering) ∧
      later = { s with phase := later.phase }) ∨
    (∃ result, event = .callback result ∧ s.phase ≠ .pending ∧ later = s.invoke result) ∨
    (event = .registerReturns ∧ s.phase = .registering ∧ later = s.checkLoop name ctx) ∨
    (event = .registerRaises ∧ s.phase = .registering ∧
      later = { s with phase := .finished true .raised }) ∨
    (event = .cancel ∧ later = { s with cancelled := true, woken := true }) ∨
    (∃ waiter, event = .resume ∧ s.phase = .waiting waiter ∧ s.woken = true ∧
      later = if s.cancelled && !s.cond.wokenAt waiter then
        { s with cond := s.cond.leave waiter, phase := .finished true .raised }
      else s.checkLoop name ctx) := by
  cases event with
  | execute isCancelled =>
      left
      cases hphase : s.phase <;> simp only [step, hphase, reduceCtorEq] at h
      refine ⟨isCancelled, rfl, rfl, ?_⟩
      split_ifs at h ⊢
      · cases h
        exact ⟨rfl, rfl⟩
      · cases h
        exact ⟨rfl, rfl⟩
  | callback result =>
      right; left
      refine ⟨result, rfl, ?_⟩
      rcases hphase : s.phase with _ | _ | waiter | ⟨_ | _, completion⟩ <;>
        simp only [step, hphase, reduceCtorEq] at h
      all_goals exact ⟨nofun, (Option.some.inj h).symm⟩
  | registerReturns =>
      right; right; left
      cases hphase : s.phase <;> simp only [step, hphase, reduceCtorEq] at h
      exact ⟨rfl, rfl, (Option.some.inj h).symm⟩
  | registerRaises =>
      right; right; right; left
      cases hphase : s.phase <;> simp only [step, hphase, reduceCtorEq] at h
      exact ⟨rfl, rfl, (Option.some.inj h).symm⟩
  | cancel =>
      right; right; right; right; left
      exact ⟨rfl, (Option.some.inj h).symm⟩
  | resume =>
      right; right; right; right; right
      cases hphase : s.phase with
      | waiting waiter =>
          simp only [step, hphase] at h
          split_ifs at h with hwoken hraise
          · exact ⟨waiter, rfl, rfl, hwoken, by rw [if_pos hraise]; exact (Option.some.inj h).symm⟩
          · exact ⟨waiter, rfl, rfl, hwoken, by rw [if_neg hraise]; exact (Option.some.inj h).symm⟩
      | _ => simp only [step, hphase, reduceCtorEq] at h

theorem Inv.cancelled_step (h : Inv name ctx lastRunMs events s)
    (hstep : step name ctx s event = some later) (hcancelled : later.cancelled = true) :
    .cancel ∈ events ++ [event] := by
  have hsame (hkept : later.cancelled = s.cancelled) : .cancel ∈ events ++ [event] :=
    List.mem_append_left _ (h.cancelled (hkept ▸ hcancelled))
  rcases step_cases hstep with ⟨_, -, -, -, hlater⟩ | ⟨_, -, -, rfl⟩ | ⟨-, -, rfl⟩ | ⟨-, -, rfl⟩ |
    ⟨rfl, -⟩ | ⟨waiter, -, -, -, rfl⟩
  · refine hsame ?_
    rw [hlater]
  · exact hsame rfl
  · exact hsame (cancelled_checkLoop s)
  · exact hsame rfl
  · exact List.mem_append_right _ List.mem_cons_self
  · refine hsame ?_
    split_ifs
    · rfl
    · exact cancelled_checkLoop s

/-- The callback is invoked. -/
theorem Inv.invoke (h : Inv name ctx lastRunMs events s) (hphase : s.phase ≠ .pending)
    (result : TaskResult) :
    Holds name ctx lastRunMs (events ++ [.callback result]) (s.invoke result) s.phase := by
  have hresults : results (events ++ [.callback result]) = results events ++ [result] :=
    results_concat events _
  have hholds := h.holds
  rcases hp : s.phase with _ | _ | waiter | ⟨_ | _, completion⟩
  · exact absurd hp hphase
  · rw [hp] at hholds
    obtain ⟨hseen, hcond, hlast⟩ := hholds
    -- nobody waits yet
    have hsignal : s.cond.signal = (none, s.cond) := Cond.signal_nil (by rw [hcond]; rfl)
    refine ⟨?_, ?_, hlast⟩
    · rw [hresults, ← hseen]
      rfl
    · rw [Call.invoke, hsignal]
      exact hcond
  · rw [hp] at hholds
    obtain ⟨hseen, hlast, hfirst, hlater⟩ := hholds
    refine ⟨?_, hlast, fun hnone => ?_, fun _ => ?_⟩
    · rw [hresults, ← hseen]
      rfl
    · simp [hresults] at hnone
    · by_cases hnone : results events = []
      · obtain ⟨hqueue, hwaits, -⟩ := hfirst hnone
        obtain ⟨hwakes, hempty, hwoken⟩ := hwaits.signal_alone hqueue
        simp only [Call.invoke, hwakes]
        exact ⟨Bool.or_true _, hempty, hwoken⟩
      · obtain ⟨hwoken, hempty, hwaiter⟩ := hlater hnone
        simp only [Call.invoke, Cond.signal_nil hempty]
        exact ⟨by rw [hwoken]; rfl, hempty, hwaiter⟩
  · rw [hp] at hholds
    exact hholds
  · rw [hp] at hholds
    exact hholds.concat _ rfl

/-- A coroutine that waits runs again. -/
theorem Inv.resume (h : Inv name ctx lastRunMs events s) {waiter : Nat}
    (hphase : s.phase = .waiting waiter) (hwoken : s.woken = true)
    (hstep : step name ctx s .resume = some later)
    (hlater : later = if s.cancelled && !s.cond.wokenAt waiter then
        { s with cond := s.cond.leave waiter, phase := .finished true .raised }
      else s.checkLoop name ctx) :
    Holds name ctx lastRunMs (events ++ [.resume]) later later.phase := by
  have hrunning : s.phase.isFinished = false := by rw [hphase]; rfl
  have hholds := h.holds
  rw [hphase] at hholds
  obtain ⟨hseen, hlast, hfirst, hafter⟩ := hholds
  by_cases hnone : results events = []
  · -- nobody has signalled, so it was the cancel that woke it
    obtain ⟨-, hwaits, hsame⟩ := hfirst hnone
    have hcancelled : s.cancelled = true := hsame ▸ hwoken
    rw [hcancelled, hwaits.not_woken, if_pos (by rfl)] at hlater
    exact h.ended hrunning hstep .raised (by rw [hlater]) (.inr ⟨h.cancelled hcancelled, hnone⟩)
      (by rw [hlater]; exact hlast)
  · obtain ⟨-, -, hwaiter⟩ := hafter hnone
    rw [hwaiter, Bool.not_true, Bool.and_false, if_neg Bool.false_ne_true] at hlater
    subst hlater
    exact h.checkLoop hrunning hseen (fun hempty => absurd hempty hnone) hlast rfl hstep

/-- What one step preserves. -/
theorem Inv.step (h : Inv name ctx lastRunMs events s)
    (hstep : step name ctx s event = some later) :
    Inv name ctx lastRunMs (events ++ [event]) later := by
  have hholds := h.holds
  refine ⟨by rw [run_concat, h.reached]; exact hstep, h.cancelled_step hstep, ?_⟩
  have hkept (hevent : event.result = none) : results (events ++ [event]) = results events := by
    rw [results_concat, hevent]
    exact List.append_nil _
  rcases step_cases hstep with ⟨isCancelled, rfl, hphase, hnext, hlater⟩ | ⟨result, rfl, hphase, rfl⟩ |
    ⟨rfl, hphase, rfl⟩ | ⟨rfl, hphase, rfl⟩ | ⟨rfl, rfl⟩ | ⟨waiter, rfl, hphase, hwoken, hlater⟩
  · rw [hphase] at hholds
    obtain ⟨hnone, hempty, hcond, hlast⟩ := hholds
    rw [hnext]
    split_ifs
    · rw [hlater]
      exact ⟨rfl, hlast⟩
    · rw [hlater]
      exact ⟨by rw [hkept rfl, hnone]; exact hempty, hcond, hlast⟩
  · exact h.invoke hphase result
  · rw [hphase] at hholds
    obtain ⟨hseen, hcond, hlast⟩ := hholds
    exact h.checkLoop (by rw [hphase]; rfl) hseen (fun _ => hcond) hlast rfl hstep
  · rw [hphase] at hholds
    exact h.ended (by rw [hphase]; rfl) hstep .raised rfl (.inl rfl) hholds.2.2
  · -- a cancel wakes, and leaves the rest as it was
    show Holds name ctx lastRunMs (events ++ [.cancel]) _ s.phase
    rcases hphase : s.phase with _ | _ | waiter | ⟨_ | _, completion⟩
    · rw [hphase] at hholds
      exact ⟨(hkept rfl).trans hholds.1, hholds.2⟩
    · rw [hphase] at hholds
      exact ⟨hholds.1.trans (hkept rfl).symm, hholds.2⟩
    · rw [hphase] at hholds
      obtain ⟨hseen, hlast, hfirst, hafter⟩ := hholds
      refine ⟨hseen.trans (hkept rfl).symm, hlast, fun hnone => ?_, fun hne => ?_⟩
      · obtain ⟨hqueue, hwaits, -⟩ := hfirst ((hkept rfl).symm.trans hnone)
        exact ⟨hqueue, hwaits, rfl⟩
      · exact ⟨rfl, (hafter ((hkept rfl) ▸ hne)).2⟩
    · rw [hphase] at hholds
      exact hholds
    · rw [hphase] at hholds
      exact hholds.concat _ rfl
  · exact h.resume hphase hwoken hstep hlater

theorem inv_fresh : Inv name ctx lastRunMs [] (.fresh lastRunMs) :=
  ⟨rfl, nofun, ⟨rfl, rfl, rfl, rfl⟩⟩

/-- What a whole run preserves. -/
theorem inv_run (h : run name ctx (.fresh lastRunMs) events = some s) :
    Inv name ctx lastRunMs events s := by
  induction events using List.reverseRecOn generalizing s with
  | nil =>
      cases h
      exact inv_fresh
  | append_singleton events event ih =>
      rw [run_concat] at h
      obtain ⟨earlier, hearlier, hstep⟩ := Option.bind_eq_some_iff.mp h
      exact (ih hearlier).step hstep

/-- The call ends with a resumption that returns. -/
theorem Inv.resumes (h : Inv name ctx lastRunMs events s) {waiter : Nat}
    (hphase : s.phase = .waiting waiter) (hne : results events ≠ []) :
    s.woken = true ∧ ∃ later, Callback.step name ctx s .resume = some later ∧
      later.phase = .finished true (.returned (outcome name (results events))) := by
  have hholds := h.holds
  rw [hphase] at hholds
  obtain ⟨hseen, -, -, hafter⟩ := hholds
  obtain ⟨hwoken, -, hwaiter⟩ := hafter hne
  have hstep : Callback.step name ctx s .resume = some (s.checkLoop name ctx) := by
    simp only [Callback.step, hphase, hwoken, hwaiter, if_true, Bool.not_true, Bool.and_false,
      Bool.false_eq_true, if_false]
  refine ⟨hwoken, _, hstep, ?_⟩
  rw [phase_checkLoop name ctx (by rwa [hseen]), hseen]

end Run

/-- However its callback is invoked, a callback task loses no wake-up, returns what the
invocations before its end determine, and is stamped only when it returns `Ok`. -/
theorem callback_completesOnce (name : String) (ctx : Context) (lastRunMs : Option Int)
    (events : List Event) (s : Call) (h : run name ctx (.fresh lastRunMs) events = some s) :
    CompletesOnce name ctx lastRunMs events s := by
  have hinv := inv_run h
  have hholds := hinv.holds
  refine ⟨fun waiter hphase hne => hinv.resumes hphase hne, fun waiter hphase hnone => ?_,
    fun hphase hne => ?_, fun result hphase => ?_, fun hphase => ?_, ?_⟩
  · rw [hphase] at hholds
    exact (hholds.2.2.1 hnone).2.2
  · rw [hphase] at hholds
    have hseen := hholds.1
    refine ⟨s.checkLoop name ctx, by simp only [step, hphase], ?_⟩
    rw [phase_checkLoop name ctx (by rwa [hseen]), hseen]
  · rw [hphase] at hholds
    obtain ⟨⟨before, event, after, hsplit, hends, hjustified⟩, -⟩ := hholds
    exact ⟨before, event, after, hsplit, hends, hjustified⟩
  · rw [hphase] at hholds
    obtain ⟨⟨before, event, after, hsplit, hends, hjustified⟩, -⟩ := hholds
    exact ⟨before, event, after, hsplit, hends, hjustified⟩
  · rcases hphase : s.phase with _ | _ | waiter | ⟨_ | _, completion⟩ <;> rw [hphase] at hholds
    · exact .inr ⟨nofun, hholds.2.2.2⟩
    · exact .inr ⟨nofun, hholds.2.2⟩
    · exact .inr ⟨nofun, hholds.2.1⟩
    · exact .inr ⟨nofun, hholds.2⟩
    · have hstamped := hholds.stamped
      rcases completion with (err | _) | _
      · exact .inr ⟨nofun, hstamped⟩
      · exact .inl ⟨rfl, hstamped⟩
      · exact .inr ⟨nofun, hstamped⟩

/-- The callback is invoked while the task waits. -/
theorem deploy_completesOnce :
    ∃ s, run "deploy" ⟨"/", 8250⟩ (.fresh none)
        [.execute false, .registerReturns, .callback (.ok ()), .resume] = some s ∧
      CompletesOnce "deploy" ⟨"/", 8250⟩ none
        [.execute false, .registerReturns, .callback (.ok ()), .resume] s :=
  ⟨_, rfl, callback_completesOnce _ _ _ _ _ rfl⟩

/-! ## Callback tasks as leaves -/

theorem lastRunMs_finish (ctx : Context) (cell : Nat) (sh : Shared) (completion : Completion) :
    (finish ctx cell sh completion).lastRunMs cell =
      stampOf ctx (sh.lastRunMs cell) completion := by
  rcases completion with (_ | _) | _
  · rfl
  · exact if_pos rfl
  · rfl

/-- To the combinators a callback task is a leaf whose closure ends as the call did. -/
theorem leaf_steps {name : String} {ctx : Context} {events : List Event} {s : Call} {cell : Nat}
    {sh : Shared} {entered : Bool} {completion : Completion}
    (h : run name ctx (.fresh (sh.lastRunMs cell)) events = some s)
    (hphase : s.phase = .finished entered completion) (hcancelled : sh.cancelled = !entered) :
    ∃ later, Steps ctx (sh, .pending (.newAsyncTask cell name ⟨[completion], false⟩))
        (later, .finished name entered completion) ∧
      later.lastRunMs cell = s.lastRunMs := by
  have hholds := (inv_run h).holds
  rw [hphase] at hholds
  cases entered with
  | false =>
      obtain ⟨rfl, hlast⟩ := hholds
      exact ⟨sh, Steps.step .refl (.refuse hcancelled), hlast.symm⟩
  | true =>
      have henter : Steps ctx (sh, .pending (.newAsyncTask cell name ⟨[completion], false⟩))
          (sh, .body cell name ⟨[completion], false⟩) := Steps.step .refl (.enter hcancelled rfl)
      refine ⟨_, henter.step (.bodyEnd List.mem_cons_self), ?_⟩
      rw [lastRunMs_finish]
      exact hholds.stamped.symm

end Callback

end Mulp.Core
