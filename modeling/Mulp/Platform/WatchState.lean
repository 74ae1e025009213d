import Mathlib.Logic.Function.Basic
import Mulp.Lib.Trace

/-! The state of a watcher between its runs (`platform/watch_state.mbt`).

The flags are set by calls that may come in any order, and each call reads some of them.
What they should say is told by the history of calls: whether a run is in progress, and
whether something has changed since it started. -/
namespace Mulp.Platform

structure WatchRunState where
  active : Bool
  running : Bool
  pendingRebuild : Bool
  lastFailure : Option String
  deriving DecidableEq

def watchRunState : WatchRunState := ⟨true, false, false, none⟩

namespace WatchRunState

def startRun (self : WatchRunState) : WatchRunState := { self with running := true, lastFailure := none }

def markChange (self : WatchRunState) : WatchRunState :=
  if self.running then { self with pendingRebuild := true } else self

def finishRun (self : WatchRunState) : Bool × WatchRunState :=
  (self.pendingRebuild, { self with running := false, pendingRebuild := false })

def finishFailedRun (self : WatchRunState) (message : String) : Bool × WatchRunState :=
  { self with lastFailure := some message }.finishRun

/-- The cancellation tokens of the program, by number; a token is cancelled or not. -/
abbrev Tokens := Nat → Bool

def stop (self : WatchRunState) (cancellation : Nat) (tokens : Tokens) : WatchRunState × Tokens :=
  ({ self with active := false, running := false, pendingRebuild := false },
    Function.update tokens cancellation true)

end WatchRunState

namespace Watcher

inductive Op where
  | startRun
  | markChange
  | finishRun
  | finishFailedRun (message : String)
  | stop (cancellation : Nat)

abbrev State := WatchRunState × WatchRunState.Tokens

/-- A call, without the answer of the two that have one. -/
def step (s : State) : Op → State
  | .startRun => (s.1.startRun, s.2)
  | .markChange => (s.1.markChange, s.2)
  | .finishRun => (s.1.finishRun.2, s.2)
  | .finishFailedRun message => ((s.1.finishFailedRun message).2, s.2)
  | .stop cancellation => s.1.stop cancellation s.2

def run (tokens : WatchRunState.Tokens) (ops : List Op) : State := ops.foldl step (watchRunState, tokens)

/-! ## What the calls say -/

open Trace

/-- The call ends the run that is in progress. -/
def Op.Ends : Op → Prop
  | .startRun => False
  | .markChange => False
  | .finishRun => True
  | .finishFailedRun _ => True
  | .stop _ => True

/-- The call sets what is known of the last failure. -/
def Op.Reports : Op → Prop
  | .startRun => True
  | .finishFailedRun _ => True
  | _ => False

/-- A run is in progress: one was started, and since then neither finished nor stopped. -/
def InProgress : List Op → Prop := Since (fun _ op => op = .startRun) Op.Ends

/-- There was a change during a run since the previous finish or stop. -/
def Changed : List Op → Prop := Since (fun before op => op = .markChange ∧ InProgress before) Op.Ends

/-- The most recent of start and failed finish was this failed finish. -/
def FailedWith (message : String) : List Op → Prop :=
  Since (fun _ op => op = .finishFailedRun message) Op.Reports

def Stopped (ops : List Op) : Prop := ∃ cancellation, .stop cancellation ∈ ops

/-- A run was started after a stop. The setter does not look whether the watcher is active, and so
there is a run in progress that nobody has asked for. -/
def Restarted (ops : List Op) : Prop :=
  ∃ before after, ops = before ++ .startRun :: after ∧ Stopped before

/-- The watch state neither loses nor invents a rebuild: a finish asks for another run exactly if
something has changed since the run started, and after a stop nothing is in progress. -/
structure NeverLoses (ops : List Op) (s : State) : Prop where
  pending : s.1.pendingRebuild = true → s.1.running = true
  running : s.1.running = true → s.1.active = true
  finish : s.1.finishRun.1 = true ↔ Changed ops
  finishFailed : ∀ message, (s.1.finishFailedRun message).1 = true ↔ Changed ops
  failure : ∀ message, s.1.lastFailure = some message ↔ FailedWith message ops
  stopped : ∀ cancellation, .stop cancellation ∈ ops →
    s.2 cancellation = true ∧ s.1.running = false ∧ s.1.pendingRebuild = false

/-- The same, where a run may be started after a stop: it is then in progress like any
other, though the watcher stays inactive. -/
structure NeverLosesUntilRestarted (ops : List Op) (s : State) : Prop where
  pending : s.1.pendingRebuild = true → s.1.running = true
  running : s.1.running = true → s.1.active = true ∨ Restarted ops
  finish : s.1.finishRun.1 = true ↔ Changed ops
  finishFailed : ∀ message, (s.1.finishFailedRun message).1 = true ↔ Changed ops
  failure : ∀ message, s.1.lastFailure = some message ↔ FailedWith message ops
  stopped : ∀ before cancellation after, ops = before ++ .stop cancellation :: after →
    s.2 cancellation = true ∧ s.1.active = false ∧
      (.startRun ∉ after → s.1.running = false ∧ s.1.pendingRebuild = false)

/-- The flags are what the calls say. It is the invariant of all runs, with one field for each flag;
what is claimed are consequences of it. -/
structure Follows (ops : List Op) (s : State) : Prop where
  running : s.1.running = true ↔ InProgress ops
  pending : s.1.pendingRebuild = true ↔ Changed ops
  failure : ∀ message, s.1.lastFailure = some message ↔ FailedWith message ops
  active : s.1.active = false ↔ Stopped ops
  tokens : ∀ cancellation, .stop cancellation ∈ ops → s.2 cancellation = true

theorem stopped_concat (ops : List Op) (op : Op) :
    Stopped (ops ++ [op]) ↔ Stopped ops ∨ ∃ cancellation, op = .stop cancellation := by
  simp only [Stopped, List.mem_append, List.mem_singleton, exists_or, eq_comm]

theorem follows_fresh (tokens : WatchRunState.Tokens) : Follows [] (watchRunState, tokens) where
  running := iff_of_false Bool.false_ne_true not_since_nil
  pending := iff_of_false Bool.false_ne_true not_since_nil
  failure := fun _ => iff_of_false nofun not_since_nil
  active := iff_of_false nofun nofun
  tokens := nofun

section Step

variable {ops : List Op} {s : State}

theorem not_stopped_concat (ops : List Op) (op : Op) (h : ∀ cancellation, op ≠ .stop cancellation) :
    Stopped (ops ++ [op]) ↔ Stopped ops := by
  rw [stopped_concat]
  exact or_iff_left fun ⟨cancellation, heq⟩ => h cancellation heq

/-- No call but a stop makes a token cancelled. -/
theorem Follows.tokens_concat (h : Follows ops s) {op : Op}
    (hop : ∀ cancellation, op ≠ .stop cancellation) :
    ∀ cancellation, .stop cancellation ∈ ops ++ [op] → s.2 cancellation = true := by
  intro cancellation hmem
  rcases List.mem_append.mp hmem with hmem | hmem
  · exact h.tokens cancellation hmem
  · exact absurd (List.mem_singleton.mp hmem).symm (hop cancellation)

theorem Follows.startRun (h : Follows ops s) : Follows (ops ++ [.startRun]) (step s .startRun) where
  running := iff_of_true rfl (since_of_holds rfl)
  pending := h.pending.trans (since_iff_of_neither (fun hchange => nomatch hchange.1) not_false).symm
  failure := fun _ => iff_of_false nofun (not_since_of_ends nofun trivial)
  active := h.active.trans (not_stopped_concat ops .startRun nofun).symm
  tokens := h.tokens_concat nofun

theorem Follows.markChange (h : Follows ops s) :
    Follows (ops ++ [.markChange]) (step s .markChange) := by
  have hrunning : InProgress (ops ++ [.markChange]) ↔ InProgress ops :=
    since_iff_of_neither nofun not_false
  have hfailure (message : String) : FailedWith message (ops ++ [.markChange]) ↔
      FailedWith message ops :=
    since_iff_of_neither nofun not_false
  have hactive := not_stopped_concat ops .markChange nofun
  by_cases hrun : s.1.running = true
  · -- the change is one during a run
    have hstep : step s .markChange = ({ s.1 with pendingRebuild := true }, s.2) := by
      rw [step, WatchRunState.markChange, if_pos hrun]
    rw [hstep]
    exact ⟨h.running.trans hrunning.symm, iff_of_true rfl (since_of_holds ⟨rfl, h.running.mp hrun⟩),
      fun message => (h.failure message).trans (hfailure message).symm, h.active.trans hactive.symm,
      h.tokens_concat nofun⟩
  · have hstep : step s .markChange = s := by
      rw [step, WatchRunState.markChange, if_neg hrun]
    have hchanged : Changed (ops ++ [.markChange]) ↔ Changed ops :=
      since_iff_of_neither (fun hchange => hrun (h.running.mpr hchange.2)) not_false
    rw [hstep]
    exact ⟨h.running.trans hrunning.symm, h.pending.trans hchanged.symm,
      fun message => (h.failure message).trans (hfailure message).symm, h.active.trans hactive.symm,
      h.tokens_concat nofun⟩

/-- After a call that ends the run there is none, and no change of one. -/
theorem not_inProgress_of_ends {op : Op} (h : op.Ends) : ¬ InProgress (ops ++ [op]) :=
  not_since_of_ends (by rintro rfl; exact h) h

theorem not_changed_of_ends {op : Op} (h : op.Ends) : ¬ Changed (ops ++ [op]) :=
  not_since_of_ends (by rintro ⟨rfl, -⟩; exact h) h

theorem Follows.finishRun (h : Follows ops s) :
    Follows (ops ++ [.finishRun]) (step s .finishRun) where
  running := iff_of_false nofun (not_inProgress_of_ends trivial)
  pending := iff_of_false nofun (not_changed_of_ends trivial)
  failure := fun message => (h.failure message).trans (since_iff_of_neither nofun not_false).symm
  active := h.active.trans (not_stopped_concat ops .finishRun nofun).symm
  tokens := h.tokens_concat nofun

theorem Follows.finishFailedRun (h : Follows ops s) (message : String) :
    Follows (ops ++ [.finishFailedRun message]) (step s (.finishFailedRun message)) where
  running := iff_of_false nofun (not_inProgress_of_ends trivial)
  pending := iff_of_false nofun (not_changed_of_ends trivial)
  failure := by
    intro other
    constructor
    · intro heq
      rw [← Option.some.inj heq]
      exact since_of_holds rfl
    · intro hfailed
      rcases (since_concat _).mp hfailed with heq | ⟨hno, -⟩
      · cases heq
        rfl
      · exact absurd trivial hno
  active := h.active.trans (not_stopped_concat ops (.finishFailedRun message) nofun).symm
  tokens := h.tokens_concat nofun

theorem Follows.stop (h : Follows ops s) (cancellation : Nat) :
    Follows (ops ++ [.stop cancellation]) (step s (.stop cancellation)) where
  running := iff_of_false nofun (not_inProgress_of_ends trivial)
  pending := iff_of_false nofun (not_changed_of_ends trivial)
  failure := fun message => (h.failure message).trans (since_iff_of_neither nofun not_false).symm
  active := iff_of_true rfl ((stopped_concat ops _).mpr (.inr ⟨cancellation, rfl⟩))
  tokens := by
    intro other hmem
    show Function.update s.2 cancellation true other = true
    by_cases hsame : other = cancellation
    · rw [hsame, Function.update_self]
    · rw [Function.update_of_ne hsame]
      refine h.tokens other ((List.mem_append.mp hmem).resolve_right fun hlast => hsame ?_)
      exact Op.stop.inj (List.mem_singleton.mp hlast)

/-- What one call preserves. -/
theorem Follows.step (h : Follows ops s) (op : Op) : Follows (ops ++ [op]) (step s op) := by
  cases op with
  | startRun => exact h.startRun
  | markChange => exact h.markChange
  | finishRun => exact h.finishRun
  | finishFailedRun message => exact h.finishFailedRun message
  | stop cancellation => exact h.stop cancellation

end Step

/-- What any calls preserve. -/
theorem follows_run (tokens : WatchRunState.Tokens) (ops : List Op) :
    Follows ops (run tokens ops) := by
  induction ops using List.reverseRecOn with
  | nil => exact follows_fresh tokens
  | append_singleton ops op ih =>
      rw [run, List.foldl_append]
      exact ih.step op

/-- A change that waits is one of the run in progress. -/
theorem Changed.inProgress {ops : List Op} (h : Changed ops) : InProgress ops := by
  induction ops using List.reverseRecOn with
  | nil => exact absurd h not_since_nil
  | append_singleton ops op ih =>
      rcases (since_concat op).mp h with ⟨rfl, hrunning⟩ | ⟨hends, hchanged⟩
      · exact (since_iff_of_neither nofun not_false).mpr hrunning
      · exact (since_concat op).mpr (.inr ⟨hends, ih hchanged⟩)

/-- The run in progress was started before any stop, or after one. -/
theorem InProgress.restarted {ops : List Op} (h : InProgress ops) (hstopped : Stopped ops) :
    Restarted ops := by
  obtain ⟨before, start, after, rfl, rfl, hafter⟩ := h
  obtain ⟨cancellation, hmem⟩ := hstopped
  refine ⟨before, after, rfl, cancellation, ?_⟩
  rcases List.mem_append.mp hmem with hmem | hmem
  · exact hmem
  · rcases List.mem_cons.mp hmem with hstop | hmem
    · cases hstop
    · exact absurd trivial (hafter _ hmem)

/-- A run in progress after a stop was started after it. -/
theorem InProgress.start_mem {before after : List Op} {cancellation : Nat}
    (h : InProgress (before ++ .stop cancellation :: after)) : .startRun ∈ after := by
  induction after using List.reverseRecOn with
  | nil => exact absurd h (not_inProgress_of_ends trivial)
  | append_singleton after op ih =>
      rw [← List.cons_append, ← List.append_assoc] at h
      rcases (since_concat op).mp h with rfl | ⟨-, hrunning⟩
      · exact List.mem_append_right _ List.mem_cons_self
      · exact List.mem_append_left _ (ih hrunning)

/-- In every state that calls on a fresh watch state lead to, every change during a run is
reported by the finish of that run and no other change is. -/
theorem run_neverLosesUntilRestarted (tokens : WatchRunState.Tokens) (ops : List Op) :
    NeverLosesUntilRestarted ops (run tokens ops) := by
  have h := follows_run tokens ops
  refine ⟨fun hpending => ?_, fun hrunning => ?_, h.pending, fun _ => h.pending, h.failure, ?_⟩
  · exact h.running.mpr (h.pending.mp hpending).inProgress
  · by_cases hactive : (run tokens ops).1.active = true
    · exact .inl hactive
    · have hstopped := h.active.mp (Bool.eq_false_iff.mpr hactive)
      exact .inr ((h.running.mp hrunning).restarted hstopped)
  · rintro before cancellation after rfl
    have hmem : Op.stop cancellation ∈ before ++ .stop cancellation :: after := by simp
    refine ⟨h.tokens cancellation hmem, h.active.mpr ⟨cancellation, hmem⟩, fun hnot => ⟨?_, ?_⟩⟩
    · exact Bool.eq_false_iff.mpr fun hrunning => hnot (h.running.mp hrunning).start_mem
    · exact Bool.eq_false_iff.mpr fun hpending => hnot (h.pending.mp hpending).inProgress.start_mem

/-- A run can be started after a stop. -/
theorem not_neverLoses_restarted :
    ¬ NeverLoses [.stop 0, .startRun] (run (fun _ => false) [.stop 0, .startRun]) :=
  fun h => absurd (h.running rfl) Bool.false_ne_true

end Watcher

end Mulp.Platform
