import Mulp.Chokidar.Late

/-! The backend handles of a watcher, over all that its owner may call.

The model of a watcher keeps the handles that it has closed, and the world here those
that it has given out. An `add` gets all its handles before it keeps the first one, so
that it can give them back where a later one fails: a plan holds them meanwhile. -/
namespace Mulp.Chokidar

variable {σ : Type} {w : World σ}

/-- The world, with the handles that its backend has given out. -/
def World.recording (w : World σ) : World (σ × List Int32) where
  now world := ((w.now world.1).1, (w.now world.1).2, world.2)
  scanSnapshot root options world :=
    ((w.scanSnapshot root options world.1).1, (w.scanSnapshot root options world.1).2, world.2)
  statForPath path follow world :=
    ((w.statForPath path follow world.1).1, (w.statForPath path follow world.1).2, world.2)
  backendWatch root options world :=
    match w.backendWatch root options world.1 with
    | (.error message, next) => (.error message, next, world.2)
    | (.ok handle, next) => (.ok handle, next, world.2 ++ [handle])
  backendDrainEvents world :=
    ((w.backendDrainEvents world.1).1, (w.backendDrainEvents world.1).2, world.2)

/-- Only `backend_watch` gives out a handle. -/
theorem World.recording_closed (w : World σ) (handles : List Int32) :
    w.recording.Closed fun world => world.2 = handles where
  now _ h := h
  scanSnapshot _ _ _ h := h
  statForPath _ _ _ h := h
  backendDrainEvents _ h := h

/-- What the owner of a watcher calls. -/
inductive Call where
  | add (values : List String)
  | unwatch (values : List String)
  | process
  | close

namespace Watcher

/-- The watcher after a call, whatever it raises: the owner may go on with a watcher of which a call
has failed. -/
def call (w : World σ) (self : Watcher σ) : Call → Watcher σ
  | .add values => (self.add w values).2
  | .unwatch values => self.unwatch values
  | .process => (self.process w).2
  | .close => self.close

def run (w : World σ) (calls : List Call) (self : Watcher σ) : Watcher σ := calls.foldl (call w) self

theorem run_append (w : World σ) (before after : List Call) (self : Watcher σ) :
    run w (before ++ after) self = run w after (run w before self) :=
  List.foldl_append ..

/-! ## Each handle is held or has been closed -/

/-- The handles of what a call of `add` has planned so far. -/
def plannedHandles : Except String (List PlannedAdd) → List Int32
  | .ok plans => plans.map PlannedAdd.handle
  | .error _ => []

/-- What has been given out has been closed, once, or is held by the watcher or by a plan. As a
permutation it says at once that no handle is lost, that none is closed twice and that none is
closed which is still held. -/
def Accounted (planned : List Int32) (self : Watcher (σ × List Int32)) : Prop :=
  self.world.2.Perm (self.closedHandles ++ self.state.handles ++ planned)

variable {self later : Watcher (σ × List Int32)}

theorem Accounted.close {planned : List Int32} (h : Accounted planned self) :
    Accounted [] (self.backendClose planned) := by
  unfold Accounted backendClose
  rw [List.append_nil, List.append_assoc]
  refine h.trans ?_
  rw [List.append_assoc]
  exact List.Perm.append_left _ List.perm_append_comm

theorem planAdds_accounted {values : List String} {plans : List PlannedAdd}
    {result : Except String (List PlannedAdd)}
    (h : Accounted (plans.map PlannedAdd.handle) self)
    (hplans : planAdds w.recording values plans self = (result, later)) :
    Accounted (plannedHandles result) later ∧ later.state = self.state ∧
      later.emitted = self.emitted := by
  induction values generalizing plans self with
  | nil =>
      obtain ⟨rfl, rfl⟩ := Prod.mk.inj hplans
      exact ⟨h, rfl, rfl⟩
  | cons path values ih =>
      cases hwatch : w.backendWatch (normalizePath path) self.state.options self.world.1 with
      | mk watched world =>
          cases watched with
          | error message =>
              have hrecorded : w.recording.backendWatch (normalizePath path) self.state.options
                  self.world = (.error message, world, self.world.2) := by
                simp only [World.recording, hwatch]
              rw [planAdds_unwatched hrecorded] at hplans
              obtain ⟨rfl, rfl⟩ := Prod.mk.inj hplans
              have hsame : Accounted (plans.map PlannedAdd.handle)
                  { self with world := (world, self.world.2) } := h
              exact ⟨hsame.close, rfl, rfl⟩
          | ok handle =>
              have hrecorded : w.recording.backendWatch (normalizePath path) self.state.options
                  self.world = (.ok handle, world, self.world.2 ++ [handle]) := by
                simp only [World.recording, hwatch]
              have hopened (next : σ) : Accounted (plans.map PlannedAdd.handle ++ [handle])
                  { self with world := (next, self.world.2 ++ [handle]) } := by
                unfold Accounted
                rw [← List.append_assoc]
                exact h.append_right [handle]
              cases hscan : w.recording.scanSnapshot (normalizePath path) self.state.options
                  (world, self.world.2 ++ [handle]) with
              | mk found next =>
                  have hnext : next = (next.1, self.world.2 ++ [handle]) := by
                    rw [← (Prod.mk.inj hscan).2]
                  rw [hnext] at hscan
                  cases found with
                  | error message =>
                      rw [planAdds_unscanned hrecorded hscan] at hplans
                      obtain ⟨rfl, rfl⟩ := Prod.mk.inj hplans
                      have hlast : Accounted (handle :: plans.map PlannedAdd.handle)
                          { self with world := (next.1, self.world.2 ++ [handle]) } :=
                        (hopened next.1).trans ((List.perm_append_singleton ..).append_left _)
                      exact ⟨hlast.close, rfl, rfl⟩
                  | ok entries =>
                      rw [planAdds_scanned hrecorded hscan] at hplans
                      refine @ih { self with world := (next.1, self.world.2 ++ [handle]) } _ ?_ hplans
                      rw [List.map_append]
                      exact hopened next.1

theorem carryOut_accounted (plan : PlannedAdd) {planned : List Int32}
    (h : Accounted (plan.handle :: planned) self) : Accounted planned (self.carryOut plan) := by
  obtain ⟨dirs, hcarry⟩ := self.carryOut_spec plan
  rw [hcarry]
  unfold Accounted
  rw [← List.append_assoc self.closedHandles, List.append_assoc _ [plan.handle]]
  exact h

theorem foldl_carryOut_accounted {plans : List PlannedAdd}
    (h : Accounted (plans.map PlannedAdd.handle) self) :
    Accounted [] (plans.foldl carryOut self) := by
  induction plans generalizing self with
  | nil => exact h
  | cons plan plans ih => exact ih (carryOut_accounted plan h)

theorem foldl_carryOut_quiet {σ : Type} (plans : List PlannedAdd) (self : Watcher σ) :
    (plans.foldl carryOut self).emitted = self.emitted ∧
      (plans.foldl carryOut self).state.closed = self.state.closed := by
  induction plans generalizing self with
  | nil => exact ⟨rfl, rfl⟩
  | cons plan plans ih =>
      obtain ⟨dirs, hcarry⟩ := self.carryOut_spec plan
      obtain ⟨hemitted, hclosed⟩ := ih (self.carryOut plan)
      rw [List.foldl_cons, hemitted, hclosed, hcarry]
      exact ⟨rfl, rfl⟩

/-- A call of `add` that fails leaves the watcher as it was, and none of what it has opened. -/
theorem add_accounted (values : List String) (h : Accounted [] self) :
    Accounted [] (self.add w.recording values).2 ∧
      (self.add w.recording values).2.emitted = self.emitted ∧
      (self.add w.recording values).2.state.closed = self.state.closed ∧
      ∀ message, (self.add w.recording values).1 = .error message →
        (self.add w.recording values).2.state = self.state := by
  unfold Watcher.add
  split_ifs
  · exact ⟨h, rfl, rfl, fun _ _ => rfl⟩
  · cases hplans : planAdds w.recording values [] self with
    | mk result later =>
        obtain ⟨haccounted, hstate, hemitted⟩ := @planAdds_accounted _ _ _ _ _ [] _ h hplans
        cases result with
        | error message => exact ⟨haccounted, hemitted, by rw [hstate], fun _ _ => hstate⟩
        | ok plans =>
            obtain ⟨hquiet, hclosed⟩ := foldl_carryOut_quiet plans later
            refine ⟨foldl_carryOut_accounted haccounted, hquiet.trans hemitted, ?_, ?_⟩
            · rw [← hstate]
              exact hclosed
            · intro message hmessage
              cases hmessage

theorem unwatch_eq {σ : Type} (values : List String) (self : Watcher σ) :
    ∃ dirs, self.unwatch values = self.setDirs dirs := by
  unfold unwatch
  induction values generalizing self with
  | nil => exact ⟨self.state.dirs, rfl⟩
  | cons path values ih => exact ih _

theorem call_accounted (next : Call) (h : Accounted [] self) :
    Accounted [] (self.call w.recording next) := by
  cases next with
  | add values => exact (add_accounted values h).1
  | unwatch values =>
      obtain ⟨dirs, hdirs⟩ := self.unwatch_eq values
      rw [call, hdirs]
      exact h
  | process =>
      have hstays : Stays (fun world => world.2 = self.world.2) self.emitted self.unmoved.fixed self :=
        ⟨rfl, List.prefix_rfl, rfl⟩
      obtain ⟨hworld, -, hfixed⟩ := process_stays (w.recording_closed self.world.2) hstays
      have hclosed := congrArg Fixed.closedHandles hfixed
      have hhandles := congrArg Fixed.handles hfixed
      show (self.process w.recording).2.world.2.Perm _
      rw [hworld]
      show self.world.2.Perm
        ((self.process w.recording).2.unmoved.fixed.closedHandles ++
          (self.process w.recording).2.unmoved.fixed.handles ++ [])
      rw [hclosed, hhandles]
      exact h
  | close =>
      show self.world.2.Perm (self.closedHandles ++ self.state.handles ++ [] ++ [])
      rwa [List.append_nil]

theorem run_accounted (calls : List Call) (h : Accounted [] self) :
    Accounted [] (run w.recording calls self) := by
  induction calls generalizing self with
  | nil => exact h
  | cons next calls ih => exact ih (call_accounted next h)

/-! ## After `close` -/

/-- What has been closed stays so, and is silent. -/
theorem call_closed (next : Call) (h : Accounted [] self) (hclosed : self.state.closed = true) :
    (self.call w.recording next).state.closed = true ∧
      (self.call w.recording next).emitted = self.emitted := by
  cases next with
  | add values =>
      obtain ⟨-, hemitted, hsame, -⟩ := add_accounted (w := w) values h
      exact ⟨hsame.trans hclosed, hemitted⟩
  | unwatch values =>
      obtain ⟨dirs, hdirs⟩ := self.unwatch_eq values
      rw [call, hdirs]
      exact ⟨hclosed, rfl⟩
  | process =>
      have hsame : self.process w.recording = (.ok (), self) := by
        rw [Watcher.process, if_pos hclosed]
      rw [call, hsame]
      exact ⟨hclosed, rfl⟩
  | close => exact ⟨rfl, rfl⟩

theorem run_closed (calls : List Call) (h : Accounted [] self) (hclosed : self.state.closed = true) :
    (run w.recording calls self).emitted = self.emitted := by
  induction calls generalizing self with
  | nil => rfl
  | cons next calls ih =>
      obtain ⟨hstill, hemitted⟩ := call_closed (w := w) next h hclosed
      exact (ih (call_accounted next h) hstill).trans hemitted

/-- Whatever is called, in whatever order, and whatever fails: each handle that the backend has
given out is held by the watcher or has been closed, once. An `add` that fails leaves the state as
it was; after a `close` none is held, and no event is emitted any more. -/
theorem run_handles (w : World σ) (options : Options) (world : σ) (calls : List Call) :
    let start := new options (world, [])
    let later := run w.recording calls start
    later.world.2.Perm (later.closedHandles ++ later.state.handles) ∧
      (∀ values message, (later.add w.recording values).1 = .error message →
        (later.add w.recording values).2.state = later.state) ∧
      ∀ before after, calls = before ++ .close :: after →
        later.emitted = (run w.recording before start).emitted ∧
          (after = [] → later.world.2.Perm later.closedHandles) := by
  intro start later
  have hstart : Accounted [] start := List.Perm.refl []
  have hlater : Accounted [] later := run_accounted calls hstart
  have hheld : later.world.2.Perm (later.closedHandles ++ later.state.handles) := by
    simpa only [Accounted, List.append_nil] using hlater
  refine ⟨hheld, fun values message h => (add_accounted values hlater).2.2.2 message h, ?_⟩
  intro before after hcalls
  have hbefore : Accounted [] (run w.recording before start) := run_accounted before hstart
  have hrun : later = run w.recording after (run w.recording before start).close := by
    show run w.recording calls start = _
    rw [hcalls, run_append]
    rfl
  constructor
  · rw [hrun]
    exact run_closed after (call_accounted (w := w) .close hbefore) rfl
  · rintro rfl
    have hnone : later.state.handles = [] := by
      rw [hrun]
      rfl
    rwa [hnone, List.append_nil] at hheld

end Watcher

end Mulp.Chokidar
