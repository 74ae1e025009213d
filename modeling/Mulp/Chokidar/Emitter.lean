import Mulp.Chokidar.Types

/-! Which listeners are called (`chokidar/emitter.mbt`). -/
namespace Mulp.Chokidar

/-- The callbacks are known by what tells them apart. -/
structure ListenerEntry (κ : Type) where
  event : EventName
  callback : κ
  deriving DecidableEq

structure Emitter (κ : Type) where
  listeners : List (ListenerEntry κ)

namespace Emitter

variable {κ : Type}

def new : Emitter κ := ⟨[]⟩

def on (self : Emitter κ) (event : EventName) (callback : κ) : Emitter κ :=
  ⟨self.listeners ++ [⟨event, callback⟩]⟩

def registered (self : Emitter κ) (name : EventName) : List κ :=
  (self.listeners.filter (·.event = name)).map ListenerEntry.callback

/-- The callbacks that `emit` calls, in order: those of the event's own name, and then those of
`all`, which hear of every event but `Ready`, `Error` and `Raw`. -/
def emit (self : Emitter κ) (event : Event) : List κ :=
  self.registered event.name ++
    if event.name ≠ .ready ∧ event.name ≠ .raw ∧ event.name ≠ .error ∧ event.name ≠ .all then
      self.registered .all
    else []

/-- The names for which a callback is registered that hears everything. -/
def everything : List EventName := [.all, .ready, .error, .raw]

def onEverything (self : Emitter κ) (callback : κ) : Emitter κ :=
  everything.foldl (fun self name => self.on name callback) self

/-- It is called once for each event, after the others that are registered for its name. -/
theorem filter_emit_onEverything [DecidableEq κ] {self : Emitter κ} {callback : κ}
    (h : ∀ entry ∈ self.listeners, entry.callback ≠ callback) (event : Event) :
    ((self.onEverything callback).emit event).filter (· = callback) = [callback] := by
  have hnone (name : EventName) : (self.registered name).filter (· = callback) = [] := by
    rw [List.filter_eq_nil_iff]
    intro other hother
    obtain ⟨entry, hentry, rfl⟩ := List.mem_map.mp hother
    simpa using h entry (List.mem_filter.mp hentry).1
  have hregistered (name : EventName) :
      ((self.onEverything callback).registered name).filter (· = callback) =
        if name ∈ everything then [callback] else [] := by
    have hlisteners : (self.onEverything callback).listeners =
        self.listeners ++ everything.map fun name => ⟨name, callback⟩ := by
      simp [onEverything, everything, on]
    rw [registered, hlisteners, List.filter_append, List.map_append, List.filter_append]
    rw [show ((self.listeners.filter (·.event = name)).map ListenerEntry.callback).filter
      (· = callback) = [] from hnone name, List.nil_append]
    cases name <;> simp [everything]
  rw [emit, List.filter_append, hregistered]
  cases hname : event.name <;> simp [hregistered, everything]

end Emitter

end Mulp.Chokidar
