import Mulp.Lib.Patch

/-! The events of a watcher and what a scan finds (`chokidar/types.mbt`), and what is known
of the files from the events. -/
namespace Mulp.Chokidar

inductive EventName where
  | add
  | change
  | addDir
  | unlink
  | unlinkDir
  | ready
  | raw
  | error
  | all
  deriving DecidableEq

inductive FileKind where
  | file
  | directory
  | symlink
  | other
  deriving DecidableEq

structure FileStats where
  size : Int64
  mode : Int32
  modifiedNanos : Int64
  deriving DecidableEq

structure RawEvent where
  backendEventName : String
  watchedPath : String
  eventPath : Option String
  platform : String
  errorMessage : Option String
  deriving DecidableEq

structure Event where
  name : EventName
  path : String
  stats : Option FileStats
  raw : Option RawEvent
  /-- The message of the `ChokidarError`. -/
  error : Option String
  deriving DecidableEq

inductive AtomicOption where
  | atomicDefault
  | atomicOff
  | atomicWindow (window : Int32)
  deriving DecidableEq

structure AwaitWriteFinishOptions where
  stabilityThreshold : Int32
  pollInterval : Int32
  deriving DecidableEq

inductive AwaitWriteFinish where
  | awaitWriteFinishOff
  | awaitWriteFinishOn (config : AwaitWriteFinishOptions)
  deriving DecidableEq

/-- An element of the `priv struct SnapshotEntry` of `chokidar/scanner.mbt`. -/
structure SnapshotEntry where
  path : String
  kind : FileKind
  stats : Option FileStats
  deriving DecidableEq

/-! ## What is known from the events -/

open Patch

/-- A path at which a directory, or anything else, may be. -/
structure Slot where
  path : String
  dir : Bool
  deriving DecidableEq

/-- What is in the slots: of a file its stats, of a directory that it is there. -/
abbrev Files := View Slot (Option FileStats)

namespace Event

/-- What a listener learns from an event. -/
def edit? (event : Event) : Option (Edit Slot (Option FileStats)) :=
  match event.name with
  | .add | .change => some (.put ⟨event.path, false⟩ event.stats)
  | .addDir => some (.put ⟨event.path, true⟩ none)
  | .unlink => some (.drop ⟨event.path, false⟩)
  | .unlinkDir => some (.drop ⟨event.path, true⟩)
  | .ready | .raw | .error | .all => none

/-- `{ ..event, path }`. -/
def setPath (event : Event) (path : String) : Event := { event with path := path }

@[simp] theorem path_setPath (event : Event) (path : String) : (event.setPath path).path = path := rfl

@[simp] theorem name_setPath (event : Event) (path : String) :
    (event.setPath path).name = event.name := rfl

@[simp] theorem stats_setPath (event : Event) (path : String) :
    (event.setPath path).stats = event.stats := rfl

theorem path_of_edit? {event : Event} {edit : Edit Slot (Option FileStats)}
    (h : event.edit? = some edit) : edit.key.path = event.path := by
  cases event with
  | mk name path stats raw error =>
      cases name <;> simp only [edit?, Option.some.injEq, reduceCtorEq] at h <;> rw [← h] <;> rfl

end Event

/-- What is known after the events. -/
def learn (known : Files) (events : List Event) : Files := replay known (events.filterMap Event.edit?)

theorem learn_append (known : Files) (first second : List Event) :
    learn known (first ++ second) = learn (learn known first) second := by
  rw [learn, List.filterMap_append, replay_append]
  rfl

@[simp] theorem learn_nil (known : Files) : learn known [] = known := rfl

theorem learn_singleton {event : Event} {edit : Edit Slot (Option FileStats)}
    (h : event.edit? = some edit) (known : Files) : learn known [event] = apply known edit := by
  rw [learn, List.filterMap_cons_some h]
  rfl

theorem learn_cons (known : Files) (event : Event) (events : List Event) :
    learn known (event :: events) = learn (learn known [event]) events :=
  learn_append known [event] events

/-- What is known at a path comes from the events about it. -/
theorem learn_at (known : Files) (events : List Event) (slot : Slot) :
    learn known events slot = learn known (events.filter (·.path = slot.path)) slot := by
  rw [learn, learn, replay_at, replay_at]
  congr 1
  induction events with
  | nil => rfl
  | cons event events ih =>
      by_cases hpath : event.path = slot.path
      · rw [List.filter_cons_of_pos (by simpa using hpath), List.filterMap_cons, List.filterMap_cons]
        cases hedit : event.edit? with
        | none => exact ih
        | some edit =>
            simp only [List.filter_cons]
            rw [ih]
      · -- an event about another path does not count
        rw [List.filter_cons_of_neg (by simpa using hpath), List.filterMap_cons]
        cases hedit : event.edit? with
        | none => exact ih
        | some edit =>
            have hkey : edit.key ≠ slot := by
              intro h
              rw [← Event.path_of_edit? hedit, h] at hpath
              exact hpath rfl
            rw [List.filter_cons_of_neg (by simpa using hkey)]
            exact ih

end Mulp.Chokidar
