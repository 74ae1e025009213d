import Mulp.Chokidar.Path
import Mulp.Chokidar.Snapshot
import Mulp.Text.Slice

/-! The state of a watcher (`chokidar/state.mbt`).

What the watcher asks of the system is a world: its answers may depend on all that it
has been asked before. -/
namespace Mulp.Chokidar

open Keyed

structure DirEntry where
  path : String
  children : List String
  deriving DecidableEq

structure PendingTimedEvent where
  event : Event
  createdAt : UInt64
  deriving DecidableEq

structure PendingWrite where
  event : Event
  stats : FileStats
  stableSince : UInt64
  lastChecked : UInt64
  deriving DecidableEq

/-- The directories of `get_watched` and what is listed in each. -/
abbrev Dirs := List DirEntry

structure WatchState where
  options : Options
  dirs : Dirs
  rootPaths : List String
  snapshots : String → Option (List SnapshotEntry)
  handles : List Int32
  pendingEvents : List Event
  pendingUnlinks : List PendingTimedEvent
  pendingWrites : List PendingWrite
  throttledChanges : List String
  closed : Bool
  ready : Bool

def WatchState.new (options : Options) : WatchState :=
  ⟨options, [], [], fun _ => none, [], [], [], [], [], false, false⟩

/-! ## The listed paths -/

/-- The order of strings: by length, then by code units. -/
def compareUnits : List UInt16 → List UInt16 → Int
  | left :: leftRest, right :: rightRest =>
      if left < right then -1 else if left > right then 1 else compareUnits leftRest rightRest
  | _, _ => 0

def compareStrings (left right : String) : Int :=
  let left := Text.units left
  let right := Text.units right
  if left.length < right.length then -1
  else if left.length > right.length then 1
  else compareUnits left right

/-- `children.sort()`. -/
def sortStrings (children : List String) : List String :=
  children.insertionSort fun left right => compareStrings left right ≤ 0

namespace Dirs

/-- `WatchState::add_child`, where the directory is made first if need be. -/
def addChild (dirs : Dirs) (dir child : String) : Dirs :=
  match dirs with
  | [] => [⟨dir, sortStrings [child]⟩]
  | entry :: rest =>
      if entry.path = dir then
        (if child ∈ entry.children then entry
          else { entry with children := sortStrings (entry.children ++ [child]) }) :: rest
      else entry :: addChild rest dir child

/-- `WatchState::remove_child`; a directory with nothing in it goes too. -/
def removeChild (dirs : Dirs) (dir child : String) : Dirs :=
  match dirs with
  | [] => []
  | entry :: rest =>
      if entry.path = dir then
        let children := entry.children.filter (· ≠ child)
        if children.isEmpty then rest else { entry with children := children } :: rest
      else entry :: removeChild rest dir child

def getWatched (dirs : Dirs) (dir : String) : Option (List String) :=
  let set (watched : String → Option (List String)) (entry : DirEntry) :=
    Function.update watched entry.path (some entry.children)
  dirs.foldl set (fun _ => none) dir

end Dirs

/-! ## The world -/

structure World (σ : Type) where
  now : σ → UInt64 × σ
  scanSnapshot : String → Options → σ → Except String (List SnapshotEntry) × σ
  statForPath : String → Bool → σ → Option FileStats × σ
  backendWatch : String → Options → σ → Except String Int32 × σ
  backendDrainEvents : σ → List RawEvent × σ

/-- A watcher in its world: the events that it has emitted and the handles that it has
closed are kept, oldest first. -/
structure Watcher (σ : Type) where
  state : WatchState
  emitted : List Event
  closedHandles : List Int32
  world : σ

def millisToUInt64 (millis : Int32) : UInt64 :=
  if millis ≤ 0 then 0 else millis.toUInt32.toUInt64

def atomicWindowMillis : AtomicOption → Int32
  | .atomicOff => 0
  | .atomicDefault => 100
  | .atomicWindow window => window

def awaitWriteThresholdMillis : AwaitWriteFinish → Int32
  | .awaitWriteFinishOff => 0
  | .awaitWriteFinishOn config => config.stabilityThreshold

section Calls

variable {σ : Type} (w : World σ)

def timestampExpired (startedAt : UInt64) (windowMillis : Int32) (world : σ) : Bool × σ :=
  let (now, world) := w.now world
  (startedAt + millisToUInt64 windowMillis ≤ now, world)

namespace Watcher

variable (self : Watcher σ)

def setPendingWrites (pendingWrites : List PendingWrite) : Watcher σ :=
  { self with state := { self.state with pendingWrites := pendingWrites } }

def setPendingUnlinks (pendingUnlinks : List PendingTimedEvent) : Watcher σ :=
  { self with state := { self.state with pendingUnlinks := pendingUnlinks } }

/-- An `Add` takes the first pending `Unlink` of its path with it. -/
def normalizeAtomic (event : Event) : List Event × Watcher σ :=
  match self.state.options.atomicOption with
  | .atomicOff => ([event], self)
  | .atomicDefault | .atomicWindow _ =>
      if event.name = .unlink then
        if isDotSwapFile event.path then ([], self)
        else
          let (now, world) := w.now self.world
          ([], { self.setPendingUnlinks (self.state.pendingUnlinks ++ [⟨event, now⟩]) with
            world := world })
      else if event.name = .add then
        match lookup (·.event.path) event.path self.state.pendingUnlinks with
        | some pending =>
            let rest := remove (·.event.path) event.path self.state.pendingUnlinks
            let (expired, world) := timestampExpired w pending.createdAt
              (atomicWindowMillis self.state.options.atomicOption) self.world
            (if expired then [pending.event, event] else [{ event with name := .change }],
              { self.setPendingUnlinks rest with world := world })
        | none => ([event], self)
      else ([event], self)

def eventNeedsWriteStability (event : Event) : Bool := event.name = .add || event.name = .change

def normalizeAwaitWrite (event : Event) : List Event × Watcher σ :=
  match self.state.options.awaitWriteFinish with
  | .awaitWriteFinishOff => ([event], self)
  | .awaitWriteFinishOn config =>
      if !eventNeedsWriteStability event then ([event], self)
      else
        match event.stats with
        | none => ([], self)
        | some stats =>
            let (now, world) := w.now self.world
            let self := { self with world := world }
            match lookup (·.event.path) event.path self.state.pendingWrites with
            | none =>
                ([], self.setPendingWrites (self.state.pendingWrites ++ [⟨event, stats, now, now⟩]))
            | some pending =>
                let (due, world) := timestampExpired w pending.lastChecked config.pollInterval self.world
                let self := { self with world := world }
                if !due then ([], self)
                else if pending.stats = stats then
                  let (stable, world) :=
                    timestampExpired w pending.stableSince config.stabilityThreshold self.world
                  let self := { self with world := world }
                  if stable then
                    ([event], self.setPendingWrites
                      (remove (·.event.path) event.path self.state.pendingWrites))
                  else
                    let pending := { pending with event := event, lastChecked := now }
                    ([], self.setPendingWrites
                      (upsert (·.event.path) pending self.state.pendingWrites))
                else
                  let pending : PendingWrite := ⟨event, stats, now, now⟩
                  ([], self.setPendingWrites
                    (upsert (·.event.path) pending self.state.pendingWrites))

end Watcher

/-- The loop of both flushes: what has expired goes, in its order, and the rest stays. -/
def flushExpired {α : Type} (startedAt : α → UInt64) (event : α → Event) (window : Int32) :
    List α → σ → (List Event × List α) × σ
  | [], world => (([], []), world)
  | pending :: rest, world =>
      let (expired, world) := timestampExpired w (startedAt pending) window world
      let ((events, kept), world) := flushExpired startedAt event window rest world
      if expired then ((event pending :: events, kept), world)
      else ((events, pending :: kept), world)

namespace Watcher

variable (self : Watcher σ)

def flushExpiredPendingUnlinks : List Event × Watcher σ :=
  let ((events, kept), world) := flushExpired w PendingTimedEvent.createdAt PendingTimedEvent.event
    (atomicWindowMillis self.state.options.atomicOption) self.state.pendingUnlinks self.world
  (events, { self.setPendingUnlinks kept with world := world })

def flushStableWrites : List Event × Watcher σ :=
  let ((events, kept), world) := flushExpired w PendingWrite.stableSince PendingWrite.event
    (awaitWriteThresholdMillis self.state.options.awaitWriteFinish) self.state.pendingWrites self.world
  (events, { self.setPendingWrites kept with world := world })

def allowEvent (name : EventName) (path : String) : Bool × Watcher σ :=
  if name ≠ .change then (true, self)
  else if path ∈ self.state.throttledChanges then (false, self)
  else (true, { self with
    state := { self.state with throttledChanges := self.state.throttledChanges ++ [path] } })

def clearThrottles : Watcher σ := { self with state := { self.state with throttledChanges := [] } }

end Watcher

end Calls

end Mulp.Chokidar
