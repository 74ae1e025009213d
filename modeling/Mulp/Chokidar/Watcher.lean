import Mulp.Chokidar.State

/-! The watcher (`chokidar/watcher.mbt`): its scans, and what it makes of what they
find.

What is emitted is kept in a list, in order, and so are the handles that have been
closed. Whatever the source raises is an `Except` beside the state that it has come to,
for a cycle that fails has done part of its work. -/
namespace Mulp.Chokidar

/-- A root that a call of `add` has planned, its backend handle and what is in it. -/
structure PlannedAdd where
  root : String
  handle : Int32
  entries : List SnapshotEntry
  events : List Event

def initialEventsFromEntries (entries : List SnapshotEntry) (options : Options) : List Event :=
  if options.ignoreInitial then [] else entries.map added

def rawEventAffectsRoot (raw : RawEvent) (root : String) : Bool :=
  if raw.watchedPath = "" then true
  else if raw.watchedPath = root then true
  else
    match raw.eventPath with
    | some path => recursivePathMatches root (joinPath raw.watchedPath path)
    | none => false

def pathForRawEvent (raw : RawEvent) (options : Options) : String :=
  match raw.eventPath with
  | some path => eventPathFor (joinPath raw.watchedPath path) options
  | none => eventPathFor raw.watchedPath options

/-- The event of a scanned entry, with the path that listeners are told. -/
def scannedEvent (root : String) (options : Options) (event : Event) : Event :=
  event.setPath (eventPathFor (joinPath root event.path) options)

namespace Watcher

variable {σ : Type} (w : World σ)

def new (options : Options) (world : σ) : Watcher σ := ⟨WatchState.new options, [], [], world⟩

variable (self : Watcher σ)

def emit (event : Event) : Watcher σ := { self with emitted := self.emitted ++ [event] }

/-- An event after the throttle, which lets one `Change` of a path through in a cycle and drops the
others. -/
def emitAllowed (event : Event) : Watcher σ :=
  let (allowed, self) := self.allowEvent event.name event.path
  if allowed then self.emit event else self

def dispatchReadyEvent (event : Event) : Watcher σ :=
  let (normalized, self) := self.normalizeAtomic w event
  normalized.foldl emitAllowed self

/-- The stats that `emit_event` asks for where an event has none; it is dropped if there are none. -/
def withStats (event : Event) : Option Event × Watcher σ :=
  if self.state.options.alwaysStat && event.stats.isNone &&
      (event.name = .add || event.name = .addDir || event.name = .change) then
    let (stats, world) := w.statForPath (absolutePathFor event.path self.state.options)
      self.state.options.followSymlinks self.world
    (stats.map fun stats => { event with stats := some stats }, { self with world := world })
  else (some event, self)

def emitEvent (event : Event) : Watcher σ :=
  if self.state.closed || isIgnored event.path event.stats self.state.options.ignored then self
  else
    match self.withStats w event with
    | (none, self) => self
    | (some event, self) =>
        let (ready, self) := self.normalizeAwaitWrite w event
        ready.foldl (dispatchReadyEvent w) self

def setDirs (dirs : Dirs) : Watcher σ := { self with state := { self.state with dirs := dirs } }

def recordEventInWatched (event : Event) : Watcher σ :=
  match event.name with
  | .add | .addDir =>
      self.setDirs (self.state.dirs.addChild (pathDirname event.path) (pathBasename event.path))
  | .unlink | .unlinkDir =>
      self.setDirs (self.state.dirs.removeChild (pathDirname event.path) (pathBasename event.path))
  | .change | .ready | .raw | .error | .all => self

def emitScannedEvent (root : String) (event : Event) : Watcher σ :=
  let event := scannedEvent root self.state.options event
  (self.recordEventInWatched event).emitEvent w event

def queueScannedEvent (root : String) (event : Event) : Watcher σ :=
  let event := scannedEvent root self.state.options event
  let self := self.recordEventInWatched event
  { self with state := { self.state with pendingEvents := self.state.pendingEvents ++ [event] } }

def snapshotFor (root : String) : List SnapshotEntry := (self.state.snapshots root).getD []

def setSnapshot (root : String) (entries : List SnapshotEntry) : Watcher σ :=
  { self with state :=
    { self.state with snapshots := Function.update self.state.snapshots root (some entries) } }

/-- `scan_root` as it is called, with `initial=false`. -/
def scanRoot (root : String) : Except String Unit × Watcher σ :=
  let oldEntries := self.snapshotFor root
  match w.scanSnapshot root self.state.options self.world with
  | (.error message, world) => (.error message, { self with world := world })
  | (.ok newEntries, world) =>
      let self := { self with world := world }.setSnapshot root newEntries
      (.ok (), (diffSnapshots oldEntries newEntries).foldl (fun self => self.emitScannedEvent w root) self)

/-- The roots one after the other, up to the first scan that fails. -/
def scanRoots : List String → Watcher σ → Except String Unit × Watcher σ
  | [], self => (.ok (), self)
  | root :: rest, self =>
      match self.scanRoot w root with
      | (.error message, self) => (.error message, self)
      | (.ok (), self) => scanRoots rest self

def readyEvent : Event := ⟨.ready, "", none, none, none⟩

def rawEventOf (raw : RawEvent) (options : Options) : Event :=
  ⟨.raw, pathForRawEvent raw options, none, some raw, none⟩

/-- What `process_raw_events` emits before its scans: the events of the first scans that wait, and
in the first cycle `Ready` after them. -/
def emitPending : Watcher σ :=
  let self := self.state.pendingEvents.foldl (emitEvent w) self
  let self := { self with state := { self.state with pendingEvents := [] } }
  if self.state.ready then self
  else { self with state := { self.state with ready := true } }.emitEvent w readyEvent

/-- The roots that `process_raw_events` scans. -/
def rootsToScan (rawEvents : List RawEvent) : List String :=
  if self.state.options.usePolling then self.state.rootPaths
  else rawEvents.flatMap fun raw => self.state.rootPaths.filter (rawEventAffectsRoot raw)

def processRawEvents (rawEvents : List RawEvent) : Except String Unit × Watcher σ :=
  let self := self.emitPending w
  let self := rawEvents.foldl (fun self raw => self.emitEvent w (rawEventOf raw self.state.options)) self
  scanRoots w (self.rootsToScan rawEvents) self

def finishProcessCycle : Watcher σ :=
  let (ready, self) := self.flushStableWrites w
  let self := ready.foldl (dispatchReadyEvent w) self
  let (pending, self) := self.flushExpiredPendingUnlinks w
  let self := pending.foldl emitAllowed self
  self.clearThrottles

def errorEvent (message : String) : Event := ⟨.error, "", none, none, some message⟩

def process : Except String Unit × Watcher σ :=
  if self.state.closed then (.ok (), self)
  else
    let (rawEvents, world) := w.backendDrainEvents self.world
    let (result, self) := { self with world := world }.processRawEvents w rawEvents
    let self := self.finishProcessCycle w
    match result with
    | .error message => (.error message, self.emit (errorEvent message))
    | .ok () => (.ok (), self)

/-! ## Adding and closing -/

/-- `backend_close` of the handles. -/
def backendClose (handles : List Int32) : Watcher σ :=
  { self with closedHandles := self.closedHandles ++ handles }

/-- The plans of `Watcher::add`, or what is left after the failure of one. -/
def planAdds : List String → List PlannedAdd → Watcher σ →
    Except String (List PlannedAdd) × Watcher σ
  | [], plans, self => (.ok plans, self)
  | path :: rest, plans, self =>
      let root := normalizePath path
      match w.backendWatch root self.state.options self.world with
      | (.error message, world) =>
          (.error message, { self with world := world }.backendClose (plans.map PlannedAdd.handle))
      | (.ok handle, world) =>
          match w.scanSnapshot root self.state.options world with
          | (.error message, world) =>
              (.error message,
                { self with world := world }.backendClose (handle :: plans.map PlannedAdd.handle))
          | (.ok entries, world) =>
              let plan : PlannedAdd :=
                ⟨root, handle, entries, initialEventsFromEntries entries self.state.options⟩
              planAdds rest (plans ++ [plan]) { self with world := world }

/-- What `Watcher::add` does with a plan, when all paths have been planned and nothing can fail any
more. -/
def carryOut (plan : PlannedAdd) : Watcher σ :=
  let self := self.setDirs (self.state.dirs.addChild (pathDirname plan.root) (pathBasename plan.root))
  let rootPaths :=
    if plan.root ∈ self.state.rootPaths then self.state.rootPaths
    else self.state.rootPaths ++ [plan.root]
  let self := { self with state := { self.state with
    rootPaths := rootPaths
    handles := self.state.handles ++ [plan.handle] } }
  let self := self.setSnapshot plan.root plan.entries
  plan.events.foldl (fun self => self.queueScannedEvent plan.root) self

def add (values : List String) : Except String Unit × Watcher σ :=
  if "" ∈ values then (.error "watch path must not be empty", self)
  else
    match planAdds w values [] self with
    | (.error message, self) => (.error message, self)
    | (.ok plans, self) => (.ok (), plans.foldl carryOut self)

def unwatch (values : List String) : Watcher σ :=
  values.foldl
    (fun self path =>
      self.setDirs (self.state.dirs.removeChild (pathDirname path) (pathBasename path)))
    self

/-- `Watcher::close`, with `WatchState::clear`. -/
def close : Watcher σ :=
  let self := self.backendClose self.state.handles
  { self with state := { WatchState.new self.state.options with
    closed := true
    ready := self.state.ready } }

/-- `watch`, with options as they are after `apply_env_overrides`. -/
def watch (values : List String) (options : Options) (world : σ) : Except String Unit × Watcher σ :=
  (new options world).add w values

/-- So many calls of `process`, whatever they raise. -/
def cycles : Nat → Watcher σ
  | 0 => self
  | n + 1 => ((cycles n).process w).2

end Watcher

end Mulp.Chokidar
