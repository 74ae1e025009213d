import Mulp.Chokidar.Emitter
import Mulp.Chokidar.Watcher
import Mulp.GlobWatcher.Patterns

/-! The watcher of globs (`glob-watcher/globwatcher.mbt`), its debouncer
(`debounce.mbt`) and the queue of its callback (`queue.mbt`).

What is done is kept in a log. The callback may use the watcher while it runs; what it
does is a script with one turn a call, of which each may end with an error. The nested
calls come back to the same watcher, so the state is passed through them. -/
namespace Mulp.GlobWatch

open Chokidar (Event EventName FileStats Matcher World ListenerEntry Emitter)

inductive GlobWatcherError where
  | globError (message : String)
  | setupError (message : String)
  deriving DecidableEq

structure Options where
  delay : Int32
  queue : Bool
  events : List EventName
  ignoreInitial : Bool
  ignored : List Matcher
  cwd : Option String
  depth : Int32
  usePolling : Bool

def Options.default : Options where
  delay := 200
  queue := true
  events := [.add, .change, .unlink]
  ignoreInitial := true
  ignored := []
  cwd := none
  depth := 2147483647
  usePolling := true

structure Debouncer where
  delay : Int32
  lastEventAt : Option UInt64
  pending : Option Event
  deriving DecidableEq

namespace Debouncer

def new (delay : Int32) : Debouncer := ⟨delay, none, none⟩

def feed (self : Debouncer) (event : Event) (now : UInt64) : Debouncer :=
  { self with lastEventAt := some now, pending := some event }

def flush (self : Debouncer) (now : UInt64) : Option Event × Debouncer :=
  match self.lastEventAt with
  | none => (none, self)
  | some last =>
      if now ≥ last + self.delay.toUInt32.toUInt64 then
        (self.pending, { self with lastEventAt := none, pending := none })
      else (none, self)

def isPending (self : Debouncer) : Bool := self.pending.isSome

end Debouncer

structure CallbackQueue where
  running : Bool
  queuedEvent : Option Event
  queueMode : Bool
  deriving DecidableEq

def CallbackQueue.new (queueMode : Bool) : CallbackQueue := ⟨false, none, queueMode⟩

/-- What `try_run` does while the callback runs: it keeps the event, in place of the one that it has
kept before, or drops it if the queue is off. -/
def CallbackQueue.enqueue (self : CallbackQueue) (event : Event) : CallbackQueue :=
  if self.queueMode then { self with queuedEvent := some event } else self

/-- What is done by a watcher or with it. -/
inductive Entry where
  | told (callback : Nat) (event : Event)
  | fed (event : Event) (now : UInt64)
  | waited (now : UInt64)
  | flushed (event : Event) (now : UInt64) (submitted : Bool)
  | called (event : Event)
  | returned (error : Option String)

/-- What the program, or its callback, does with a watcher: a tick may be given the callback. -/
inductive Act where
  | tick (cb : Bool)
  | on (event : EventName) (callback : Nat)
  | close

/-- What the callback does when it is called, and what it raises in the end. -/
structure Turn where
  acts : List Act
  error : Option String

structure GlobWatcher (σ : Type) where
  chokidarWatcher : Chokidar.Watcher σ
  debouncer : Debouncer
  queue : CallbackQueue
  positives : List GlobPattern
  options : Options
  listeners : List (ListenerEntry Nat)
  turns : List Turn
  log : List Entry

/-! ## Setting up -/

/-- The value of a variable that turns polling on or off. -/
def pollingOf (value : String) : Bool :=
  let lower := value.toLower
  if lower = "false" || lower = "0" then false else lower ≠ ""

/-- `apply_env_overrides`, where `CHOKIDAR_USEPOLLING` has the value. -/
def applyEnvOverrides (usepolling : Option String) (options : Chokidar.Options) :
    Chokidar.Options :=
  match usepolling with
  | some value => { options with usePolling := pollingOf value }
  | none => options

/-- What `GlobWatcher::new` asks of chokidar. -/
def chokidarOptions (options : Options) (negations : List GlobPattern) : Chokidar.Options :=
  { Chokidar.Options.default with
    ignoreInitial := options.ignoreInitial
    ignored := options.ignored ++ negations.map fun negation =>
      .matchFunction fun path _ => globMatch negation.raw path = some true
    cwd := options.cwd
    depth := options.depth
    usePolling := options.usePolling }

namespace GlobWatcher

variable {σ : Type} (w : World σ)

/-- The rest of `GlobWatcher::new`, where the globs have been parsed. -/
def setUp (usepolling : Option String) (options : Options) (turns : List Turn) (world : σ)
    (positives negations : List GlobPattern) : Except GlobWatcherError (GlobWatcher σ) :=
  if positives = [] then .error (.globError "no positive glob patterns provided")
  else
    match Chokidar.Watcher.watch w (resolvedDirs options.cwd positives)
        (applyEnvOverrides usepolling (chokidarOptions options negations)) world with
    | (.error message, _) => .error (.setupError message)
    | (.ok (), chokidarWatcher) => .ok
        { chokidarWatcher := chokidarWatcher
          debouncer := .new options.delay
          queue := .new options.queue
          positives := positives
          options := options
          listeners := []
          turns := turns
          log := [] }

/-- `GlobWatcher::new`, unless it aborts. -/
def new (usepolling : Option String) (glob : List String) (options : Options)
    (turns : List Turn) (world : σ) : Option (Except GlobWatcherError (GlobWatcher σ)) :=
  (parseGlobs glob).map fun patterns =>
    setUp w usepolling options turns world patterns.1 patterns.2

/-! ## A tick -/

variable (self : GlobWatcher σ)

def note (entry : Entry) : GlobWatcher σ := { self with log := self.log ++ [entry] }

def on (event : EventName) (callback : Nat) : GlobWatcher σ :=
  { self with listeners := self.listeners ++ [⟨event, callback⟩] }

def emitToListeners (event : Event) : GlobWatcher σ :=
  self.listeners.foldl
    (fun self entry =>
      if entry.event = event.name ∨ entry.event = .all then self.note (.told entry.callback event)
      else self)
    self

/-- How often the listener of a tick hears an event. -/
def heard (event : Event) : List Event :=
  ((Emitter.new.onEverything ()).emit event).map fun _ => event

def isDirect (name : EventName) : Bool := name = .ready || name = .error || name = .raw

/-- The event is one that the watcher was made for. -/
def wanted (event : Event) : Bool :=
  !isDirect event.name && self.options.events.contains event.name &&
    self.positives.any fun pattern => globMatch pattern.raw event.path = some true

def now : UInt64 × GlobWatcher σ :=
  let (now, world) := w.now self.chokidarWatcher.world
  (now, { self with chokidarWatcher := { self.chokidarWatcher with world := world } })

def feed (event : Event) (now : UInt64) : GlobWatcher σ :=
  { self.note (.fed event now) with debouncer := self.debouncer.feed event now }

/-- What the listeners of the watcher are told of a cycle. -/
def forward (events : List Event) (result : Except String Unit) : GlobWatcher σ :=
  let self := (events.filter (isDirect ·.name)).foldl emitToListeners self
  match result with
  | .error message => self.emitToListeners (Chokidar.Watcher.errorEvent message)
  | .ok () => self

/-- A tick up to the flush: the chokidar watcher goes through a cycle, and what it has emitted is
handed on to the listeners and the debouncer. -/
def advance : GlobWatcher σ :=
  let (result, later) := self.chokidarWatcher.process w
  let events := (later.emitted.drop self.chokidarWatcher.emitted.length).flatMap heard
  let (now, self) := ({ self with chokidarWatcher := later }.forward events result).now w
  (events.filter self.wanted).foldl (fun self event => self.feed event now) self

/-- A tick; what is flushed is submitted, where there is a callback. -/
def tickWith (submit : GlobWatcher σ → Event → GlobWatcher σ) (cb : Bool) : GlobWatcher σ :=
  let (now, self) := (self.advance w).now w
  let (flushed, debouncer) := self.debouncer.flush now
  let self := { self with debouncer := debouncer }
  match flushed with
  | none => self.note (.waited now)
  | some event =>
      let self := self.note (.flushed event now cb)
      if cb then submit self event else self

/-! ## The callback -/

def close : GlobWatcher σ :=
  { self with chokidarWatcher := self.chokidarWatcher.close, listeners := [] }

/-- What the callback does while it runs: the queue is busy. -/
def nested : Act → GlobWatcher σ
  | .tick cb => self.tickWith w (fun self event => { self with queue := self.queue.enqueue event }) cb
  | .on event callback => self.on event callback
  | .close => self.close

/-- The callback is called and its error, if it raises one, is passed on. -/
def callOnce (event : Event) : GlobWatcher σ :=
  let turn := self.turns.headD ⟨[], none⟩
  let self := { self.note (.called event) with
    queue := { self.queue with running := true }
    turns := self.turns.tail }
  let self := turn.acts.foldl (nested w) self
  let self := { self.note (.returned turn.error) with
    queue := { self.queue with running := false } }
  match turn.error with
  | some message => self.emitToListeners (Chokidar.Watcher.errorEvent message)
  | none => self

/-- The calls one after the other, at most so many after the first. -/
def drain : Nat → Event → GlobWatcher σ → GlobWatcher σ
  | 0, event, self => self.callOnce w event
  | n + 1, event, self =>
      let self := self.callOnce w event
      match self.queue.queuedEvent with
      | none => self
      | some queued => drain n queued { self with queue := { self.queue with queuedEvent := none } }

/-- `CallbackQueue::try_run`: a call takes a turn, so there are not more calls than that. -/
def tryRun (event : Event) : GlobWatcher σ :=
  if self.queue.running then { self with queue := self.queue.enqueue event }
  else drain w (self.turns.length + 1) event self

def act : Act → GlobWatcher σ
  | .tick cb => self.tickWith w (tryRun w) cb
  | .on event callback => self.on event callback
  | .close => self.close

def run (acts : List Act) : GlobWatcher σ := acts.foldl (act w) self

end GlobWatcher

end Mulp.GlobWatch
