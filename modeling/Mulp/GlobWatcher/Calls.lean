import Mulp.Lib.Coalesce
import Mulp.Lib.Debounce
import Mulp.Chokidar.Handles
import Mulp.GlobWatcher.Watcher

/-! When the callback of a watcher of globs is called, over all that may be done with
it.

Two machines stand between an event and a call: a debouncer, which keeps the last event
until nothing has come for the delay, and a queue, which keeps at most one event while
the callback runs. Each is a small relation of labelled steps, a library of its own, and
a log of the watcher is shown to be a run of both. -/
namespace Mulp.GlobWatch

open Chokidar (Event EventName World)
open Labelled

/-- An event that was fed is due; the time is reckoned with an overflow, and the delay is the one
that the source makes of a 32-bit integer, so that a negative one is very long. -/
def Due (delay : Int32) (fed now : UInt64) : Prop := now ≥ fed + delay.toUInt32.toUInt64

namespace Entry

def debounced : Entry → Option (Debounce.Op Event UInt64)
  | fed event now => some (.feed event now)
  | waited now => some (.wait now)
  | flushed event now _ => some (.release event now)
  | told _ _ => none
  | called _ => none
  | returned _ => none

def coalesced : Entry → Option (Coalesce.Op Event)
  | flushed event _ true => some (.submit event)
  | flushed _ _ false => none
  | called event => some (.start event)
  | returned _ => some .finish
  | told _ _ => none
  | fed _ _ => none
  | waited _ => none

def fedEvent : Entry → Option Event
  | fed event _ => some event
  | _ => none

end Entry

/-- A flush waits, or it gives the event that was fed last. -/
theorem Debouncer.flush_spec {delay : Int32} {pending : Option (Event × UInt64)} (now : UInt64) :
    (Debouncer.flush ⟨delay, pending.map Prod.snd, pending.map Prod.fst⟩ now =
        (none, ⟨delay, pending.map Prod.snd, pending.map Prod.fst⟩) ∧
      Debounce.Step (Due delay) pending (.wait now) pending) ∨
    ∃ event, Debouncer.flush ⟨delay, pending.map Prod.snd, pending.map Prod.fst⟩ now =
        (some event, ⟨delay, none, none⟩) ∧
      Debounce.Step (Due delay) pending (.release event now) none := by
  cases pending with
  | none => exact .inl ⟨rfl, .wait (by simp)⟩
  | some fed =>
      by_cases hdue : now ≥ fed.2 + delay.toUInt32.toUInt64
      · exact .inr ⟨fed.1, if_pos hdue, .release hdue⟩
      · refine .inl ⟨if_neg hdue, .wait ?_⟩
        intro other hother
        cases hother
        exact hdue

namespace GlobWatcher

variable {σ : Type} {w : World σ} {self later : GlobWatcher σ} {options : Options}
  {state : Coalesce.State Event} {event : Event}

/-! ## A tick up to the flush -/

/-- Listeners have been told, and nothing else has been done. A listener cannot reach the watcher in
this model, so it does not matter what it does. -/
def Tells (self later : GlobWatcher σ) : Prop :=
  ∃ tolds : List (Nat × Event),
    later = { self with log := self.log ++ tolds.map fun told => .told told.1 told.2 }

theorem Tells.refl (self : GlobWatcher σ) : Tells self self := ⟨[], by simp⟩

theorem Tells.trans {middle : GlobWatcher σ} (h : Tells self middle) (h' : Tells middle later) :
    Tells self later := by
  obtain ⟨first, rfl⟩ := h
  obtain ⟨second, rfl⟩ := h'
  exact ⟨first ++ second, by simp⟩

theorem Tells.foldl {α : Type} {f : GlobWatcher σ → α → GlobWatcher σ}
    (h : ∀ self x, Tells self (f self x)) (l : List α) (self : GlobWatcher σ) :
    Tells self (l.foldl f self) := by
  induction l generalizing self with
  | nil => exact .refl self
  | cons x l ih => exact (h self x).trans (ih (f self x))

theorem Tells.emitToListeners (self : GlobWatcher σ) (event : Event) :
    Tells self (self.emitToListeners event) := by
  apply Tells.foldl
  intro self entry
  split_ifs
  · exact ⟨[(entry.callback, event)], rfl⟩
  · exact .refl self

theorem Tells.forward (self : GlobWatcher σ) (events : List Event) (result : Except String Unit) :
    Tells self (self.forward events result) := by
  have htells := Tells.foldl Tells.emitToListeners (events.filter (isDirect ·.name)) self
  cases result with
  | error message => exact htells.trans (Tells.emitToListeners _ _)
  | ok _ => exact htells

/-- The listener of a tick hears each event once. -/
theorem heard_eq (event : Event) : heard event = [event] := by
  have h := @Chokidar.Emitter.filter_emit_onEverything Unit _ Chokidar.Emitter.new () (by
    intro entry hentry
    cases hentry) event
  rw [List.filter_eq_self.mpr (by simp)] at h
  rw [heard, h]
  rfl

theorem emitted_process (w : World σ) (watcher : Chokidar.Watcher σ) :
    watcher.emitted <+: (watcher.process w).2.emitted :=
  (Chokidar.Watcher.process_stays w.closed_true ⟨trivial, List.prefix_rfl, rfl⟩).emitted

theorem foldl_feed (events : List Event) (now : UInt64) (self : GlobWatcher σ) :
    events.foldl (fun self event => self.feed event now) self =
      { self with
        debouncer := events.foldl (fun debouncer event => debouncer.feed event now) self.debouncer
        log := self.log ++ events.map fun event => .fed event now } := by
  induction events generalizing self with
  | nil => simp
  | cons event events ih =>
      rw [List.foldl_cons, ih]
      simp [GlobWatcher.feed, note]

/-- What a tick does before it flushes: the listeners are told of some events, and those that are
wanted are fed. -/
theorem advance_spec (w : World σ) (self : GlobWatcher σ) :
    ∃ (events : List Event) (tolds : List (Nat × Event)) (now : UInt64) (world : σ),
      (self.chokidarWatcher.process w).2.emitted = self.chokidarWatcher.emitted ++ events ∧
      self.advance w = { self with
        chokidarWatcher := { (self.chokidarWatcher.process w).2 with world := world }
        debouncer := (events.filter self.wanted).foldl
          (fun debouncer event => debouncer.feed event now) self.debouncer
        log := self.log ++ (tolds.map fun told => .told told.1 told.2) ++
          (events.filter self.wanted).map fun event => .fed event now } := by
  obtain ⟨events, hevents⟩ := emitted_process w self.chokidarWatcher
  have hheard : ((self.chokidarWatcher.process w).2.emitted.drop
      self.chokidarWatcher.emitted.length).flatMap heard = events := by
    rw [← hevents, List.drop_left, List.flatMap_congr fun event _ => heard_eq event,
      List.flatMap_singleton']
  unfold advance
  cases hprocess : self.chokidarWatcher.process w with
  | mk result watcher =>
      rw [hprocess] at hheard hevents
      dsimp only at hheard ⊢
      rw [hheard]
      obtain ⟨tolds, htolds⟩ := Tells.forward { self with chokidarWatcher := watcher } events result
      rw [htolds]
      refine ⟨events, tolds, (w.now watcher.world).1, (w.now watcher.world).2, hevents.symm, ?_⟩
      rw [foldl_feed]
      rfl

/-! ## What the log says -/

/-- The log is one of a debouncer and of a callback that runs once at a time, and what has been fed
is what chokidar has emitted, as far as it is wanted. The log is the same for both machines, each of
which sees its own entries in it; so the invariant is that they have run over the whole log, up to
the states that the watcher's fields show. -/
structure Sound (options : Options) (positives : List GlobPattern) (state : Coalesce.State Event)
    (watcher : GlobWatcher σ) : Prop where
  options_eq : watcher.options = options
  positives_eq : watcher.positives = positives
  queueMode : watcher.queue.queueMode = options.queue
  debounced : ∃ pending : Option (Event × UInt64),
    watcher.debouncer = ⟨options.delay, pending.map Prod.snd, pending.map Prod.fst⟩ ∧
    Run (Debounce.Step (Due options.delay)) (watcher.log.filterMap Entry.debounced) none pending
  coalesced : Run (Coalesce.Step options.queue) (watcher.log.filterMap Entry.coalesced) (.ready none)
    state
  fed : watcher.log.filterMap Entry.fedEvent = watcher.chokidarWatcher.emitted.filter watcher.wanted

variable {positives : List GlobPattern}

theorem Sound.tells (h : Sound options positives state self) (htells : Tells self later) :
    Sound options positives state later := by
  obtain ⟨tolds, rfl⟩ := htells
  have hnone {β : Type} (f : Entry → Option β) (hf : ∀ callback event, f (.told callback event) = none) :
      (self.log ++ tolds.map fun told => Entry.told told.1 told.2).filterMap f =
        self.log.filterMap f := by
    rw [List.filterMap_append, List.append_right_eq_self, List.filterMap_eq_nil_iff]
    intro entry hentry
    obtain ⟨told, -, rfl⟩ := List.mem_map.mp hentry
    exact hf told.1 told.2
  obtain ⟨pending, hdebouncer, hrun⟩ := h.debounced
  constructor
  · exact h.options_eq
  · exact h.positives_eq
  · exact h.queueMode
  · refine ⟨pending, hdebouncer, ?_⟩
    rw [hnone _ fun _ _ => rfl]
    exact hrun
  · rw [hnone _ fun _ _ => rfl]
    exact h.coalesced
  · rw [hnone _ fun _ _ => rfl]
    exact h.fed

/-- Feeding one event after the other. -/
theorem run_feed {delay : Int32} {trace : List (Debounce.Op Event UInt64)}
    {pending : Option (Event × UInt64)} (events : List Event) (now : UInt64)
    (h : Run (Debounce.Step (Due delay)) trace none pending) :
    ∃ next : Option (Event × UInt64),
      events.foldl (fun debouncer event => Debouncer.feed debouncer event now)
        ⟨delay, pending.map Prod.snd, pending.map Prod.fst⟩ =
          ⟨delay, next.map Prod.snd, next.map Prod.fst⟩ ∧
      Run (Debounce.Step (Due delay)) (trace ++ events.map fun event => .feed event now) none next := by
  induction events generalizing trace pending with
  | nil => exact ⟨pending, rfl, by simpa using h⟩
  | cons event events ih =>
      obtain ⟨next, hdebouncer, hrun⟩ := ih (h.concat (.feed pending event now))
      refine ⟨next, hdebouncer, ?_⟩
      rw [List.map_cons, List.append_cons]
      exact hrun

theorem Sound.advance (h : Sound options positives state self) (w : World σ) :
    Sound options positives state (self.advance w) := by
  obtain ⟨events, tolds, now, world, hevents, hadvance⟩ := advance_spec w self
  have htold := h.tells ⟨tolds, rfl⟩
  obtain ⟨pending, hdebouncer, hrun⟩ := htold.debounced
  obtain ⟨next, hfed, hnext⟩ := run_feed (events.filter self.wanted) now hrun
  rw [hadvance]
  constructor
  · exact h.options_eq
  · exact h.positives_eq
  · exact h.queueMode
  · refine ⟨next, ?_, ?_⟩
    · rw [← hfed, ← hdebouncer]
    · rw [List.filterMap_append, List.filterMap_map]
      show Run _ (_ ++ (events.filter self.wanted).filterMap (some ∘ _)) none next
      rw [List.filterMap_eq_map]
      exact hnext
  · rw [List.filterMap_append, List.filterMap_map]
    show Run _ (_ ++ (events.filter self.wanted).filterMap fun _ => none) (.ready none) state
    rw [List.filterMap_eq_nil_iff.mpr fun _ _ => rfl, List.append_nil]
    exact htold.coalesced
  · rw [List.filterMap_append, List.filterMap_map]
    show _ ++ (events.filter self.wanted).filterMap some =
      (self.chokidarWatcher.process w).2.emitted.filter self.wanted
    rw [List.filterMap_some, hevents, List.filter_append]
    exact congrArg (· ++ events.filter self.wanted) htold.fed

/-! ## A tick -/

/-- One more entry, of those that only concern the callback. -/
theorem Sound.note {entry : Entry} {op : Coalesce.Op Event} {next : Coalesce.State Event}
    (h : Sound options positives state self) (hdebounced : entry.debounced = none)
    (hcoalesced : entry.coalesced = some op) (hfed : entry.fedEvent = none)
    (hstep : Coalesce.Step options.queue state op next) :
    Sound options positives next (self.note entry) := by
  obtain ⟨pending, hdebouncer, hrun⟩ := h.debounced
  constructor
  · exact h.options_eq
  · exact h.positives_eq
  · exact h.queueMode
  · refine ⟨pending, hdebouncer, ?_⟩
    simp only [GlobWatcher.note, List.filterMap_append, List.filterMap_cons, hdebounced,
      List.filterMap_nil, List.append_nil]
    exact hrun
  · simp only [GlobWatcher.note, List.filterMap_append, List.filterMap_cons, hcoalesced,
      List.filterMap_nil]
    exact h.coalesced.concat hstep
  · simp only [GlobWatcher.note, List.filterMap_append, List.filterMap_cons, hfed,
      List.filterMap_nil, List.append_nil]
    exact h.fed

/-- What holds after a tick: after one that waits, and after one that submits an event or has no
callback to submit it to. -/
theorem Sound.tickWith {P : GlobWatcher σ → Prop}
    {submit : GlobWatcher σ → Event → GlobWatcher σ} {cb : Bool}
    (h : Sound options positives state self)
    (hquiet : ∀ later, Sound options positives state later → later.queue = self.queue →
      later.turns = self.turns → P later)
    (hsubmit : ∀ event later, (∀ next, Coalesce.Step options.queue state (.submit event) next →
      Sound options positives next later) → later.queue = self.queue →
      later.turns = self.turns → P (submit later event)) :
    P (self.tickWith w submit cb) := by
  have hadvance := h.advance w
  obtain ⟨events, tolds, fedAt, world, -, hspec⟩ := advance_spec w self
  have hqueue : (self.advance w).queue = self.queue := by rw [hspec]
  have hturns : (self.advance w).turns = self.turns := by rw [hspec]
  obtain ⟨pending, hdebouncer, hrun⟩ := hadvance.debounced
  unfold GlobWatcher.tickWith GlobWatcher.now
  dsimp only
  rw [hdebouncer]
  generalize (w.now (self.advance w).chokidarWatcher.world).1 = now
  generalize (w.now (self.advance w).chokidarWatcher.world).2 = world
  -- whatever the flush gives, it is in the log
  have hflushed {entry : Entry} {op : Debounce.Op Event UInt64}
      {next : Option (Event × UInt64)} {later : Coalesce.State Event}
      (hop : entry.debounced = some op) (hfed : entry.fedEvent = none)
      (hstep : Debounce.Step (Due options.delay) pending op next)
      (hlater : Run (Coalesce.Step options.queue)
        ((self.advance w).log.filterMap Entry.coalesced ++ entry.coalesced.toList) (.ready none)
        later) :
      Sound options positives later
        ({ self.advance w with
          chokidarWatcher := { (self.advance w).chokidarWatcher with world := world }
          debouncer := ⟨options.delay, next.map Prod.snd, next.map Prod.fst⟩ }.note entry) := by
    constructor
    · exact hadvance.options_eq
    · exact hadvance.positives_eq
    · exact hadvance.queueMode
    · refine ⟨next, rfl, ?_⟩
      simp only [GlobWatcher.note, List.filterMap_append, List.filterMap_cons, hop,
        List.filterMap_nil]
      exact hrun.concat hstep
    · simp only [GlobWatcher.note, List.filterMap_append, List.filterMap_cons, List.filterMap_nil]
      cases hcoalesced : entry.coalesced with
      | none => simpa [hcoalesced] using hlater
      | some op => simpa [hcoalesced] using hlater
    · simp only [GlobWatcher.note, List.filterMap_append, List.filterMap_cons, hfed,
        List.filterMap_nil, List.append_nil]
      exact hadvance.fed
  rcases @Debouncer.flush_spec options.delay pending now with
    ⟨hflush, hstep⟩ | ⟨event, hflush, hstep⟩
  · rw [hflush]
    apply hquiet
    · exact hflushed rfl rfl hstep (by simpa [Entry.coalesced] using hadvance.coalesced)
    · exact hqueue
    · exact hturns
  · rw [hflush]
    cases cb with
    | false =>
        apply hquiet
        · exact hflushed rfl rfl hstep (by simpa [Entry.coalesced] using hadvance.coalesced)
        · exact hqueue
        · exact hturns
    | true =>
        apply hsubmit
        · intro next hnext
          exact hflushed rfl rfl hstep (hadvance.coalesced.concat hnext)
        · exact hqueue
        · exact hturns

/-! ## The callback -/

/-- Nothing is running, and nothing is to be run. -/
structure Idle (options : Options) (positives : List GlobPattern) (watcher : GlobWatcher σ) :
    Prop where
  sound : Sound options positives (.ready none) watcher
  running : watcher.queue.running = false
  queued : watcher.queue.queuedEvent = none

/-- The callback is running. What the machine of the queue keeps is then what the queue holds;
otherwise it may have been called already, with nothing held. -/
structure Busy (options : Options) (positives : List GlobPattern) (turns : List Turn)
    (watcher : GlobWatcher σ) : Prop where
  sound : Sound options positives (.busy watcher.queue.queuedEvent) watcher
  running : watcher.queue.running = true
  turns_eq : watcher.turns = turns

variable {turns : List Turn}

/-- Only the options of a queue matter here. -/
theorem Sound.setQueue (h : Sound options positives state self) {queue : CallbackQueue}
    {turns : List Turn} (hmode : queue.queueMode = options.queue) :
    Sound options positives state { self with queue := queue, turns := turns } :=
  ⟨h.options_eq, h.positives_eq, hmode, h.debounced, h.coalesced, h.fed⟩

theorem Sound.on (h : Sound options positives state self) (event : EventName) (callback : Nat) :
    Sound options positives state (self.on event callback) :=
  ⟨h.options_eq, h.positives_eq, h.queueMode, h.debounced, h.coalesced, h.fed⟩

theorem Sound.close (h : Sound options positives state self) :
    Sound options positives state self.close :=
  ⟨h.options_eq, h.positives_eq, h.queueMode, h.debounced, h.coalesced, h.fed⟩

theorem Busy.nested (h : Busy options positives turns self) (act : Act) :
    Busy options positives turns (self.nested w act) := by
  cases act with
  | on event callback => exact ⟨h.sound.on event callback, h.running, h.turns_eq⟩
  | close => exact ⟨h.sound.close, h.running, h.turns_eq⟩
  | tick cb =>
      unfold GlobWatcher.nested
      apply h.sound.tickWith
      · intro later hlater hqueue hturns
        rw [← hqueue] at hlater
        exact ⟨hlater, hqueue ▸ h.running, hturns.trans h.turns_eq⟩
      · intro event later hlater hqueue hturns
        have hmode : later.queue.queueMode = options.queue := hqueue ▸ h.sound.queueMode
        have hrunning : later.queue.running = true := hqueue ▸ h.running
        unfold CallbackQueue.enqueue
        by_cases hkeep : later.queue.queueMode = true
        · rw [if_pos hkeep]
          have hsound := hlater _ (.keep _ event (hmode ▸ hkeep))
          exact ⟨hsound.setQueue hmode, hrunning, hturns.trans h.turns_eq⟩
        · rw [if_neg hkeep]
          have hsound := hlater _ (.drop _ event (by simpa [hmode] using hkeep))
          rw [← hqueue] at hsound
          exact ⟨hsound, hrunning, hturns.trans h.turns_eq⟩

theorem Busy.foldl (h : Busy options positives turns self) (acts : List Act) :
    Busy options positives turns (acts.foldl (GlobWatcher.nested w) self) := by
  induction acts generalizing self with
  | nil => exact h
  | cons act acts ih => exact ih (h.nested act)

/-- A call takes a turn, and what is submitted in it is what is to be run next. -/
theorem Sound.callOnce (h : Sound options positives (.ready (some event)) self)
    (hqueued : self.queue.queuedEvent = none) :
    let later := self.callOnce w event
    Sound options positives (.ready later.queue.queuedEvent) later ∧
      later.queue.running = false ∧ later.turns = self.turns.tail ∧
      (self.turns = [] → later.queue.queuedEvent = none) := by
  have hstart : Busy options positives self.turns.tail
      { self.note (.called event) with
        queue := { self.queue with running := true }
        turns := self.turns.tail } := by
    refine ⟨?_, rfl, rfl⟩
    dsimp only
    rw [hqueued]
    exact (h.note rfl rfl rfl (.start event)).setQueue h.queueMode
  have hbusy := hstart.foldl (w := w) (self.turns.headD ⟨[], none⟩).acts
  have hnothing : self.turns = [] →
      ((self.turns.headD ⟨[], none⟩).acts.foldl (GlobWatcher.nested w)
        { self.note (.called event) with
          queue := { self.queue with running := true }
          turns := self.turns.tail }).queue.queuedEvent = none := by
    intro hturns
    rw [hturns]
    exact hqueued
  unfold GlobWatcher.callOnce
  dsimp only
  generalize (self.turns.headD ⟨[], none⟩).acts.foldl (GlobWatcher.nested w) _ = later
    at hbusy hnothing ⊢
  generalize (self.turns.headD ⟨[], none⟩).error = error
  have hreturned : Sound options positives (.ready later.queue.queuedEvent)
      { later.note (.returned error) with queue := { later.queue with running := false } } :=
    (hbusy.sound.note rfl rfl rfl (.finish _)).setQueue hbusy.sound.queueMode
  cases error with
  | none => exact ⟨hreturned, rfl, hbusy.turns_eq, hnothing⟩
  | some message =>
      have htells := Tells.emitToListeners
        { later.note (.returned (some message)) with queue := { later.queue with running := false } }
        (Chokidar.Watcher.errorEvent message)
      have hsound := hreturned.tells htells
      obtain ⟨tolds, heq⟩ := htells
      dsimp only
      rw [heq] at hsound ⊢
      exact ⟨hsound, rfl, hbusy.turns_eq, hnothing⟩

/-- There are turns enough: in the end nothing is to be run. -/
theorem Sound.drain {n : Nat} (h : Sound options positives (.ready (some event)) self)
    (hqueued : self.queue.queuedEvent = none) (hn : self.turns.length ≤ n) :
    Idle options positives (GlobWatcher.drain w n event self) := by
  induction n generalizing self event with
  | zero =>
      obtain ⟨hsound, hrunning, -, hnothing⟩ := h.callOnce (w := w) hqueued
      have hnone := hnothing (List.eq_nil_of_length_eq_zero (Nat.le_zero.mp hn))
      unfold GlobWatcher.drain
      rw [hnone] at hsound
      exact ⟨hsound, hrunning, hnone⟩
  | succ n ih =>
      obtain ⟨hsound, hrunning, hturns, -⟩ := h.callOnce (w := w) hqueued
      unfold GlobWatcher.drain
      dsimp only
      cases hnext : (self.callOnce w event).queue.queuedEvent with
      | none =>
          rw [hnext] at hsound
          exact ⟨hsound, hrunning, hnext⟩
      | some queued =>
          rw [hnext] at hsound
          apply ih
          · exact hsound.setQueue hsound.queueMode
          · rfl
          · show (self.callOnce w event).turns.length ≤ n
            rw [hturns, List.length_tail]
            omega

theorem Idle.act (h : Idle options positives self) (act : Act) :
    Idle options positives (self.act w act) := by
  cases act with
  | on event callback => exact ⟨h.sound.on event callback, h.running, h.queued⟩
  | close => exact ⟨h.sound.close, h.running, h.queued⟩
  | tick cb =>
      show Idle options positives (self.tickWith w _ cb)
      apply h.sound.tickWith
      · intro later hlater hqueue _
        exact ⟨hlater, hqueue ▸ h.running, hqueue ▸ h.queued⟩
      · intro event later hlater hqueue _
        have hrunning : later.queue.running = false := hqueue ▸ h.running
        unfold GlobWatcher.tryRun
        rw [hrunning, if_neg Bool.false_ne_true]
        apply (hlater _ (.submit event)).drain
        · exact hqueue ▸ h.queued
        · exact Nat.le_succ _

theorem Idle.run (h : Idle options positives self) (acts : List Act) :
    Idle options positives (self.run w acts) := by
  induction acts generalizing self with
  | nil => exact h
  | cons act acts ih => exact ih (h.act act)

/-! ## Reading the log -/

theorem filterMap_split {α β : Type} {f : α → Option β} {l : List α} {before after : List β} {y : β}
    (h : l.filterMap f = before ++ y :: after) :
    ∃ first x second, l = first ++ x :: second ∧ f x = some y ∧ first.filterMap f = before ∧
      second.filterMap f = after := by
  obtain ⟨first, rest, rfl, hfirst, hrest⟩ := List.filterMap_eq_append_iff.mp h
  obtain ⟨skipped, x, second, rfl, hskipped, hx, hsecond⟩ := List.filterMap_eq_cons_iff.mp hrest
  refine ⟨first ++ skipped, x, second, by simp, hx, ?_, hsecond⟩
  rw [List.filterMap_append, hfirst, List.filterMap_eq_nil_iff.mpr hskipped, List.append_nil]

/-- Nothing has been fed and nothing has been flushed; that the debouncer has been asked in vain
does not count. -/
def Quiet (entries : List Entry) : Prop :=
  ∀ entry ∈ entries, entry.debounced = none ∨ ∃ now, entry = .waited now

/-- The callback has not been called, and nothing has been submitted to it; a call that was under
way may have returned. -/
def Uncalled (entries : List Entry) : Prop :=
  ∀ entry ∈ entries, entry.coalesced = none ∨ ∃ error, entry = .returned error

theorem eq_fed {entry : Entry} {now : UInt64} (h : entry.debounced = some (.feed event now)) :
    entry = .fed event now := by
  cases entry <;> cases h
  rfl

theorem eq_waited {entry : Entry} {now : UInt64} (h : entry.debounced = some (.wait now)) :
    entry = .waited now := by
  cases entry <;> cases h
  rfl

theorem eq_flushed {entry : Entry} {now : UInt64}
    (h : entry.debounced = some (.release event now)) : ∃ cb, entry = .flushed event now cb := by
  cases entry <;> cases h
  exact ⟨_, rfl⟩

theorem eq_submitted {entry : Entry} (h : entry.coalesced = some (.submit event)) :
    ∃ now, entry = .flushed event now true := by
  cases entry with
  | flushed other now cb =>
      cases cb with
      | false => cases h
      | true =>
          cases h
          exact ⟨now, rfl⟩
  | _ => cases h

theorem eq_called {entry : Entry} (h : entry.coalesced = some (.start event)) :
    entry = .called event := by
  cases entry with
  | flushed other now cb => cases cb <;> cases h
  | called other =>
      cases h
      rfl
  | _ => cases h

theorem eq_returned {entry : Entry} (h : entry.coalesced = some .finish) :
    ∃ error, entry = .returned error := by
  cases entry with
  | flushed other now cb => cases cb <;> cases h
  | returned error => exact ⟨error, rfl⟩
  | _ => cases h

theorem quiet_of_waits {entries : List Entry} {delay : Int32} {fedAt : UInt64}
    (h : Debounce.Waits (Due delay) fedAt (entries.filterMap Entry.debounced)) : Quiet entries := by
  intro entry hentry
  cases hop : entry.debounced with
  | none => exact .inl rfl
  | some op =>
      obtain ⟨now, rfl, -⟩ := h op (List.mem_filterMap.mpr ⟨entry, hentry, hop⟩)
      exact .inr ⟨now, eq_waited hop⟩

theorem uncalled_of_finish {entries : List Entry}
    (h : ∀ op ∈ entries.filterMap Entry.coalesced, op = .finish) : Uncalled entries := by
  intro entry hentry
  cases hop : entry.coalesced with
  | none => exact .inl rfl
  | some op =>
      obtain rfl := h op (List.mem_filterMap.mpr ⟨entry, hentry, hop⟩)
      exact .inr (eq_returned hop)

section Idle

variable (h : Idle options positives self) {before after : List Entry}

include h

/-- What the callback is called for was fed last before it was flushed, and that late enough. -/
theorem Idle.fed_of_called (hlog : self.log = before ++ .called event :: after) :
    ∃ earlier fedAt waits now between,
      before = earlier ++ .fed event fedAt :: (waits ++ .flushed event now true :: between) ∧
      Quiet waits ∧ Due options.delay fedAt now ∧ Uncalled between := by
  have hcoalesced := h.sound.coalesced
  simp only [hlog, List.filterMap_append, List.filterMap_cons, Entry.coalesced] at hcoalesced
  -- the call is of what was submitted last
  have hsubmitted : ∃ first now between, before = first ++ .flushed event now true :: between ∧
      Uncalled between := by
    obtain ⟨earlier, hsplit | hsplit⟩ := Coalesce.submit_of_start hcoalesced
    · obtain ⟨first, entry, between, rfl, hentry, -, hbetween⟩ := filterMap_split hsplit
      obtain ⟨now, rfl⟩ := eq_submitted hentry
      exact ⟨first, now, between, rfl, uncalled_of_finish (by simp [hbetween])⟩
    · obtain ⟨first, entry, between, rfl, hentry, -, hbetween⟩ := filterMap_split hsplit
      obtain ⟨now, rfl⟩ := eq_submitted hentry
      exact ⟨first, now, between, rfl, uncalled_of_finish (by simp [hbetween])⟩
  obtain ⟨first, now, between, rfl, hbetween⟩ := hsubmitted
  -- and that was fed last
  obtain ⟨pending, -, hdebounced⟩ := h.sound.debounced
  rw [hlog, List.append_assoc, List.cons_append] at hdebounced
  simp only [List.filterMap_append, List.filterMap_cons, Entry.debounced] at hdebounced
  obtain ⟨earlier, fedAt, waits, hsplit, hwaits, hdue⟩ := Debounce.fed_of_release hdebounced
  obtain ⟨start, entry, rest, rfl, hentry, -, hrest⟩ := filterMap_split hsplit
  rw [eq_fed hentry]
  exact ⟨start, fedAt, rest, now, between, by simp, quiet_of_waits (hrest ▸ hwaits), hdue, hbetween⟩

/-- The callback returns before it is called again. -/
theorem Idle.returned_between {first second : Event} {mid : List Entry}
    (hlog : self.log = before ++ .called first :: mid ++ .called second :: after) :
    ∃ error, .returned error ∈ mid := by
  have hcoalesced := h.sound.coalesced
  simp only [hlog, List.filterMap_append, List.filterMap_cons, Entry.coalesced] at hcoalesced
  obtain ⟨entry, hentry, hfinish⟩ := List.mem_filterMap.mp (Coalesce.finish_between hcoalesced)
  obtain ⟨error, rfl⟩ := eq_returned hfinish
  exact ⟨error, hentry⟩

/-- What is fed is not lost. -/
theorem Idle.called_of_fed (hqueue : options.queue = true) {now : UInt64}
    (hlog : self.log = before ++ .fed event now :: after) :
    self.debouncer.isPending = true ∨ (∃ later, .called later ∈ after) ∨
      ∃ later time, .flushed later time false ∈ after := by
  obtain ⟨pending, hdebouncer, hdebounced⟩ := h.sound.debounced
  cases pending with
  | some fed =>
      rw [hdebouncer]
      exact .inl rfl
  | none =>
      right
      simp only [hlog, List.filterMap_append, List.filterMap_cons, Entry.debounced] at hdebounced
      obtain ⟨later, time, hrelease⟩ := Debounce.released_of_feed hdebounced
      obtain ⟨entry, hentry, hop⟩ := List.mem_filterMap.mp hrelease
      obtain ⟨cb, rfl⟩ := eq_flushed hop
      cases cb with
      | false => exact .inr ⟨later, time, hentry⟩
      | true =>
          -- what is submitted is run, or something that is submitted later
          obtain ⟨mid, rest, rfl⟩ := List.append_of_mem hentry
          have hcoalesced := h.sound.coalesced
          rw [hqueue, hlog, List.append_cons, ← List.append_assoc, List.filterMap_append] at hcoalesced
          simp only [List.filterMap_cons, Entry.coalesced] at hcoalesced
          obtain ⟨next, hstart⟩ := Coalesce.started_of_submit hcoalesced rfl
          obtain ⟨entry, hmem, hop⟩ := List.mem_filterMap.mp hstart
          rw [eq_called hop] at hmem
          exact .inl ⟨next, List.mem_append_right _ (List.mem_cons_of_mem _ hmem)⟩

/-- Where a tick flushes nothing, what was fed last is not due. -/
theorem Idle.not_due_of_waited {waits : List Entry} {fedAt now : UInt64} (hwaits : Quiet waits)
    (hlog : self.log = before ++ .fed event fedAt :: waits ++ .waited now :: after) :
    ¬ Due options.delay fedAt now := by
  obtain ⟨pending, -, hdebounced⟩ := h.sound.debounced
  simp only [hlog, List.filterMap_append, List.filterMap_cons, Entry.debounced] at hdebounced
  obtain ⟨mid, hbefore, next, hwait, -⟩ := run_append.mp hdebounced
  obtain ⟨start, -, fed, hfeed, hmid⟩ := run_append.mp hbefore
  cases hfeed with
  | feed =>
      have hpending := Debounce.run_waits hmid fun op hop => by
        obtain ⟨entry, hentry, hop⟩ := List.mem_filterMap.mp hop
        rcases hwaits entry hentry with hnone | ⟨time, rfl⟩
        · rw [hnone] at hop
          cases hop
        · cases hop
          exact ⟨time, rfl⟩
      rw [hpending] at hwait
      cases hwait with
      | wait hnot => exact hnot _ rfl

end Idle

/-! ## From the start -/

theorem emitted_watch {values : List String} {chokidarOptions : Chokidar.Options} {world : σ}
    {watcher : Chokidar.Watcher σ}
    (h : Chokidar.Watcher.watch w values chokidarOptions world = (.ok (), watcher)) :
    watcher.emitted = [] := by
  unfold Chokidar.Watcher.watch Chokidar.Watcher.add at h
  split_ifs at h
  · cases (Prod.mk.inj h).1
  · cases hplans : Chokidar.Watcher.planAdds w values []
        (Chokidar.Watcher.new chokidarOptions world) with
    | mk result later =>
        rw [hplans] at h
        cases result with
        | error message => cases (Prod.mk.inj h).1
        | ok plans =>
            obtain ⟨-, -, -, -, -, hemitted⟩ := Chokidar.Watcher.planAdds_spec rfl hplans
            rw [← (Prod.mk.inj h).2, (Chokidar.Watcher.foldl_carryOut_quiet plans later).1, hemitted]
            rfl

theorem new_spec {usepolling : Option String} {glob : List String} {turns : List Turn} {world : σ}
    {start : GlobWatcher σ} (h : new w usepolling glob options turns world = some (.ok start)) :
    ∃ positives negations watcher, parseGlobs glob = some (positives, negations) ∧
      Chokidar.Watcher.watch w (resolvedDirs options.cwd positives)
        (applyEnvOverrides usepolling (chokidarOptions options negations)) world =
          (.ok (), watcher) ∧
      start = ⟨watcher, .new options.delay, .new options.queue, positives, options, [], turns, []⟩ := by
  obtain ⟨⟨positives, negations⟩, hparse, hsetUp⟩ := Option.map_eq_some_iff.mp h
  unfold setUp at hsetUp
  split_ifs at hsetUp
  cases hwatch : Chokidar.Watcher.watch w (resolvedDirs options.cwd positives)
      (applyEnvOverrides usepolling (chokidarOptions options negations)) world with
  | mk result watcher =>
      rw [hwatch] at hsetUp
      cases result with
      | error message => cases hsetUp
      | ok _ => exact ⟨positives, negations, watcher, hparse, hwatch, (Except.ok.inj hsetUp).symm⟩

theorem idle_new {usepolling : Option String} {glob : List String} {turns : List Turn} {world : σ}
    {start : GlobWatcher σ} (h : new w usepolling glob options turns world = some (.ok start)) :
    Idle options start.positives start := by
  obtain ⟨positives, negations, watcher, -, hwatch, rfl⟩ := new_spec h
  refine ⟨⟨rfl, rfl, rfl, ⟨none, rfl, rfl⟩, rfl, ?_⟩, rfl, rfl⟩
  show [] = watcher.emitted.filter _
  rw [emitted_watch hwatch]
  rfl

/-- Whatever is done with a new watcher, by its owner and by its callback, in every world: the
callback is called for the last event of a burst once nothing has been fed for the delay, never
while it runs, and no event that is fed is lost. -/
theorem run_calls (w : World σ) (usepolling : Option String) (glob : List String)
    (options : Options) (turns : List Turn) (world : σ) {start : GlobWatcher σ}
    (h : new w usepolling glob options turns world = some (.ok start)) (acts : List Act) :
    let later := start.run w acts
    (∀ before event after, later.log = before ++ .called event :: after →
      ∃ earlier fedAt waits now between,
        before = earlier ++ .fed event fedAt :: (waits ++ .flushed event now true :: between) ∧
        Quiet waits ∧ Due options.delay fedAt now ∧ Uncalled between) ∧
    (∀ before first mid second after,
      later.log = before ++ .called first :: mid ++ .called second :: after →
      ∃ error, .returned error ∈ mid) ∧
    (options.queue = true → ∀ before event now after,
      later.log = before ++ .fed event now :: after →
      later.debouncer.isPending = true ∨ (∃ event, .called event ∈ after) ∨
        ∃ event now, .flushed event now false ∈ after) ∧
    ∀ before event fedAt waits now after, Quiet waits →
      later.log = before ++ .fed event fedAt :: waits ++ .waited now :: after →
      ¬ Due options.delay fedAt now := by
  have hidle := (idle_new h).run (w := w) acts
  refine ⟨?_, ?_, ?_, ?_⟩
  · intro before event after hlog
    exact hidle.fed_of_called hlog
  · intro before first mid second after hlog
    exact hidle.returned_between hlog
  · intro hqueue before event now after hlog
    exact hidle.called_of_fed hqueue hlog
  · intro before event fedAt waits now after hwaits hlog
    exact hidle.not_due_of_waited hwaits hlog

/-- A world in which a file is longer every time it is found; its clock goes on by a second. -/
def growing : World Nat where
  now n := (1000 * n.toUInt64, n + 1)
  scanSnapshot _ _ n := (.ok [⟨"a", .file, some ⟨.ofNat n, 420, 5⟩⟩], n + 1)
  statForPath _ _ n := (none, n)
  backendWatch _ _ n := (.ok 0, n)
  backendDrainEvents n := ([], n)

/-- A watcher in this world, with what its callback does when it is called. -/
def grown (turns : List Turn) : GlobWatcher Nat where
  chokidarWatcher := (Chokidar.Watcher.watch growing ["/r"] (chokidarOptions .default []) 0).2
  debouncer := .new 200
  queue := .new true
  positives := [⟨"/r/*", "/r", false⟩]
  options := .default
  listeners := []
  turns := turns
  log := []

theorem new_grown (turns : List Turn) :
    new growing none ["/r/*"] .default turns 0 = some (.ok (grown turns)) := by
  have hparse : parseGlobs ["/r/*"] = some ([⟨"/r/*", "/r", false⟩], []) := by decide +kernel
  have hopened : (Chokidar.Watcher.watch growing ["/r"]
      (applyEnvOverrides none (chokidarOptions .default [])) 0).1 = .ok () := by
    decide +kernel
  have hwatch : Chokidar.Watcher.watch growing ["/r"]
      (applyEnvOverrides none (chokidarOptions .default [])) 0 =
        (.ok (), (grown turns).chokidarWatcher) :=
    Prod.ext hopened rfl
  have hdirs : resolvedDirs Options.default.cwd [⟨"/r/*", "/r", false⟩] = ["/r"] := by decide
  unfold new setUp
  rw [hparse, Option.map_some, if_neg (by simp), hdirs]
  dsimp only
  rw [hwatch]
  rfl

def Entry.calledFor? : Entry → Option Event
  | .called event => some event
  | _ => none

/-- The callback ticks in its first call, which queues a second one, and fails; the second call
closes the watcher. -/
def busyTurns : List Turn := [⟨[.tick true], some "no"⟩, ⟨[.close], none⟩]

theorem run_calls_grown :
    let later := (grown busyTurns).run growing (List.replicate 3 (.tick true))
    (later.log.filterMap Entry.calledFor?).length = 2 ∧
      (∀ before first mid second after,
        later.log = before ++ .called first :: mid ++ .called second :: after →
        ∃ error, .returned error ∈ mid) ∧
      ∀ before event now after, later.log = before ++ .fed event now :: after →
        later.debouncer.isPending = true ∨ (∃ event, .called event ∈ after) ∨
          ∃ event now, .flushed event now false ∈ after := by
  intro later
  obtain ⟨-, hreturned, hcalled, -⟩ := run_calls growing none ["/r/*"] .default busyTurns 0
    (new_grown busyTurns) (List.replicate 3 (.tick true))
  exact ⟨by decide +kernel, hreturned, hcalled rfl⟩

end GlobWatcher

end Mulp.GlobWatch
