import Mulp.GlobWatcher.Calls

/-! A watcher of globs misses no change of a file that its globs match.

This puts together what the two halves of the watcher have been shown to do. What the
scans find is told to the listeners, by the invariant that holds between two cycles;
what the listener of the globs is told is fed; and what is fed comes to a call of the
callback, unless it still waits. -/
namespace Mulp.GlobWatch

open Chokidar (Event EventName FileStats Files World Agrees filesOf isDotSwapFile isIgnored learn)
open Chokidar.Watcher (AtRest Settled)

/-- Nothing that a watcher of globs does with its chokidar watcher changes it. There are three such
things: a cycle, an answer of the clock that both share, and `close`. -/
structure Steady {σ : Type} (w : World σ) (Q : Chokidar.Watcher σ → Prop) : Prop where
  process : ∀ {watcher}, Q watcher → Q (watcher.process w).2
  answer : ∀ {watcher} world, Q watcher → Q { watcher with world := world }
  close : ∀ {watcher}, Q watcher → Q watcher.close

namespace GlobWatcher

variable {σ : Type} {w : World σ} {Q : Chokidar.Watcher σ → Prop} {self later : GlobWatcher σ}
  {options : Options}

/-- The log goes on, and what holds of the chokidar watcher holds of it later. The callback may use
the watcher while it runs, so every step is shown to follow, those inside a call too. -/
structure Follows (Q : Chokidar.Watcher σ → Prop) (before later : GlobWatcher σ) : Prop where
  keeps : Q before.chokidarWatcher → Q later.chokidarWatcher
  log : before.log <+: later.log

theorem Follows.refl (self : GlobWatcher σ) : Follows Q self self := ⟨id, List.prefix_rfl⟩

theorem Follows.trans {middle : GlobWatcher σ} (h : Follows Q self middle)
    (h' : Follows Q middle later) : Follows Q self later :=
  ⟨h'.keeps ∘ h.keeps, h.log.trans h'.log⟩

theorem Follows.foldl {α : Type} {f : GlobWatcher σ → α → GlobWatcher σ}
    (h : ∀ self x, Follows Q self (f self x)) (l : List α) (self : GlobWatcher σ) :
    Follows Q self (l.foldl f self) := by
  induction l generalizing self with
  | nil => exact .refl self
  | cons x l ih => exact (h self x).trans (ih (f self x))

/-- Only the log and what is not the chokidar watcher has changed. -/
theorem Follows.of_eq (hwatcher : later.chokidarWatcher = self.chokidarWatcher)
    (hlog : self.log <+: later.log) : Follows Q self later :=
  ⟨fun h => by rwa [hwatcher], hlog⟩

theorem Tells.follows (h : Tells self later) : Follows Q self later := by
  obtain ⟨tolds, rfl⟩ := h
  exact .of_eq rfl (List.prefix_append _ _)

section Steady

variable (hsteady : Steady w Q)

include hsteady

theorem advance_follows (self : GlobWatcher σ) : Follows Q self (self.advance w) := by
  obtain ⟨events, tolds, now, world, -, hspec⟩ := advance_spec w self
  rw [hspec]
  constructor
  · intro h
    exact hsteady.answer world (hsteady.process h)
  · dsimp only
    rw [List.append_assoc]
    exact List.prefix_append _ _

theorem tickWith_follows {submit : GlobWatcher σ → Event → GlobWatcher σ}
    (hsubmit : ∀ self event, Follows Q self (submit self event)) (cb : Bool)
    (self : GlobWatcher σ) : Follows Q (self.advance w) (self.tickWith w submit cb) := by
  unfold GlobWatcher.tickWith GlobWatcher.now
  dsimp only
  generalize (w.now (self.advance w).chokidarWatcher.world).1 = now
  generalize (w.now (self.advance w).chokidarWatcher.world).2 = world
  rcases (self.advance w).debouncer.flush now with ⟨_ | event, debouncer⟩
  · exact ⟨hsteady.answer world, List.prefix_append _ _⟩
  · have hnoted : Follows Q (self.advance w)
        ({ self.advance w with
          chokidarWatcher := { (self.advance w).chokidarWatcher with world := world }
          debouncer := debouncer }.note (.flushed event now cb)) :=
      ⟨hsteady.answer world, List.prefix_append _ _⟩
    cases cb with
    | false => exact hnoted
    | true => exact hnoted.trans (hsubmit _ event)

theorem nested_follows (self : GlobWatcher σ) (act : Act) : Follows Q self (self.nested w act) := by
  cases act with
  | tick cb =>
      unfold GlobWatcher.nested
      apply (advance_follows hsteady self).trans
      apply tickWith_follows hsteady
      intro self event
      exact .of_eq rfl List.prefix_rfl
  | on event callback => exact .of_eq rfl List.prefix_rfl
  | close => exact ⟨hsteady.close, List.prefix_rfl⟩

theorem callOnce_follows (event : Event) (self : GlobWatcher σ) :
    Follows Q self (self.callOnce w event) := by
  unfold GlobWatcher.callOnce
  dsimp only
  have hcalled : Follows Q self
      { self.note (.called event) with
        queue := { self.queue with running := true }
        turns := self.turns.tail } := .of_eq rfl (List.prefix_append _ _)
  have hacts := hcalled.trans
    (Follows.foldl (nested_follows hsteady) (self.turns.headD ⟨[], none⟩).acts _)
  generalize (self.turns.headD ⟨[], none⟩).acts.foldl (GlobWatcher.nested w) _ = mid at hacts ⊢
  generalize (self.turns.headD ⟨[], none⟩).error = error
  have hreturned : Follows Q self
      { mid.note (.returned error) with queue := { mid.queue with running := false } } :=
    hacts.trans (.of_eq rfl (List.prefix_append _ _))
  cases error with
  | none => exact hreturned
  | some message => exact hreturned.trans (Tells.emitToListeners _ _).follows

theorem drain_follows (n : Nat) (event : Event) (self : GlobWatcher σ) :
    Follows Q self (drain w n event self) := by
  induction n generalizing event self with
  | zero => exact callOnce_follows hsteady event self
  | succ n ih =>
      have hcall := callOnce_follows hsteady event self
      unfold GlobWatcher.drain
      dsimp only
      cases (self.callOnce w event).queue.queuedEvent with
      | none => exact hcall
      | some queued =>
          dsimp only
          refine hcall.trans (Follows.trans ?_ (ih queued _))
          exact .of_eq rfl List.prefix_rfl

theorem tryRun_follows (self : GlobWatcher σ) (event : Event) :
    Follows Q self (self.tryRun w event) := by
  unfold GlobWatcher.tryRun
  split_ifs
  · exact .of_eq rfl List.prefix_rfl
  · exact drain_follows hsteady _ event self

theorem act_follows (self : GlobWatcher σ) (act : Act) : Follows Q self (self.act w act) := by
  cases act with
  | tick cb =>
      unfold GlobWatcher.act
      apply (advance_follows hsteady self).trans
      exact tickWith_follows hsteady (tryRun_follows hsteady) cb self
  | on event callback => exact .of_eq rfl List.prefix_rfl
  | close => exact ⟨hsteady.close, List.prefix_rfl⟩

theorem run_follows (acts : List Act) (self : GlobWatcher σ) : Follows Q self (self.run w acts) :=
  Follows.foldl (act_follows hsteady) acts self

end Steady

/-! ## What the scans have found -/

section Found

variable {base : Files} {options : Chokidar.Options} {roots : List String} {root rel p : String}

/-- The watcher is closed, or its listeners know what its last scan found. A watcher that has been
closed scans no more, and so its snapshots are no longer what its listeners know. -/
def Knows (w : World σ) (options : Chokidar.Options) (base : Files) (roots : List String)
    (root rel p : String) (watcher : Chokidar.Watcher σ) : Prop :=
  watcher.state.closed = true ∨ AtRest w options options.usePolling base roots root rel p watcher

/-- Nothing is left of what its first scan found. This is what the first tick makes of it, and from
there on the listeners are never behind a snapshot. -/
def Told (w : World σ) (options : Chokidar.Options) (base : Files) (roots : List String)
    (root rel p : String) (watcher : Chokidar.Watcher σ) : Prop :=
  watcher.state.closed = true ∨
    AtRest w options options.usePolling base roots root rel p watcher ∧
      watcher.state.pendingEvents = []

variable (hproper : w.Proper) (howns : Chokidar.Owns w options roots root rel p)
  (hroots : roots.Nodup)

include hproper howns hroots

theorem Knows.process {watcher : Chokidar.Watcher σ} (h : Knows w options base roots root rel p watcher) :
    Told w options base roots root rel p (watcher.process w).2 := by
  rcases h with hclosed | hrest
  · left
    unfold Chokidar.Watcher.process
    rw [hclosed, if_pos rfl]
    exact hclosed
  · exact .inr (hrest.process hproper howns hroots)

theorem steady_knows : Steady w (Knows w options base roots root rel p) where
  process h := (h.process hproper howns hroots).imp_right And.left
  answer world h := h.imp_right fun hrest => hrest.answer world
  close _ := .inl rfl

theorem steady_told : Steady w (Told w options base roots root rel p) where
  process h := Knows.process hproper howns hroots (h.imp_right And.left)
  answer world h := h.imp_right fun hrest => ⟨hrest.1.answer world, hrest.2⟩
  close _ := .inl rfl

/-- A run in which there has been a tick. -/
theorem told_run (h : Knows w options base roots root rel p self.chokidarWatcher) {acts : List Act}
    (hticked : ∃ cb, .tick cb ∈ acts) :
    Told w options base roots root rel p (self.run w acts).chokidarWatcher := by
  obtain ⟨cb, hmem⟩ := hticked
  obtain ⟨first, second, rfl⟩ := List.append_of_mem hmem
  have hknows : Steady w (Knows w options base roots root rel p) :=
    steady_knows hproper howns hroots
  have htold : Steady w (Told w options base roots root rel p) :=
    steady_told hproper howns hroots
  have hfirst := (run_follows hknows first self).keeps h
  have hadvance : Told w options base roots root rel p
      ((self.run w first).advance w).chokidarWatcher := by
    obtain ⟨events, tolds, now, world, -, hspec⟩ := advance_spec w (self.run w first)
    rw [hspec]
    exact htold.answer world (hfirst.process hproper howns hroots)
  have htick : Told w options base roots root rel p
      ((self.run w first).act w (.tick cb)).chokidarWatcher :=
    (tickWith_follows htold (tryRun_follows htold) cb _).keeps hadvance
  have hsplit : self.run w (first ++ .tick cb :: second) =
      ((self.run w first).act w (.tick cb)).run w second := by
    simp [run]
  rw [hsplit]
  exact (run_follows htold second _).keeps htick

end Found

/-! ## What is heard of a file -/

theorem steady_closed : Steady w fun watcher => watcher.state.closed = true where
  process h := by
    unfold Chokidar.Watcher.process
    rw [h, if_pos rfl]
    exact h
  answer _ h := h
  close _ := rfl

theorem steady_emitted (told : List Event) : Steady w fun watcher => told <+: watcher.emitted where
  process h := h.trans (emitted_process w _)
  answer _ h := h
  close h := h

theorem path_of_edit {event : Event} {edit : Patch.Edit Chokidar.Slot (Option FileStats)} {p : String}
    (h : event.edit? = some edit) (hkey : edit.key = ⟨p, false⟩) :
    event.path = p ∧ event.name ∈ [EventName.add, .change, .unlink] := by
  cases event with
  | mk name path stats raw error =>
      cases name <;> simp only [Event.edit?, Option.some.injEq, reduceCtorEq] at h <;> subst h <;>
        simp_all [Patch.Edit.key]

/-- What is heard of a file differs only if something has been emitted about it. -/
theorem exists_event_of_learn {base : Files} {before events : List Event} {p : String}
    (h : learn base (before ++ events) ⟨p, false⟩ ≠ learn base before ⟨p, false⟩) :
    ∃ event ∈ events, event.path = p ∧ event.name ∈ [EventName.add, .change, .unlink] := by
  by_contra hnone
  apply h
  rw [Chokidar.learn_append]
  apply Patch.replay_of_ne
  intro edit hedit hkey
  obtain ⟨event, hevent, hsome⟩ := List.mem_filterMap.mp hedit
  exact hnone ⟨event, hevent, path_of_edit hsome hkey⟩

theorem wanted_of_name {event : Event} {p : String} (hpath : event.path = p)
    (hname : event.name ∈ [EventName.add, .change, .unlink])
    (hevents : ∀ name ∈ [EventName.add, .change, .unlink], name ∈ self.options.events)
    (hmatch : ∃ pattern ∈ self.positives, globMatch pattern.raw p = some true) :
    self.wanted event = true := by
  obtain ⟨pattern, hpattern, hmatched⟩ := hmatch
  unfold GlobWatcher.wanted
  simp only [Bool.and_eq_true, List.any_eq_true]
  refine ⟨⟨?_, ?_⟩, pattern, hpattern, ?_⟩
  · simp only [List.mem_cons, List.not_mem_nil, or_false] at hname
    rcases hname with h | h | h <;> rw [h] <;> rfl
  · simpa using hevents event.name hname
  · simpa [hpath] using hmatched

/-! ## No change is missed -/

section Missed

variable {usepolling : Option String} {glob : List String} {options : Options} {turns : List Turn}
  {world : σ} {start : GlobWatcher σ} {positives negations : List GlobPattern}
  {copts : Chokidar.Options} {roots : List String} {root rel p : String}

theorem knows_new (h : new w usepolling glob options turns world = some (.ok start))
    (hparse : parseGlobs glob = some (positives, negations))
    (hcopts : copts = applyEnvOverrides usepolling (chokidarOptions options negations))
    (hroots : roots = (resolvedDirs options.cwd positives).map Chokidar.normalizePath)
    (hproper : w.Proper) (hnodup : roots.Nodup) (howns : Chokidar.Owns w copts roots root rel p)
    (hignored : ∀ stats, isIgnored p stats copts.ignored = false)
    (hswap : isDotSwapFile p = false) :
    ∃ base, Knows w copts base roots root rel p start.chokidarWatcher := by
  obtain ⟨positives', negations', watcher, hparse', hwatch, rfl⟩ := new_spec h
  obtain ⟨rfl, rfl⟩ := Prod.mk.inj (Option.some.inj (hparse.symm.trans hparse'))
  have hawait : copts.awaitWriteFinish = .awaitWriteFinishOff := by
    rw [hcopts]
    cases usepolling <;> rfl
  rw [← hcopts] at hwatch
  rw [hroots] at hnodup howns ⊢
  refine ⟨fun slot => if copts.ignoreInitial then
    filesOf (watcher.snapshotFor root) ⟨rel, slot.dir⟩ else none, .inr ?_⟩
  exact Chokidar.Watcher.atRest_watch hproper hwatch hnodup howns hawait hignored (.inr hswap)
    fun _ => rfl

/-- Once all has been told, what has been heard agrees with what the last scan found. -/
theorem agrees_of_told {base : Files} {watcher : Chokidar.Watcher σ}
    (h : Told w copts base roots root rel p watcher) (hopen : watcher.state.closed = false)
    (hpending : watcher.pendingOf p = []) :
    Agrees copts.usePolling (learn base watcher.emitted ⟨p, false⟩)
      (filesOf (watcher.snapshotFor root) ⟨rel, false⟩) := by
  obtain ⟨hrest, hnone⟩ := h.resolve_left (by simp [hopen])
  have hsettled : Settled copts.usePolling base p
      (Chokidar.Watcher.fillsOf (Chokidar.snapshotFind (watcher.snapshotFor root) rel)) watcher := by
    rcases hrest.told with ⟨-, hsettled⟩ | ⟨entry, -, hqueued, -⟩
    · exact hsettled
    · rw [hnone] at hqueued
      cases hqueued
  rcases hsettled.file with ⟨-, hagrees⟩ | ⟨pending, hone, -⟩
  · exact hagrees
  · rw [hpending] at hone
    cases hone

/-- In every run of a watcher that keeps what is submitted while its callback runs: if the scans
have found a file that its globs match to have changed between two moments, the callback has been
called in between, or an event is about to be flushed, or a tick without a callback flushed one. -/
theorem change_called (h : new w usepolling glob options turns world = some (.ok start))
    (hparse : parseGlobs glob = some (positives, negations))
    (hcopts : copts = applyEnvOverrides usepolling (chokidarOptions options negations))
    (hroots : roots = (resolvedDirs options.cwd positives).map Chokidar.normalizePath)
    (hproper : w.Proper) (hnodup : roots.Nodup) (howns : Chokidar.Owns w copts roots root rel p)
    (hignored : ∀ stats, isIgnored p stats copts.ignored = false)
    (hswap : isDotSwapFile p = false)
    (hmatch : ∃ pattern ∈ positives, globMatch pattern.raw p = some true)
    (hevents : ∀ name ∈ [EventName.add, .change, .unlink], name ∈ options.events)
    (hqueue : options.queue = true) {first second : List Act} (hticked : ∃ cb, .tick cb ∈ first)
    {before later : GlobWatcher σ} (hbefore : before = start.run w first)
    (hlater : later = before.run w second) (hopen : later.chokidarWatcher.state.closed = false)
    (hpendingBefore : before.chokidarWatcher.pendingOf p = [])
    (hpendingLater : later.chokidarWatcher.pendingOf p = [])
    (hchanged : ¬ Agrees copts.usePolling
      (filesOf (before.chokidarWatcher.snapshotFor root) ⟨rel, false⟩)
      (filesOf (later.chokidarWatcher.snapshotFor root) ⟨rel, false⟩)) :
    ∃ since, later.log = before.log ++ since ∧
      (later.debouncer.isPending = true ∨ (∃ event, .called event ∈ since) ∨
        ∃ event now, .flushed event now false ∈ since) := by
  obtain ⟨base, hknows⟩ := knows_new h hparse hcopts hroots hproper hnodup howns hignored hswap
  have htoldBefore : Told w copts base roots root rel p before.chokidarWatcher :=
    hbefore ▸ told_run hproper howns hnodup hknows hticked
  have htoldLater : Told w copts base roots root rel p later.chokidarWatcher :=
    hlater ▸ (run_follows (steady_told hproper howns hnodup) second before).keeps htoldBefore
  have hopenBefore : before.chokidarWatcher.state.closed = false := by
    by_contra hclosed
    have hstill := (run_follows (steady_closed (w := w)) second before).keeps (by simpa using hclosed)
    rw [← hlater, hopen] at hstill
    cases hstill
  -- the listeners have heard of the change
  obtain ⟨events, hemitted⟩ : before.chokidarWatcher.emitted <+: later.chokidarWatcher.emitted :=
    hlater ▸ (run_follows (steady_emitted (w := w) before.chokidarWatcher.emitted) second
      before).keeps List.prefix_rfl
  have hheardBefore := agrees_of_told htoldBefore hopenBefore hpendingBefore
  have hheardLater := agrees_of_told htoldLater hopen hpendingLater
  rw [← hemitted] at hheardLater
  obtain ⟨event, hevent, hpath, hname⟩ := exists_event_of_learn fun hsame =>
    hchanged (hheardBefore.symm.trans (hsame ▸ hheardLater))
  -- so one of the events since then has been fed
  have hidleBefore : Idle options start.positives before := hbefore ▸ (idle_new h).run first
  have hidleLater : Idle options start.positives later := hlater ▸ hidleBefore.run second
  obtain ⟨since, hlog⟩ : before.log <+: later.log :=
    hlater ▸ (run_follows (steady_closed (w := w)) second before).log
  refine ⟨since, hlog.symm, ?_⟩
  have hwanted : later.wanted = before.wanted := by
    funext event
    unfold GlobWatcher.wanted
    rw [hidleBefore.sound.options_eq, hidleBefore.sound.positives_eq,
      hidleLater.sound.options_eq, hidleLater.sound.positives_eq]
  have hfed : since.filterMap Entry.fedEvent = events.filter later.wanted := by
    have hall := hidleLater.sound.fed
    rw [← hlog, ← hemitted, List.filterMap_append, List.filter_append, hidleBefore.sound.fed,
      hwanted] at hall
    rw [hwanted]
    exact List.append_cancel_left hall
  have hmem : event ∈ since.filterMap Entry.fedEvent := by
    rw [hfed, List.mem_filter]
    refine ⟨hevent, wanted_of_name hpath hname ?_ ?_⟩
    · rw [hidleLater.sound.options_eq]
      exact hevents
    · rw [hidleLater.sound.positives_eq]
      obtain ⟨positives', negations', watcher, hparse', -, rfl⟩ := new_spec h
      obtain ⟨rfl, rfl⟩ := Prod.mk.inj (Option.some.inj (hparse.symm.trans hparse'))
      exact hmatch
  obtain ⟨entry, hentry, hfedEvent⟩ := List.mem_filterMap.mp hmem
  obtain ⟨now, rfl⟩ : ∃ now, entry = .fed event now := by
    cases entry <;> cases hfedEvent
    exact ⟨_, rfl⟩
  obtain ⟨start, rest, rfl⟩ := List.append_of_mem hentry
  rw [← List.append_assoc] at hlog
  refine (hidleLater.called_of_fed hqueue hlog.symm).imp_right (Or.imp ?_ ?_)
  · rintro ⟨other, hcalled⟩
    exact ⟨other, List.mem_append_right _ (List.mem_cons_of_mem _ hcalled)⟩
  · rintro ⟨other, time, hflushed⟩
    exact ⟨other, time, List.mem_append_right _ (List.mem_cons_of_mem _ hflushed)⟩

end Missed

theorem entries_of_growing {found : Chokidar.Options} {entries : List Chokidar.SnapshotEntry}
    (h : growing.Finds found root entries) :
    ∃ n : Nat, entries = [⟨"a", .file, some ⟨.ofNat n, 420, 5⟩⟩] := by
  obtain ⟨n, later, hscan⟩ := h
  exact ⟨n, (Except.ok.inj (Prod.mk.inj hscan).1).symm⟩

theorem change_called_grown :
    let before := (grown []).run growing [.tick true]
    let later := before.run growing [.tick true]
    ∃ since, later.log = before.log ++ since ∧
      (later.debouncer.isPending = true ∨ (∃ event, .called event ∈ since) ∨
        ∃ event now, .flushed event now false ∈ since) := by
  have hparse : parseGlobs ["/r/*"] = some ([⟨"/r/*", "/r", false⟩], []) := by decide +kernel
  have hroots : (resolvedDirs Options.default.cwd [⟨"/r/*", "/r", false⟩]).map
      Chokidar.normalizePath = ["/r"] := by decide +kernel
  have hproper : growing.Proper := by
    constructor <;> intro options root entries hfinds
    · obtain ⟨n, rfl⟩ := entries_of_growing hfinds
      exact List.pairwise_singleton _ _
    · obtain ⟨n, rfl⟩ := entries_of_growing hfinds
      intro entry hentry
      rw [List.mem_singleton.mp hentry]
      rfl
  have howns : Chokidar.Owns growing (applyEnvOverrides none (chokidarOptions .default [])) ["/r"]
      "/r" "a" "/r/a" := by
    constructor
    · simp
    · decide +kernel
    · intro other hother entries hfinds entry hentry _
      obtain ⟨n, rfl⟩ := entries_of_growing hfinds
      rw [List.mem_singleton.mp hentry]
      exact ⟨List.mem_singleton.mp hother, rfl⟩
  exact change_called (new_grown []) hparse rfl hroots.symm hproper (by simp) howns (fun _ => rfl)
    (by decide +kernel) ⟨_, List.mem_singleton_self _, by decide +kernel⟩ (by decide) rfl
    ⟨true, List.mem_singleton_self _⟩ rfl rfl (by decide +kernel) (by decide +kernel)
    (by decide +kernel) fun hagrees => absurd (show filesOf _ _ = filesOf _ _ from hagrees)
      (by decide +kernel)

end GlobWatcher

end Mulp.GlobWatch
