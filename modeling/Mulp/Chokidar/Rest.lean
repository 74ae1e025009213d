import Mulp.Lib.Deal
import Mulp.Chokidar.Cycle

/-! Between its cycles a watcher has told its listeners what its last scans found.

This is the form in which the invariant goes from one cycle to the next, and from
`watch` to the first cycle. The events of the first scan are not told at once: they wait
to be told at the start of the first cycle, behind the snapshot that is kept already. So
until then the listeners are behind the snapshot, by exactly one event, and nowhere else
in a run are they. -/
namespace Mulp.Chokidar

open Keyed

variable {σ : Type} {w : World σ} {p root rel : String} {options : Options}

/-! ## Flushing -/

/-- A flush deals out what is pending: what it tells of has expired. -/
theorem flushExpired_spec {α : Type} (w : World σ) (startedAt : α → UInt64) (event : α → Event)
    (window : Int32) (l : List α) (world : σ) :
    ∃ gone kept, Deal l gone kept ∧
      (flushExpired w startedAt event window l world).1.1 = gone.map event ∧
      (flushExpired w startedAt event window l world).1.2 = kept ∧
      ∀ x ∈ gone, ∃ world, startedAt x + millisToUInt64 window ≤ (w.now world).1 := by
  induction l generalizing world with
  | nil => exact ⟨[], [], .nil, rfl, rfl, by simp⟩
  | cons x l ih =>
      obtain ⟨gone, kept, hdeal, hevents, hkept, hgone⟩ := ih (w.now world).2
      unfold flushExpired timestampExpired
      dsimp only
      by_cases hexpired : startedAt x + millisToUInt64 window ≤ (w.now world).1
      · rw [decide_eq_true hexpired, if_pos rfl]
        refine ⟨x :: gone, kept, .left x hdeal, congrArg (event x :: ·) hevents, hkept, ?_⟩
        intro y hy
        rcases List.mem_cons.mp hy with rfl | hy
        · exact ⟨world, hexpired⟩
        · exact hgone y hy
      · rw [decide_eq_false hexpired, if_neg Bool.false_ne_true]
        exact ⟨gone, x :: kept, .right x hdeal, hevents, congrArg (x :: ·) hkept, hgone⟩

namespace Watcher

variable {self later : Watcher σ} {exact : Bool} {base : Files} {event : Event}
  {there : Bool → Option (Option FileStats)}

theorem flushStableWrites_nil (h : self.state.pendingWrites = []) :
    self.flushStableWrites w = ([], self) := by
  rw [flushStableWrites, h]
  show ([], self.setPendingWrites []) = _
  rw [setPendingWrites, ← h]

theorem foldl_emitAllowed_apart {out : List Event} (h : ∀ event ∈ out, event.Foreign p)
    (self : Watcher σ) : Apart p self (out.foldl emitAllowed self) :=
  Apart.foldl (fun event hevent self => Apart.emitAllowed self (h event hevent)) self

/-- What is told at the end of a cycle of the pending `Unlink`s. -/
theorem Settled.finish (h : Settled exact base p there self) (w : World σ) :
    let (pending, later) := self.flushExpiredPendingUnlinks w
    Settled exact base p there (pending.foldl emitAllowed later) := by
  obtain ⟨gone, kept, hdeal, hevents, hkept, -⟩ := flushExpired_spec w PendingTimedEvent.createdAt
    PendingTimedEvent.event (atomicWindowMillis self.state.options.atomicOption)
    self.state.pendingUnlinks self.world
  have hof := hdeal.filter (·.event.path = p)
  have hforeign {l : List PendingTimedEvent} (hnone : ∀ pending ∈ l, ¬ decide (pending.event.path = p)) :
      ∀ event ∈ l.map PendingTimedEvent.event, event.Foreign p := by
    intro event hevent
    obtain ⟨pending, hpending, rfl⟩ := List.mem_map.mp hevent
    exact Event.foreign_of_path fun heq => hnone pending hpending (by simpa using heq)
  rw [flushExpiredPendingUnlinks]
  simp only [hevents, hkept]
  generalize (flushExpired w _ _ _ _ _).2 = world
  rcases h.file with ⟨hnone, hagrees⟩ | ⟨pending, hpending, hunlink, hatomic, hheard, hgone⟩
  · rw [pendingOf] at hnone
    rw [hnone] at hof
    obtain ⟨hgoneNone, hkeptNone⟩ := hof.of_nil
    exact (show Settled exact base p there { self.setPendingUnlinks kept with world := world } from
      ⟨h.dir, .inl ⟨hkeptNone, hagrees⟩⟩).apart (foldl_emitAllowed_apart (hforeign (List.filter_eq_nil_iff.mp hgoneNone)) _)
  · rw [pendingOf] at hpending
    rw [hpending] at hof
    rcases hof.of_singleton with ⟨hgoneOne, hkeptNone⟩ | ⟨hgoneNone, hkeptOne⟩
    · -- the `Unlink` of the path is told, among others
      obtain ⟨before, after, rfl, hbefore, hpath, hafter⟩ := List.filter_eq_cons_iff.mp hgoneOne
      have hchange : pending.event.name ≠ .change := by
        rw [hunlink]
        decide
      have hstart := foldl_emitAllowed_apart (hforeign hbefore)
        { self.setPendingUnlinks kept with world := world }
      rw [List.map_append, List.foldl_append, List.map_cons, List.foldl_cons, emitAllowed_of_ne hchange]
      have hsettled : Settled exact base p there
          (((before.map PendingTimedEvent.event).foldl emitAllowed
            { self.setPendingUnlinks kept with world := world }).emit pending.event) := by
        refine ⟨?_, .inl ⟨hstart.unlinks.trans hkeptNone, ?_⟩⟩
        · rw [heard_unlink hunlink (by simpa using hpath)]
          exact (hstart.known base true).trans h.dir
        · rw [heard_unlink hunlink (by simpa using hpath), hgone]
          exact Agrees.refl exact none
      exact hsettled.apart (foldl_emitAllowed_apart (hforeign (List.filter_eq_nil_iff.mp hafter)) _)
    · exact (show Settled exact base p there { self.setPendingUnlinks kept with world := world } from
        ⟨h.dir, .inr ⟨pending, hkeptOne, hunlink, hatomic, hheard, hgone⟩⟩).apart
          (foldl_emitAllowed_apart (hforeign (List.filter_eq_nil_iff.mp hgoneNone)) _)

/-! ## The events of the first scan -/

/-- Between cycles: what the watcher has kept of its scans is what they found, and the listeners
know what the last scan of the root found at the path, or are about to be told for the first time.
In the second case the one event that waits for the path is the `Add` of the entry that the snapshot
has, nothing else is pending of it, and what the listeners know is that nothing is there. The
throttle is empty, as each cycle clears it at its end: the next change of a file is told. -/
structure AtRest (w : World σ) (options : Options) (exact : Bool) (base : Files) (roots : List String)
    (root rel p : String) (watcher : Watcher σ) : Prop where
  options_eq : watcher.state.options = options
  found : Founded w options watcher
  writes : watcher.state.pendingWrites = []
  heeds : Heeds p watcher
  rootPaths : watcher.state.rootPaths = roots
  throttle : watcher.state.throttledChanges = []
  told : (∀ event ∈ watcher.state.pendingEvents, event.path ≠ p) ∧
      Settled exact base p (fillsOf (snapshotFind (watcher.snapshotFor root) rel)) watcher ∨
    ∃ entry, snapshotFind (watcher.snapshotFor root) rel = some entry ∧
      watcher.state.pendingEvents.filter (·.path = p) = [(added entry).setPath p] ∧
      watcher.pendingOf p = [] ∧ Settled exact base p (fillsOf none) watcher

theorem apart_foldl_emitEvent {l : List Event}
    (hawait : self.state.options.awaitWriteFinish = .awaitWriteFinishOff)
    (h : ∀ event ∈ l, event.Foreign p) : Apart p self (l.foldl (emitEvent w) self) := by
  induction l generalizing self with
  | nil => exact Apart.refl self
  | cons event l ih =>
      have hstep := Apart.emitEvent w hawait (h event List.mem_cons_self)
      refine hstep.trans (ih ?_ fun other hother => h other (List.mem_cons_of_mem event hother))
      rw [hstep.kept.options, hawait]

/-- Where no `Unlink` is pending, something new is told as it is. -/
theorem emitEvent_added {entry : SnapshotEntry} (hheeds : Heeds p self)
    (hstats : entry.stats.isSome = true) (hnone : self.pendingOf p = []) :
    self.emitEvent w ((added entry).setPath p) = self.emit ((added entry).setPath p) := by
  have hname : (added entry).name ≠ .unlink ∧ (added entry).name ≠ .change ∧
      (added entry).stats = entry.stats := by
    cases hkind : entry.kind <;> simp [added, eventFromEntry, eventNameForAdd, hkind]
  obtain ⟨hunlink, hchange, hsome⟩ := hname
  rw [emitEvent_heeds hheeds rfl (.inl (by rw [Event.stats_setPath, hsome]; exact hstats)),
    ← emitAllowed_of_ne (by rw [Event.name_setPath]; exact hchange)]
  have hcases := atomic_normalizeAtomic w self ((added entry).setPath p)
  rw [dispatchReadyEvent_eq rfl rfl]
  generalize (self.normalizeAtomic w ((added entry).setPath p)).1 = out at hcases ⊢
  generalize (self.normalizeAtomic w ((added entry).setPath p)).2 = later at hcases ⊢
  cases hcases with
  | passes _ => rfl
  | swapFile _ hname _ => exact absurd hname hunlink
  | waits _ hname _ => exact absurd hname hunlink
  | replaces _ _ _ hlookup _ =>
      rw [Event.path_setPath, lookup_eq_head?] at hlookup
      rw [pendingOf] at hnone
      rw [hnone] at hlookup
      cases hlookup

theorem AtRest.tellPending {roots : List String} (hproper : w.Proper)
    (h : AtRest w options exact base roots root rel p self) :
    let later := self.state.pendingEvents.foldl (emitEvent w) self
    Settled exact base p (fillsOf (snapshotFind (self.snapshotFor root) rel)) later ∧
      Kept self later ∧ p ∉ later.state.throttledChanges ∧ Heeds p later := by
  have hthrottle : p ∉ self.state.throttledChanges := by
    rw [h.throttle]
    exact List.not_mem_nil
  rcases h.told with ⟨hother, hsettled⟩ | ⟨entry, hfind, hpending, hnone, hsettled⟩
  · have hapart := apart_foldl_emitEvent (w := w) h.heeds.notAwaited
      fun event hevent => Event.foreign_of_path (hother event hevent)
    exact ⟨hsettled.apart hapart, hapart.kept, mt hapart.throttled.mp hthrottle, h.heeds.apart hapart⟩
  · have hstats : entry.stats.isSome = true := by
      obtain ⟨hmem, -⟩ := lookup_eq_some hfind
      rcases self.snapshotFor_cases root with hnil | hsome
      · rw [hnil] at hmem
        cases hmem
      · exact hproper.stats (h.found root _ hsome) entry hmem
    let Inv (rest : List Event) (later : Watcher σ) : Prop :=
      (rest = [(added entry).setPath p] ∧ later.pendingOf p = [] ∧
          Settled exact base p (fillsOf none) later ∨
        rest = [] ∧ Settled exact base p (fillsOf (some entry)) later) ∧
      Kept self later ∧ p ∉ later.state.throttledChanges ∧ Heeds p later
    have hinv : Inv [] (self.state.pendingEvents.foldl (emitEvent w) self) := by
      refine @foldl_about _ _ _ Event.path p self.state.pendingEvents _ _ Inv ?_ ?_ self
        ⟨.inl ⟨hpending, hnone, hsettled⟩, Kept.refl self, hthrottle, h.heeds⟩
      · rintro event - - rest later ⟨hturn, hkept, hthrottled, hheeds⟩
        rcases hturn with ⟨hrest, hno, hsettled⟩ | ⟨hrest, -⟩
        · obtain ⟨rfl, rfl⟩ := List.cons.inj hrest
          have hsettled := hsettled.tellAdded (w := w) hheeds hstats fun _ => hthrottled
          rw [emitEvent_added hheeds hstats hno] at hsettled ⊢
          exact ⟨.inr ⟨rfl, hsettled⟩, hkept, hthrottled, hheeds.congr rfl rfl⟩
        · cases hrest
      · rintro event - hne rest later ⟨hturn, hkept, hthrottled, hheeds⟩
        have hapart := Apart.emitEvent w hheeds.notAwaited (Event.foreign_of_path hne)
        refine ⟨?_, hkept.trans hapart.kept, mt hapart.throttled.mp hthrottled, hheeds.apart hapart⟩
        rcases hturn with ⟨hrest, hno, hsettled⟩ | ⟨hrest, hsettled⟩
        · exact .inl ⟨hrest, hapart.unlinks.trans hno, hsettled.apart hapart⟩
        · exact .inr ⟨hrest, hsettled.apart hapart⟩
    obtain ⟨hturn, hkept, hthrottled, hheeds⟩ := hinv
    rcases hturn with ⟨hrest, -⟩ | ⟨-, hsettled⟩
    · cases hrest
    · rw [hfind]
      exact ⟨hsettled, hkept, hthrottled, hheeds⟩

/-! ## A cycle -/

/-- What a cycle leaves as it is: the roots, since only `add` and `unwatch` change them, and that no
event waits to be told for the first time, since only `add` puts one there. -/
structure Within (roots : List String) (watcher : Watcher σ) : Prop where
  rootPaths : watcher.state.rootPaths = roots
  pendingEvents : watcher.state.pendingEvents = []

theorem Within.scanned {roots : List String} (h : Within roots self) (hscanned : Scanned self later) :
    Within roots later := by
  refine ⟨?_, ?_⟩ <;> rw [hscanned]
  · exact h.rootPaths
  · exact h.pendingEvents

theorem UpToDate.congr (h : UpToDate w options exact base root rel p self)
    (hstate : later.state = { self.state with
      pendingEvents := later.state.pendingEvents
      ready := later.state.ready })
    (hemitted : later.emitted = self.emitted) : UpToDate w options exact base root rel p later where
  options_eq := by rw [hstate, h.options_eq]
  found := Founded.congr h.found (by rw [hstate])
  writes := by rw [hstate, h.writes]
  heeds := h.heeds.congr (by rw [hstate]) (by rw [hstate])
  settled := by
    have hsnapshot : later.snapshotFor root = self.snapshotFor root := by
      rw [snapshotFor, hstate]
      rfl
    have hunlinks : later.pendingOf p = self.pendingOf p := by
      rw [pendingOf, hstate]
      rfl
    have hheard (dir : Bool) : later.heard base p dir = self.heard base p dir := by
      rw [heard, hemitted]
      rfl
    have hoptions : later.state.options = self.state.options := by rw [hstate]
    rw [hsnapshot]
    refine ⟨(hheard true).trans h.settled.dir, ?_⟩
    rw [hunlinks, hheard, hoptions]
    exact h.settled.file

theorem AtRest.emitPending {roots : List String} (hproper : w.Proper)
    (h : AtRest w options exact base roots root rel p self) :
    UpToDate w options exact base root rel p (self.emitPending w) ∧ Within roots (self.emitPending w) ∧
      p ∉ (self.emitPending w).state.throttledChanges := by
  obtain ⟨hsettled, hkept, hthrottle, hheeds⟩ := h.tellPending hproper
  unfold Watcher.emitPending
  generalize self.state.pendingEvents.foldl (emitEvent w) self = mid at *
  have hmid : UpToDate w options exact base root rel p mid := by
    refine ⟨hkept.options.trans h.options_eq, Founded.congr h.found hkept.snapshots,
      hkept.pendingWrites.trans h.writes, hheeds, ?_⟩
    rw [snapshotFor, hkept.snapshots]
    exact hsettled
  have hroots : mid.state.rootPaths = roots := hkept.rootPaths.trans h.rootPaths
  dsimp only
  split_ifs with hready
  · exact ⟨hmid.congr rfl rfl, ⟨hroots, rfl⟩, hthrottle⟩
  · have hforeign : readyEvent.Foreign p := Event.foreign_of_edit? rfl
    have hnow : UpToDate w options exact base root rel p
        { mid with state := { mid.state with pendingEvents := [], ready := true } } :=
      hmid.congr rfl rfl
    have hapart := Apart.emitEvent w hnow.heeds.notAwaited hforeign
    refine ⟨hnow.apart hapart, ⟨?_, ?_⟩, mt hapart.throttled.mp hthrottle⟩
    · rw [hapart.kept.rootPaths]
      exact hroots
    · rw [hapart.kept.pendingEvents]

theorem apart_foldl_raw {l : List RawEvent}
    (hawait : self.state.options.awaitWriteFinish = .awaitWriteFinishOff) :
    Apart p self
      (l.foldl (fun self raw => self.emitEvent w (rawEventOf raw self.state.options)) self) := by
  induction l generalizing self with
  | nil => exact Apart.refl self
  | cons raw l ih =>
      have hforeign : (rawEventOf raw self.state.options).Foreign p := Event.foreign_of_edit? rfl
      have hstep := Apart.emitEvent w hawait hforeign
      refine hstep.trans (ih ?_)
      rw [hstep.kept.options, hawait]

theorem UpToDate.processRawEvents {roots : List String} (hproper : w.Proper)
    (howns : Owns w options roots root rel p) (hroots : roots.Nodup)
    (h : AtRest w options options.usePolling base roots root rel p self) (rawEvents : List RawEvent) :
    UpToDate w options options.usePolling base root rel p (self.processRawEvents w rawEvents).2 ∧
      Within roots (self.processRawEvents w rawEvents).2 := by
  obtain ⟨hpending, hwithin, hthrottle⟩ := h.emitPending hproper
  unfold Watcher.processRawEvents
  dsimp only
  have hraw := apart_foldl_raw (w := w) (p := p) (l := rawEvents) hpending.heeds.notAwaited
  generalize rawEvents.foldl _ (self.emitPending w) = start at hraw ⊢
  have hstart := hpending.apart hraw
  have hwithin : Within roots start := hwithin.scanned hraw.kept.scanned
  have hscan : start.rootsToScan rawEvents =
      if options.usePolling then roots
      else rawEvents.flatMap fun raw => roots.filter (rawEventAffectsRoot raw) := by
    rw [rootsToScan, hstart.options_eq, hwithin.rootPaths]
  have hmem : ∀ other ∈ start.rootsToScan rawEvents, other ∈ roots := by
    rw [hscan]
    intro other hother
    split_ifs at hother
    · exact hother
    · obtain ⟨raw, -, hfilter⟩ := List.mem_flatMap.mp hother
      exact (List.mem_filter.mp hfilter).1
  have hnodup (hexact : options.usePolling = true) : (start.rootsToScan rawEvents).Nodup := by
    rw [hscan, if_pos hexact]
    exact hroots
  obtain ⟨hupToDate, hscanned⟩ := hstart.scanRoots hproper howns hmem hnodup
    fun _ _ => mt hraw.throttled.mp hthrottle
  exact ⟨hupToDate, hwithin.scanned hscanned⟩

theorem Kept.emitAllowed (self : Watcher σ) (event : Event) : Kept self (self.emitAllowed event) := by
  unfold Watcher.emitAllowed Watcher.allowEvent
  split_ifs <;> rfl

theorem Kept.foldl_emitAllowed (out : List Event) (self : Watcher σ) :
    Kept self (out.foldl Watcher.emitAllowed self) := by
  induction out generalizing self with
  | nil => exact Kept.refl self
  | cons event out ih => exact (Kept.emitAllowed self event).trans (ih _)

theorem UpToDate.finishProcessCycle {roots : List String}
    (h : UpToDate w options exact base root rel p self) (hwithin : Within roots self) :
    UpToDate w options exact base root rel p (self.finishProcessCycle w) ∧
      Within roots (self.finishProcessCycle w) ∧
      (self.finishProcessCycle w).state.throttledChanges = [] := by
  have hsettled := h.settled.finish w
  have hflushed : Kept self (self.flushExpiredPendingUnlinks w).2 := rfl
  have hkept := hflushed.trans (Kept.foldl_emitAllowed (self.flushExpiredPendingUnlinks w).1 _)
  have hfinish : self.finishProcessCycle w =
      ((self.flushExpiredPendingUnlinks w).1.foldl Watcher.emitAllowed
        (self.flushExpiredPendingUnlinks w).2).clearThrottles := by
    unfold Watcher.finishProcessCycle
    rw [flushStableWrites_nil h.writes]
    rfl
  rw [hfinish]
  dsimp only at hsettled
  generalize (self.flushExpiredPendingUnlinks w).1.foldl Watcher.emitAllowed
    (self.flushExpiredPendingUnlinks w).2 = mid at *
  have hwithin := hwithin.scanned hkept.scanned
  refine ⟨⟨hkept.options.trans h.options_eq, Founded.congr h.found hkept.snapshots,
    hkept.pendingWrites.trans h.writes, h.heeds.congr hkept.options hkept.closed, ?_⟩,
    ⟨hwithin.rootPaths, hwithin.pendingEvents⟩, rfl⟩
  have hsnapshot : mid.clearThrottles.snapshotFor root = self.snapshotFor root := by
    show (mid.state.snapshots root).getD [] = _
    rw [hkept.snapshots]
    rfl
  rw [hsnapshot]
  exact ⟨hsettled.dir, hsettled.file⟩

/-- What the watcher asks of the world does not matter. -/
theorem AtRest.answer {roots : List String} {exact : Bool}
    (h : AtRest w options exact base roots root rel p self) (world : σ) :
    AtRest w options exact base roots root rel p { self with world := world } := by
  refine ⟨h.options_eq, h.found, h.writes, h.heeds.congr rfl rfl, h.rootPaths, h.throttle, ?_⟩
  rcases h.told with ⟨hpending, hsettled⟩ | ⟨entry, hfind, hpending, hnone, hsettled⟩
  · exact .inl ⟨hpending, hsettled.dir, hsettled.file⟩
  · exact .inr ⟨entry, hfind, hpending, hnone, hsettled.dir, hsettled.file⟩

/-- What a cycle preserves, whether or not one of its scans fails. -/
theorem AtRest.process {roots : List String} (hproper : w.Proper)
    (howns : Owns w options roots root rel p) (hroots : roots.Nodup)
    (h : AtRest w options options.usePolling base roots root rel p self) :
    AtRest w options options.usePolling base roots root rel p (self.process w).2 ∧
      (self.process w).2.state.pendingEvents = [] := by
  unfold Watcher.process
  rw [h.heeds.notClosed, if_neg Bool.false_ne_true]
  cases hdrain : w.backendDrainEvents self.world with
  | mk rawEvents world =>
      obtain ⟨hraw, hwithin⟩ := UpToDate.processRawEvents hproper howns hroots (h.answer world) rawEvents
      dsimp only
      cases hresult : { self with world := world }.processRawEvents w rawEvents with
      | mk result later =>
          rw [hresult] at hraw hwithin
          obtain ⟨hfinish, hwithin, hthrottle⟩ := hraw.finishProcessCycle hwithin
          have hrest {last : Watcher σ} (hapart : Apart p (later.finishProcessCycle w) last)
              (hlast : last.state.throttledChanges = []) :
              AtRest w options options.usePolling base roots root rel p last ∧
                last.state.pendingEvents = [] := by
            have hlastWithin := hwithin.scanned hapart.kept.scanned
            have hlastUpToDate := hfinish.apart hapart
            refine ⟨⟨hlastUpToDate.options_eq, hlastUpToDate.found, hlastUpToDate.writes,
              hlastUpToDate.heeds, hlastWithin.rootPaths, hlast, .inl ⟨?_, hlastUpToDate.settled⟩⟩,
              hlastWithin.pendingEvents⟩
            rw [hlastWithin.pendingEvents]
            intro event hevent
            cases hevent
          cases result with
          | ok _ => exact hrest (Apart.refl _) hthrottle
          | error message => exact hrest (Apart.emit _ (Event.foreign_of_edit? rfl)) hthrottle

end Watcher

end Mulp.Chokidar
