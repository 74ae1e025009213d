import Mulp.Chokidar.Watched

/-! What is listed over a run of a watcher: what the last scans found.

A place, the directory and the name that a path is listed under, may be that of several
paths, and the roots are listed without a scan that found them there. So what is said of
a path needs that its place is its own. -/
namespace Mulp.Chokidar

open Keyed

variable {σ : Type} {w : World σ} {root rel p : String} {options : Options} {roots : List String}

/-! ## Events in the table -/

/-- What an event makes of the table: an `Add` or `AddDir` lists the path under its directory, an
`Unlink` or `UnlinkDir` takes it from there, and nothing else changes it. -/
def Dirs.record (dirs : Dirs) (event : Event) : Dirs :=
  match event.name with
  | .add | .addDir => dirs.addChild (pathDirname event.path) (pathBasename event.path)
  | .unlink | .unlinkDir => dirs.removeChild (pathDirname event.path) (pathBasename event.path)
  | .change | .ready | .raw | .error | .all => dirs

theorem Watcher.dirs_recordEventInWatched (self : Watcher σ) (event : Event) :
    self.recordEventInWatched event = self.setDirs (self.state.dirs.record event) := by
  unfold recordEventInWatched Dirs.record
  cases event.name <;> rfl

namespace Dirs

variable {dirs : Dirs} {event : Event} {place : Place}

theorem Proper.record (h : Proper dirs) (event : Event) : Proper (dirs.record event) := by
  unfold Dirs.record
  cases event.name with
  | add => exact h.addChild _ _
  | addDir => exact h.addChild _ _
  | unlink => exact h.removeChild _ _
  | unlinkDir => exact h.removeChild _ _
  | change => exact h
  | ready => exact h
  | raw => exact h
  | error => exact h
  | all => exact h

/-- Other places are listed as they were. -/
theorem lists_record_of_ne (h : Proper dirs) (hplace : placeOf event.path ≠ place) :
    Lists (dirs.record event) place ↔ Lists dirs place := by
  have hadd : Lists (dirs.addChild (pathDirname event.path) (pathBasename event.path)) place ↔
      Lists dirs place := by
    rw [lists_addChild]
    exact ⟨fun hor => hor.resolve_left (Ne.symm hplace), .inr⟩
  have hremove : Lists (dirs.removeChild (pathDirname event.path) (pathBasename event.path)) place ↔
      Lists dirs place := by
    rw [lists_removeChild h]
    exact and_iff_right (Ne.symm hplace)
  unfold Dirs.record
  cases event.name with
  | add => exact hadd
  | addDir => exact hadd
  | unlink => exact hremove
  | unlinkDir => exact hremove
  | change => rfl
  | ready => rfl
  | raw => rfl
  | error => rfl
  | all => rfl

theorem record_added (entry : SnapshotEntry) : dirs.record ((added entry).setPath p) =
    dirs.addChild (pathDirname p) (pathBasename p) := by
  cases hkind : entry.kind <;> simp [added, eventFromEntry, eventNameForAdd, hkind, record]

theorem record_removed (entry : SnapshotEntry) : dirs.record ((removed entry).setPath p) =
    dirs.removeChild (pathDirname p) (pathBasename p) := by
  cases hkind : entry.kind <;> simp [removed, eventFromEntry, eventNameForUnlink, hkind, record]

theorem record_change (entry : SnapshotEntry) :
    dirs.record ((eventFromEntry .change entry).setPath p) = dirs := rfl

/-! ## One scan -/

/-- The table while a scan is told: what is listed of the path is there now; the other way round
too, unless it was not listed before. As with what the listeners have heard, what remains to be told
is the transition from what is there now to what the scan has found. -/
structure Telling (p : String) (known : Prop) (new : Option SnapshotEntry) (remaining : List Event)
    (now : Option SnapshotEntry) (dirs : Dirs) : Prop where
  remaining_eq : remaining = transition now new
  proper : Proper dirs
  there : Lists dirs (placeOf p) → now.isSome = true
  lists : known → now.isSome = true → Lists dirs (placeOf p)

variable {known : Prop} {now new : Option SnapshotEntry} {remaining : List Event}

theorem Telling.other (h : Telling p known new remaining now dirs)
    (hplace : placeOf event.path ≠ placeOf p) :
    Telling p known new remaining now (dirs.record event) where
  remaining_eq := h.remaining_eq
  proper := h.proper.record event
  there := fun hlists => h.there ((lists_record_of_ne h.proper hplace).mp hlists)
  lists := fun hknown hnow => (lists_record_of_ne h.proper hplace).mpr (h.lists hknown hnow)

theorem Telling.tell (h : Telling p known new (event :: remaining) now dirs) :
    ∃ next, Telling p known new remaining next (dirs.record (event.setPath p)) := by
  have hproper := h.proper.record (event.setPath p)
  have hadded (entry : SnapshotEntry) : Lists (dirs.record ((added entry).setPath p)) (placeOf p) := by
    rw [record_added, lists_addChild]
    exact .inl rfl
  have hremoved (entry : SnapshotEntry) :
      ¬ Lists (dirs.record ((removed entry).setPath p)) (placeOf p) := by
    rw [record_removed, lists_removeChild h.proper]
    exact fun hlists => hlists.1 rfl
  have heq := h.remaining_eq
  unfold transition at heq
  cases now with
  | none =>
      cases new with
      | none => cases heq
      | some new =>
          obtain ⟨rfl, rfl⟩ := List.cons.inj heq
          exact ⟨some new, (transition_self new).symm, hproper, fun _ => rfl, fun _ _ => hadded new⟩
  | some old =>
      cases new with
      | none =>
          obtain ⟨rfl, rfl⟩ := List.cons.inj heq
          exact ⟨none, rfl, hproper, fun hlists => absurd hlists (hremoved old), fun _ hnone => by cases hnone⟩
      | some new =>
          dsimp only at heq
          split_ifs at heq with hkind hchange
          · obtain ⟨rfl, rfl⟩ := List.cons.inj heq
            exact ⟨none, rfl, hproper, fun hlists => absurd hlists (hremoved old), fun _ hnone => by cases hnone⟩
          · obtain ⟨rfl, rfl⟩ := List.cons.inj heq
            rw [record_change] at hproper ⊢
            exact ⟨some new, (transition_self new).symm, hproper, fun _ => rfl,
              fun hknown _ => h.lists hknown rfl⟩

/-- What is told of other places. -/
theorem Proper.foldl_record (h : Proper dirs) {l : List Event} {root : String}
    (hplace : ∀ event ∈ l, placeOf (scannedEvent root options event).path ≠ place) :
    let later := l.foldl (fun dirs event => dirs.record (scannedEvent root options event)) dirs
    later.Proper ∧ (Lists later place ↔ Lists dirs place) := by
  induction l generalizing dirs with
  | nil => exact ⟨h, Iff.rfl⟩
  | cons event l ih =>
      obtain ⟨hproper, hlists⟩ := ih (h.record (scannedEvent root options event))
        fun other hother => hplace other (List.mem_cons_of_mem event hother)
      exact ⟨hproper, hlists.trans (lists_record_of_ne h (hplace event List.mem_cons_self))⟩

/-- All that a scan tells leads to what it found. -/
theorem telling_foldl {l : List Event}
    (hplace : ∀ event ∈ l, placeOf (scannedEvent root options event).path = placeOf p ↔ event.path = rel)
    (hpath : eventPathFor (joinPath root rel) options = p)
    (h : Telling p known new (l.filter (·.path = rel)) now dirs) :
    Telling p known new [] new
      (l.foldl (fun dirs event => dirs.record (scannedEvent root options event)) dirs) := by
  obtain ⟨last, hlast⟩ : ∃ last, Telling p known new [] last
      (l.foldl (fun dirs event => dirs.record (scannedEvent root options event)) dirs) := by
    refine @foldl_about _ _ _ Event.path rel l _ _
      (fun rest dirs => ∃ last, Telling p known new rest last dirs) ?_ ?_ dirs ⟨now, h⟩
    · rintro event hevent hrel rest dirs ⟨last, htelling⟩
      have hscanned : scannedEvent root options event = event.setPath p := by
        rw [scannedEvent, hrel, hpath]
      rw [hscanned]
      exact htelling.tell
    · rintro event hevent hrel rest dirs ⟨last, htelling⟩
      exact ⟨last, htelling.other fun heq => hrel ((hplace event hevent).mp heq)⟩
  have hunchanged := transition_eq_nil_iff.mp hlast.remaining_eq.symm
  have hsome : last.isSome = new.isSome := by
    cases last with
    | none =>
        cases new with
        | none => rfl
        | some new => exact absurd hunchanged id
    | some last =>
        cases new with
        | none => exact absurd hunchanged id
        | some new => rfl
  refine ⟨?_, hlast.proper, hsome ▸ hlast.there, hsome ▸ hlast.lists⟩
  cases new with
  | none => rfl
  | some new => exact (transition_self new).symm

end Dirs

/-! ## What no cycle changes -/

/-- What stays true of a watcher while listeners are told of events, and in the scan of any of its
roots. Telling changes neither the options nor the roots, the snapshots or the listed paths; these
change in a scan alone. -/
structure Steady (w : World σ) (roots : List String) (I : Watcher σ → Prop) : Prop where
  congr : ∀ {self later : Watcher σ}, I self → later.state.options = self.state.options →
    later.state.rootPaths = self.state.rootPaths → later.state.snapshots = self.state.snapshots →
    later.state.dirs = self.state.dirs → I later
  rootPaths : ∀ {self : Watcher σ}, I self → self.state.rootPaths = roots
  scanRoot : ∀ {self : Watcher σ} {other : String}, I self → other ∈ roots → I (self.scanRoot w other).2

namespace Watcher

variable {self later : Watcher σ} {I : Watcher σ → Prop}

theorem rootsToScan_subset (self : Watcher σ) (rawEvents : List RawEvent) :
    ∀ root ∈ self.rootsToScan rawEvents, root ∈ self.state.rootPaths := by
  intro root hroot
  unfold rootsToScan at hroot
  split_ifs at hroot
  · exact hroot
  · obtain ⟨raw, -, hfilter⟩ := List.mem_flatMap.mp hroot
    exact (List.mem_filter.mp hfilter).1

end Watcher

namespace Steady

open Watcher

variable {I : Watcher σ → Prop} {self later : Watcher σ} (hsteady : Steady w roots I)

include hsteady

theorem tells {ok : σ → Prop} {told : List Event} (h : I self)
    (htells : Tells ok told self.unmoved later) : I later :=
  hsteady.congr h (congrArg Unmoved.options htells.unmoved) (congrArg Unmoved.rootPaths htells.unmoved)
    (congrArg Unmoved.snapshots htells.unmoved) (congrArg Unmoved.dirs htells.unmoved)

theorem emitEvent (h : I self) (event : Event) : I (self.emitEvent w event) :=
  hsteady.tells h (emitEvent_tells w.closed_true event self ⟨trivial, List.prefix_rfl, rfl⟩)

theorem scanRoots (h : I self) {l : List String} (hl : ∀ other ∈ l, other ∈ roots) :
    I (scanRoots w l self).2 := by
  induction l generalizing self with
  | nil => exact h
  | cons other l ih =>
      have hstep := hsteady.scanRoot h (hl other List.mem_cons_self)
      unfold Watcher.scanRoots
      cases hscan : self.scanRoot w other with
      | mk result later =>
          rw [hscan] at hstep
          cases result with
          | error message => exact hstep
          | ok _ => exact ih hstep fun place hplace => hl place (List.mem_cons_of_mem other hplace)

theorem processRawEvents (h : I self) (rawEvents : List RawEvent) :
    I (self.processRawEvents w rawEvents).2 := by
  have hpending : I (self.emitPending w) := by
    have htold : I (self.state.pendingEvents.foldl (Watcher.emitEvent w) self) :=
      foldl_keeps (fun event self hself => hsteady.emitEvent hself event) h
    unfold emitPending
    dsimp only
    split_ifs
    · exact hsteady.congr htold rfl rfl rfl rfl
    · refine hsteady.emitEvent ?_ readyEvent
      exact hsteady.congr htold rfl rfl rfl rfl
  have hraw : I (rawEvents.foldl
      (fun self raw => self.emitEvent w (rawEventOf raw self.state.options)) (self.emitPending w)) := by
    refine foldl_keeps (fun raw self hself => ?_) hpending
    exact hsteady.emitEvent hself (rawEventOf raw self.state.options)
  unfold Watcher.processRawEvents
  dsimp only
  refine hsteady.scanRoots hraw fun other hother => ?_
  rw [← hsteady.rootPaths hraw]
  exact rootsToScan_subset _ rawEvents other hother

theorem process (h : I self) : I (self.process w).2 := by
  unfold Watcher.process
  split_ifs
  · exact h
  · cases hdrain : w.backendDrainEvents self.world with
    | mk rawEvents world =>
        have hworld : I { self with world := world } := hsteady.congr h rfl rfl rfl rfl
        have hraw := hsteady.processRawEvents hworld rawEvents
        dsimp only
        cases hresult : { self with world := world }.processRawEvents w rawEvents with
        | mk result later =>
            rw [hresult] at hraw
            have hfinish := hsteady.tells hraw
              (finishProcessCycle_tells w.closed_true later ⟨trivial, List.prefix_rfl, rfl⟩)
            cases result with
            | ok _ => exact hfinish
            | error message => exact hsteady.congr hfinish rfl rfl rfl rfl

theorem cycles (h : I self) (n : Nat) : I (cycles w self n) := by
  induction n with
  | zero => exact h
  | succ n ih => exact hsteady.process ih

end Steady

/-! ## A cycle -/

/-- Nothing else that is in one of the roots, and none of the roots, is listed in the place of the
path, which is at `rel` in the root. A root has a place too, under its parent, and is listed there
as soon as it is watched, whether a scan has found it or not. -/
structure OwnsPlace (w : World σ) (options : Options) (roots : List String) (root rel p : String) :
    Prop where
  mem : root ∈ roots
  path : eventPathFor (joinPath root rel) options = p
  notRoot : ∀ other ∈ roots, placeOf other ≠ placeOf p
  only : ∀ other ∈ roots, ∀ entries, w.Finds options other entries → ∀ entry ∈ entries,
    placeOf (eventPathFor (joinPath other entry.path) options) = placeOf p →
      other = root ∧ entry.path = rel

namespace Watcher

variable {self later : Watcher σ} {known : Prop}

/-- What is listed of the path is what the last scan of the root found; the other way round too,
unless what was there in the first scan is not told. Under `ignore_initial` what the first scan
finds is not listed, and it stays unlisted as long as nothing changes. -/
structure Tabled (w : World σ) (options : Options) (roots : List String) (root rel p : String)
    (watcher : Watcher σ) : Prop where
  options_eq : watcher.state.options = options
  rootPaths : watcher.state.rootPaths = roots
  found : Founded w options watcher
  proper : watcher.state.dirs.Proper
  there : watcher.state.dirs.Lists (placeOf p) →
    (snapshotFind (watcher.snapshotFor root) rel).isSome = true
  lists : options.ignoreInitial = false → (snapshotFind (watcher.snapshotFor root) rel).isSome = true →
    watcher.state.dirs.Lists (placeOf p)

theorem Tabled.congr (h : Tabled w options roots root rel p self)
    (hoptions : later.state.options = self.state.options)
    (hroots : later.state.rootPaths = self.state.rootPaths)
    (hsnapshots : later.state.snapshots = self.state.snapshots)
    (hdirs : later.state.dirs = self.state.dirs) : Tabled w options roots root rel p later := by
  have hsame : later.snapshotFor root = self.snapshotFor root := by
    rw [snapshotFor, hsnapshots]
    rfl
  refine ⟨hoptions.trans h.options_eq, hroots.trans h.rootPaths, Founded.congr h.found hsnapshots, ?_, ?_, ?_⟩
  · rw [hdirs]
    exact h.proper
  · rw [hdirs, hsame]
    exact h.there
  · rw [hdirs, hsame]
    exact h.lists

theorem emitScannedEvent_unmoved (w : World σ) (self : Watcher σ) (root : String) (event : Event) :
    (self.emitScannedEvent w root event).unmoved = { self.unmoved with
      dirs := self.state.dirs.record (scannedEvent root self.state.options event) } := by
  unfold emitScannedEvent
  dsimp only
  rw [dirs_recordEventInWatched]
  exact (emitEvent_tells w.closed_true _ (self.setDirs _) ⟨trivial, List.prefix_rfl, rfl⟩).unmoved

/-- Telling a scan changes the table, event by event, and nothing else that is kept. -/
theorem foldl_emitScannedEvent_unmoved (w : World σ) {l : List Event}
    (hoptions : self.state.options = options) :
    (l.foldl (fun self => self.emitScannedEvent w root) self).unmoved = { self.unmoved with
      dirs := l.foldl (fun dirs event => dirs.record (scannedEvent root options event)) self.state.dirs } := by
  induction l generalizing self with
  | nil => rfl
  | cons event l ih =>
      have hstep := emitScannedEvent_unmoved w self root event
      have hsame : (self.emitScannedEvent w root event).state.options = options :=
        (congrArg Unmoved.options hstep).trans hoptions
      have hdirs : (self.emitScannedEvent w root event).state.dirs =
          self.state.dirs.record (scannedEvent root options event) := by
        rw [← hoptions]
        exact congrArg Unmoved.dirs hstep
      rw [List.foldl_cons, ih hsame, List.foldl_cons, hdirs, hstep]

theorem Tabled.scanRoot (hproper : w.Proper) (howns : OwnsPlace w options roots root rel p)
    (h : Tabled w options roots root rel p self) {other : String} (hother : other ∈ roots) :
    Tabled w options roots root rel p (self.scanRoot w other).2 := by
  unfold Watcher.scanRoot
  cases hscan : w.scanSnapshot other self.state.options self.world with
  | mk result world =>
      cases result with
      | error message => exact h.congr rfl rfl rfl rfl
      | ok newEntries =>
          have hfinds : w.Finds options other newEntries := ⟨_, _, h.options_eq ▸ hscan⟩
          let start := { self with world := world }.setSnapshot other newEntries
          have hoptions : start.state.options = options := h.options_eq
          have hstart : Founded w options { self with world := world } := h.found
          have hfounded : Founded w options start := hstart.setSnapshot hfinds
          have hunmoved := @foldl_emitScannedEvent_unmoved _ other _ start w
            (diffSnapshots (self.snapshotFor other) newEntries) hoptions
          have hentry : ∀ event ∈ diffSnapshots (self.snapshotFor other) newEntries,
              ∃ entries, w.Finds options other entries ∧ ∃ entry ∈ entries, event.path = entry.path :=
            fun event hevent => Founded.entry_of_event h.found hfinds hevent
          dsimp only
          generalize (diffSnapshots (self.snapshotFor other) newEntries).foldl
            (fun self => self.emitScannedEvent w other) start = later at hunmoved ⊢
          have hdirs := congrArg Unmoved.dirs hunmoved
          have hsnapshots := congrArg Unmoved.snapshots hunmoved
          have hlater : later.snapshotFor root = start.snapshotFor root := by
            show (later.unmoved.snapshots root).getD [] = _
            rw [hsnapshots]
            rfl
          have hrest (hdirsProper : later.state.dirs.Proper)
              (hthere : later.state.dirs.Lists (placeOf p) →
                (snapshotFind (start.snapshotFor root) rel).isSome = true)
              (hlists : options.ignoreInitial = false →
                (snapshotFind (start.snapshotFor root) rel).isSome = true →
                later.state.dirs.Lists (placeOf p)) : Tabled w options roots root rel p later := by
            refine ⟨(congrArg Unmoved.options hunmoved).trans hoptions,
              (congrArg Unmoved.rootPaths hunmoved).trans h.rootPaths,
              Founded.congr hfounded hsnapshots, hdirsProper, ?_, ?_⟩
            · rw [hlater]
              exact hthere
            · rw [hlater]
              exact hlists
          have hlaterDirs : later.state.dirs = (diffSnapshots (self.snapshotFor other) newEntries).foldl
            (fun dirs event => dirs.record (scannedEvent other options event)) self.state.dirs := hdirs
          rw [hlaterDirs] at hrest
          by_cases hroot : other = root
          · subst hroot
            have hplace : ∀ event ∈ diffSnapshots (self.snapshotFor other) newEntries,
                placeOf (scannedEvent other options event).path = placeOf p ↔ event.path = rel := by
              intro event hevent
              obtain ⟨entries, hentries, entry, hmem, heq⟩ := hentry event hevent
              rw [scannedEvent, Event.path_setPath, heq]
              constructor
              · exact fun hp => (howns.only other hother entries hentries entry hmem hp).2
              · rintro rfl
                rw [howns.path]
            have hstart : Dirs.Telling p (options.ignoreInitial = false) (snapshotFind newEntries rel)
                ((diffSnapshots (self.snapshotFor other) newEntries).filter (·.path = rel))
                (snapshotFind (self.snapshotFor other) rel) self.state.dirs :=
              ⟨filter_diffSnapshots (Founded.distinct h.found hproper other)
                (hproper.distinct hfinds) rel, h.proper, h.there, h.lists⟩
            have htold := Dirs.telling_foldl hplace howns.path hstart
            rw [show start.snapshotFor other = newEntries from snapshotFor_setSnapshot ..] at hrest
            exact hrest htold.proper htold.there htold.lists
          · have hplace : ∀ event ∈ diffSnapshots (self.snapshotFor other) newEntries,
                placeOf (scannedEvent other options event).path ≠ placeOf p := by
              intro event hevent hp
              obtain ⟨entries, hentries, entry, hmem, heq⟩ := hentry event hevent
              rw [scannedEvent, Event.path_setPath, heq] at hp
              exact hroot (howns.only other hother entries hentries entry hmem hp).1
            obtain ⟨hdirsProper, hsame⟩ := h.proper.foldl_record hplace
            have hold : start.snapshotFor root = self.snapshotFor root :=
              snapshotFor_setSnapshot_of_ne _ newEntries (Ne.symm hroot)
            rw [hold] at hrest
            exact hrest hdirsProper (fun hlists => h.there (hsame.mp hlists))
              fun hinitial hsome => hsame.mpr (h.lists hinitial hsome)

theorem Tabled.steady (hproper : w.Proper) (howns : OwnsPlace w options roots root rel p) :
    Steady w roots (Tabled w options roots root rel p) where
  congr := Tabled.congr
  rootPaths := Tabled.rootPaths
  scanRoot := fun h hother => h.scanRoot hproper howns hother

/-! ## The start -/

theorem dirs_queueScannedEvent (self : Watcher σ) (root : String) (event : Event) :
    (self.queueScannedEvent root event).state.dirs =
        self.state.dirs.record (scannedEvent root self.state.options event) ∧
      (self.queueScannedEvent root event).state.options = self.state.options := by
  unfold queueScannedEvent
  dsimp only
  rw [dirs_recordEventInWatched]
  exact ⟨rfl, rfl⟩

theorem dirs_foldl_queueScannedEvent (events : List Event) (hoptions : self.state.options = options)
    (root : String) : (events.foldl (fun self => self.queueScannedEvent root) self).state.dirs =
      (events.map (scannedEvent root options)).foldl Dirs.record self.state.dirs := by
  induction events generalizing self with
  | nil => rfl
  | cons event events ih =>
      obtain ⟨hdirs, hsame⟩ := self.dirs_queueScannedEvent root event
      rw [List.foldl_cons, ih (hsame.trans hoptions), hdirs, hoptions, List.map_cons, List.foldl_cons]

/-- What is found first is listed, and what is listed stays so. -/
theorem lists_foldl_added (entries : List SnapshotEntry) {dirs : Dirs} (hproper : dirs.Proper)
    (root : String) (place : Place) :
    let events := (entries.map added).map (scannedEvent root options)
    (events.foldl Dirs.record dirs).Proper ∧ ((events.foldl Dirs.record dirs).Lists place ↔
      dirs.Lists place ∨ ∃ event ∈ events, place = placeOf event.path) := by
  induction entries generalizing dirs with
  | nil => simp [hproper]
  | cons entry entries ih =>
      obtain ⟨hlater, hlists⟩ := ih (hproper.record (scannedEvent root options (added entry)))
      refine ⟨hlater, hlists.trans ?_⟩
      have hadd : (dirs.record (scannedEvent root options (added entry))).Lists place ↔
          place = placeOf (scannedEvent root options (added entry)).path ∨ dirs.Lists place := by
        rw [scannedEvent, Dirs.record_added, Dirs.lists_addChild]
        rfl
      rw [hadd, List.map_cons, List.map_cons, List.exists_mem_cons_iff]
      tauto

/-- What is listed by carrying out a plan: its root, and the paths that are queued. -/
theorem lists_carryOut {plan : PlannedAdd} (hplanned : Planned w options plan)
    (hoptions : self.state.options = options) (hproper : self.state.dirs.Proper) (place : Place) :
    (self.carryOut plan).state.dirs.Proper ∧
      ((self.carryOut plan).state.dirs.Lists place ↔ self.state.dirs.Lists place ∨
        place = placeOf plan.root ∨ ∃ event ∈ queuedBy options plan, place = placeOf event.path) := by
  have hstart := hproper.addChild (pathDirname plan.root) (pathBasename plan.root)
  have hcarry : (self.carryOut plan).state.dirs = (queuedBy options plan).foldl Dirs.record
      (self.state.dirs.addChild (pathDirname plan.root) (pathBasename plan.root)) := by
    refine dirs_foldl_queueScannedEvent plan.events ?_ plan.root
    exact hoptions
  have hroot : (self.state.dirs.addChild (pathDirname plan.root) (pathBasename plan.root)).Lists place ↔
      place = placeOf plan.root ∨ self.state.dirs.Lists place := Dirs.lists_addChild
  rw [hcarry, queuedBy, hplanned.events, initialEventsFromEntries]
  split_ifs
  · refine ⟨hstart, hroot.trans ?_⟩
    simp [or_comm]
  · obtain ⟨hlater, hlists⟩ := @lists_foldl_added options plan.entries _ hstart plan.root place
    refine ⟨hlater, hlists.trans ?_⟩
    rw [hroot]
    tauto

theorem lists_foldl_carryOut {plans : List PlannedAdd} (hplanned : ∀ plan ∈ plans, Planned w options plan)
    (hoptions : self.state.options = options) (hproper : self.state.dirs.Proper) (place : Place) :
    (plans.foldl carryOut self).state.dirs.Proper ∧
      ((plans.foldl carryOut self).state.dirs.Lists place ↔ self.state.dirs.Lists place ∨
        ∃ plan ∈ plans, place = placeOf plan.root ∨
          ∃ event ∈ queuedBy options plan, place = placeOf event.path) := by
  induction plans generalizing self with
  | nil => simp [hproper]
  | cons plan plans ih =>
      obtain ⟨hstep, hlists⟩ := lists_carryOut (hplanned plan List.mem_cons_self) hoptions hproper place
      obtain ⟨dirs, hcarry⟩ := self.carryOut_spec plan
      have hsame : (self.carryOut plan).state.options = options := by rw [hcarry, hoptions]
      obtain ⟨hlater, hrest⟩ := ih (fun other hother => hplanned other (List.mem_cons_of_mem plan hother))
        hsame hstep
      refine ⟨hlater, hrest.trans ?_⟩
      rw [hlists, List.exists_mem_cons_iff, or_assoc]

/-- What has been planned for the path is what its root has there, unless the start is not told. -/
theorem exists_queued_iff (howns : OwnsPlace w options roots root rel p) {plans : List PlannedAdd}
    {plan : PlannedAdd} (hplanned : ∀ plan ∈ plans, Planned w options plan)
    (hroots : plans.map PlannedAdd.root = roots) (hnodup : roots.Nodup) (hplan : plan ∈ plans)
    (hroot : plan.root = root) :
    (∃ other ∈ plans, placeOf p = placeOf other.root ∨
        ∃ event ∈ queuedBy options other, placeOf p = placeOf event.path) ↔
      options.ignoreInitial = false ∧ (snapshotFind plan.entries rel).isSome = true := by
  have hmem {other : PlannedAdd} (hother : other ∈ plans) : other.root ∈ roots :=
    hroots ▸ List.mem_map_of_mem hother
  have hsome : (snapshotFind plan.entries rel).isSome = true ↔ ∃ entry ∈ plan.entries, entry.path = rel := by
    rw [snapshotFind_eq, lookup, List.find?_isSome]
    simp only [decide_eq_true_eq]
  rw [hsome]
  constructor
  · rintro ⟨other, hother, hp | ⟨event, hevent, hp⟩⟩
    · exact absurd hp.symm (howns.notRoot other.root (hmem hother))
    · rw [queuedBy, (hplanned other hother).events, initialEventsFromEntries] at hevent
      split_ifs at hevent with hinitial
      · cases hevent
      · obtain ⟨first, hfirst, rfl⟩ := List.mem_map.mp hevent
        obtain ⟨entry, hentry, rfl⟩ := List.mem_map.mp hfirst
        obtain ⟨hsame, hrel⟩ := howns.only other.root (hmem hother) other.entries
          (hplanned other hother).finds entry hentry hp.symm
        have heq : other = plan := by
          rw [← hroots] at hnodup
          exact List.inj_on_of_nodup_map hnodup hother hplan (hsame.trans hroot.symm)
        exact ⟨by simpa using hinitial, entry, heq ▸ hentry, hrel⟩
  · rintro ⟨hinitial, entry, hentry, hrel⟩
    refine ⟨plan, hplan, .inr ⟨scannedEvent plan.root options (added entry), ?_, ?_⟩⟩
    · rw [queuedBy, (hplanned plan hplan).events, initialEventsFromEntries, hinitial,
        if_neg Bool.false_ne_true]
      exact List.mem_map_of_mem (List.mem_map_of_mem hentry)
    · rw [scannedEvent, Event.path_setPath, path_added, hrel, hroot, howns.path]

variable {start : Watcher σ}

theorem tabled_watch {values : List String} {world : σ}
    (hwatch : watch w values options world = (.ok (), start))
    (hnodup : (values.map normalizePath).Nodup)
    (howns : OwnsPlace w options (values.map normalizePath) root rel p) :
    Tabled w options (values.map normalizePath) root rel p start := by
  obtain ⟨plans, hroots, hplanned, hcarried, before, hbefore, hstart⟩ := watch_spec hwatch hnodup
  have hroot : root ∈ plans.map PlannedAdd.root := hroots ▸ howns.mem
  obtain ⟨plan, hplan, hplanRoot⟩ := List.mem_map.mp hroot
  have hsnapshot : start.snapshotFor root = plan.entries := hplanRoot ▸ hcarried.snapshotFor hplan
  have hdirs : before.state.dirs = [] := by
    rw [hbefore]
    rfl
  obtain ⟨hproper, hlists⟩ := @lists_foldl_carryOut _ _ _ before _ hplanned
    (by rw [hbefore]; rfl) (hdirs ▸ Dirs.proper_nil) (placeOf p)
  have hwhen := exists_queued_iff howns hplanned hroots hnodup hplan hplanRoot
  rw [← hstart] at hproper hlists
  rw [hwhen, hdirs, or_iff_right Dirs.not_lists_nil] at hlists
  refine ⟨by rw [hcarried.state]; rfl, ?_, hcarried.founded hplanned rfl, hproper, ?_, ?_⟩
  · rw [hcarried.state, ← hroots]
    exact List.nil_append _
  · rw [hsnapshot]
    exact fun hlisted => (hlists.mp hlisted).2
  · rw [hsnapshot]
    exact fun hinitial hsome => hlists.mpr ⟨hinitial, hsome⟩

/-- In every run of a watcher with any options, in every world: after any number of cycles, of which
some may have failed, `get_watched` gives the children of a directory in order and each once, and a
path is among them only if the last scan of its root found it there, and always then if the start is
told too. -/
theorem getWatched_cycles (w : World σ) (hproper : w.Proper) (values : List String) (world : σ)
    (hwatch : watch w values options world = (.ok (), start))
    (hnodup : (values.map normalizePath).Nodup)
    (howns : OwnsPlace w options (values.map normalizePath) root rel p) (n : Nat) :
    let later := cycles w start n
    let found := (snapshotFind (later.snapshotFor root) rel).isSome = true
    (∀ dir children, later.state.dirs.getWatched dir = some children → children ≠ [] ∧ children.Nodup ∧
        children.Pairwise fun left right => compareStrings left right ≤ 0) ∧
      (∀ children, later.state.dirs.getWatched (pathDirname p) = some children →
        pathBasename p ∈ children → found) ∧
      (options.ignoreInitial = false → found →
        ∃ children, later.state.dirs.getWatched (pathDirname p) = some children ∧
          pathBasename p ∈ children) := by
  intro later found
  have hlater : Tabled w options (values.map normalizePath) root rel p later :=
    (Tabled.steady hproper howns).cycles (tabled_watch hwatch hnodup howns) n
  refine ⟨fun dir children hchildren => ?_, fun children hchildren hmem => ?_, fun hinitial hfound => ?_⟩
  · obtain ⟨hne, hchildrenNodup, hsorted, -⟩ := Dirs.getWatched_spec hlater.proper hchildren
    exact ⟨hne, hchildrenNodup, hsorted⟩
  · obtain ⟨-, -, -, hlists⟩ := Dirs.getWatched_spec hlater.proper hchildren
    exact hlater.there ((hlists (pathBasename p)).mp hmem)
  · exact Dirs.exists_getWatched hlater.proper (hlater.lists hinitial hfound)

theorem getWatched_cycles_vanishing :
    let start := (watch vanishing ["/r"] polling 0).2
    (∃ children, start.state.dirs.getWatched "/r" = some children ∧ "a" ∈ children) ∧
      ∀ children, (cycles vanishing start 1).state.dirs.getWatched "/r" = some children →
        "a" ∉ children := by
  intro start
  have hwatch : watch vanishing ["/r"] polling 0 = (.ok (), start) :=
    Prod.ext (by decide +kernel) rfl
  have hroots : ["/r"].map normalizePath = ["/r"] := by decide +kernel
  have howns : OwnsPlace vanishing polling (["/r"].map normalizePath) "/r" "a" "/r/a" := by
    rw [hroots]
    refine ⟨by decide, by decide +kernel, ?_, ?_⟩
    · intro other hother
      rw [List.mem_singleton.mp hother]
      decide +kernel
    · intro other hother entries hentries entry hentry _
      rcases entry_of_vanishing hentries with rfl | rfl
      · rw [List.mem_singleton.mp hentry]
        exact ⟨List.mem_singleton.mp hother, rfl⟩
      · cases hentry
  have hnodup : (["/r"].map normalizePath).Nodup := by
    rw [hroots]
    exact List.nodup_singleton "/r"
  have hdir : pathDirname "/r/a" = "/r" := by decide +kernel
  have hbase : pathBasename "/r/a" = "a" := by decide +kernel
  obtain ⟨-, -, hlisted⟩ :=
    getWatched_cycles vanishing proper_vanishing ["/r"] 0 hwatch hnodup howns 0
  obtain ⟨-, hgone, -⟩ :=
    getWatched_cycles vanishing proper_vanishing ["/r"] 0 hwatch hnodup howns 1
  rw [hdir, hbase] at hlisted hgone
  refine ⟨hlisted rfl (by decide +kernel), fun children hchildren hmem => ?_⟩
  exact absurd (hgone children hchildren hmem) (by decide +kernel)

end Watcher

end Mulp.Chokidar
