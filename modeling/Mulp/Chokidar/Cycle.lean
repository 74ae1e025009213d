import Mulp.Chokidar.Heard

/-! A cycle of a watcher: its scans bring what the listeners have heard up to date.

A cycle scans roots, one after the other, and each scan may fail. Of one path only the
scan of the root that owns it says anything; a scan of that root which fails leaves the
old snapshot, and then the listeners still know what that snapshot says. So the
invariant speaks of the snapshot that is kept and not of the disk. -/
namespace Mulp.Chokidar

open Keyed

variable {σ : Type} {w : World σ} {p root rel : String} {options : Options}

/-- A scan of the root can find the entries, in some state of the world. That is all that may be
assumed of a snapshot, for the world of a later cycle need not be one of an earlier one. -/
def World.Finds (w : World σ) (options : Options) (root : String) (entries : List SnapshotEntry) : Prop :=
  ∃ world world', w.scanSnapshot root options world = (.ok entries, world')

/-- A scan finds no path twice, and it finds the stats too. Without the first there would be no
answer to what is at a path; the second is what lets the stats that are told be compared with those
of the snapshot. -/
structure World.Proper (w : World σ) : Prop where
  distinct : ∀ {options root entries}, w.Finds options root entries →
    Distinct SnapshotEntry.path entries
  stats : ∀ {options root entries}, w.Finds options root entries →
    ∀ entry ∈ entries, entry.stats.isSome = true

/-- Listeners are told of the path for what is found at `rel` in the root, and for nothing else that
is found in one of the roots. Where two roots overlap, the listeners hear of a path from both, and
their events need not fit together. -/
structure Owns (w : World σ) (options : Options) (roots : List String) (root rel p : String) : Prop where
  mem : root ∈ roots
  path : eventPathFor (joinPath root rel) options = p
  only : ∀ other ∈ roots, ∀ entries, w.Finds options other entries → ∀ entry ∈ entries,
    eventPathFor (joinPath other entry.path) options = p → other = root ∧ entry.path = rel

theorem entry_of_mem_diffSnapshots {oldEntries newEntries : List SnapshotEntry} {event : Event}
    (h : event ∈ diffSnapshots oldEntries newEntries) :
    ∃ entry, (entry ∈ oldEntries ∨ entry ∈ newEntries) ∧ event.path = entry.path := by
  rw [diffSnapshots, List.mem_append, List.mem_flatMap, List.mem_flatMap] at h
  rcases h with ⟨entry, hentry, hevent⟩ | ⟨entry, hentry, hevent⟩
  · exact ⟨entry, .inr ((perm_sorted _).mem_iff.mp hentry), path_of_mem_arrival hevent⟩
  · exact ⟨entry, .inl ((perm_sorted _).mem_iff.mp hentry), path_of_mem_departure hevent⟩

theorem fillsOf_unchanged {old new : Option SnapshotEntry} (h : Unchanged old new) :
    Watcher.fillsOf old = Watcher.fillsOf new := by
  cases old with
  | none =>
      cases new with
      | none => rfl
      | some new => exact absurd h id
  | some old =>
      cases new with
      | none => exact absurd h id
      | some new =>
          obtain ⟨hkind, hstats⟩ := h
          funext dir
          show old.fills dir = new.fills dir
          rw [SnapshotEntry.fills, SnapshotEntry.fills, hkind]
          rcases hstats with hdir | hstats
          · rw [← hkind, hdir]
            cases dir <;> rfl
          · rw [hstats]

namespace Watcher

variable {self later : Watcher σ} {exact : Bool} {base : Files} {event : Event}

theorem Underway.apart {now new : Option SnapshotEntry} {remaining : List Event}
    (h : Underway exact base p now new remaining self) (hapart : Apart p self later) :
    Underway exact base p now new remaining later where
  remaining_eq := h.remaining_eq
  settled := h.settled.apart hapart
  throttle := fun hexact hne => mt hapart.throttled.mp (h.throttle hexact hne)
  heeds := h.heeds.apart hapart

/-! ## The events of one scan -/

theorem emitScannedEvent_eq (hoptions : self.state.options = options) (event : Event) :
    self.emitScannedEvent w root event =
      (self.recordEventInWatched (scannedEvent root options event)).emitEvent w
        (scannedEvent root options event) := by
  rw [emitScannedEvent, hoptions]

theorem Apart.emitScannedEvent (w : World σ) (hoptions : self.state.options = options)
    (hawait : options.awaitWriteFinish = .awaitWriteFinishOff)
    (h : (scannedEvent root options event).Foreign p) :
    Apart p self (self.emitScannedEvent w root event) := by
  rw [emitScannedEvent_eq hoptions]
  have hrecord := Apart.recordEventInWatched (p := p) self (scannedEvent root options event)
  refine hrecord.trans (Apart.emitEvent w ?_ h)
  rw [hrecord.kept.options, hoptions, hawait]

theorem Kept.emitScannedEvent (w : World σ)
    (hawait : self.state.options.awaitWriteFinish = .awaitWriteFinishOff) (root : String) (event : Event) :
    Kept self (self.emitScannedEvent w root event) := by
  have hrecord := (Apart.recordEventInWatched (p := "") self
    (scannedEvent root self.state.options event)).kept
  refine hrecord.trans (Kept.emitEvent w ?_ _)
  rw [hrecord.options, hawait]

/-- The events of a scan that finds nothing of the path. -/
theorem apart_foldl_scanned {l : List Event} (hoptions : self.state.options = options)
    (hawait : options.awaitWriteFinish = .awaitWriteFinishOff)
    (h : ∀ event ∈ l, eventPathFor (joinPath root event.path) options ≠ p) :
    Apart p self (l.foldl (fun self => self.emitScannedEvent w root) self) := by
  induction l generalizing self with
  | nil => exact Apart.refl self
  | cons event l ih =>
      have hstep := Apart.emitScannedEvent w hoptions hawait
        (Event.foreign_of_path (h event List.mem_cons_self))
      refine hstep.trans (ih ?_ fun other hother => h other (List.mem_cons_of_mem event hother))
      rw [hstep.kept.options, hoptions]

/-- The events of a scan that finds what is at the path. -/
theorem settled_foldl_scanned {l : List Event} {now new : Option SnapshotEntry}
    (hoptions : self.state.options = options)
    (hpath : ∀ event ∈ l, eventPathFor (joinPath root event.path) options = p ↔ event.path = rel)
    (hstats : ∀ entry ∈ new, entry.stats.isSome = true)
    (h : Underway exact base p now new (l.filter (·.path = rel)) self) :
    let later := l.foldl (fun self => self.emitScannedEvent w root) self
    Settled exact base p (fillsOf new) later ∧ Kept self later ∧ Heeds p later := by
  have hawait : options.awaitWriteFinish = .awaitWriteFinishOff := hoptions ▸ h.heeds.notAwaited
  let Inv (rest : List Event) (later : Watcher σ) : Prop :=
    (∃ now, Underway exact base p now new rest later) ∧ Kept self later
  have hinv : Inv [] (l.foldl (fun self => self.emitScannedEvent w root) self) := by
    refine @foldl_about _ _ _ Event.path rel l _ _ Inv ?_ ?_ self ⟨⟨now, h⟩, Kept.refl self⟩
    · rintro event hevent hrel rest later ⟨⟨now, hunderway⟩, hkept⟩
      have hlater : later.state.options = options := hkept.options.trans hoptions
      have hevent : scannedEvent root options event = event.setPath p :=
        congrArg event.setPath ((hpath event hevent).mpr hrel)
      refine ⟨?_, hkept.trans (Kept.emitScannedEvent w (hlater ▸ hawait) root event)⟩
      rw [emitScannedEvent_eq hlater, hevent]
      exact (hunderway.apart (Apart.recordEventInWatched later _)).emitEvent hstats
    · rintro event hevent hrel rest later ⟨⟨now, hunderway⟩, hkept⟩
      have hlater : later.state.options = options := hkept.options.trans hoptions
      have hforeign := Apart.emitScannedEvent w hlater hawait
        (Event.foreign_of_path fun heq => hrel ((hpath event hevent).mp heq))
      exact ⟨⟨now, hunderway.apart hforeign⟩, hkept.trans hforeign.kept⟩
  obtain ⟨⟨now, hunderway⟩, hkept⟩ := hinv
  have hunchanged := transition_eq_nil_iff.mp hunderway.remaining_eq.symm
  refine ⟨?_, hkept, hunderway.heeds⟩
  rw [← fillsOf_unchanged hunchanged]
  exact hunderway.settled

/-! ## One scan -/

theorem snapshotFor_setSnapshot (self : Watcher σ) (other : String) (entries : List SnapshotEntry) :
    (self.setSnapshot other entries).snapshotFor other = entries := by
  show (Function.update self.state.snapshots other (some entries) other).getD [] = entries
  rw [Function.update_self]
  rfl

theorem snapshotFor_setSnapshot_of_ne (self : Watcher σ) {other : String}
    (entries : List SnapshotEntry) (h : root ≠ other) :
    (self.setSnapshot other entries).snapshotFor root = self.snapshotFor root := by
  show (Function.update self.state.snapshots other (some entries) root).getD [] = _
  rw [Function.update_of_ne h]
  rfl

theorem snapshotFor_cases (self : Watcher σ) (root : String) :
    self.snapshotFor root = [] ∨ self.state.snapshots root = some (self.snapshotFor root) := by
  unfold snapshotFor
  cases self.state.snapshots root with
  | none => exact .inl rfl
  | some entries => exact .inr rfl

/-- What the watcher has kept of its scans is what they found. This is all that ties a snapshot to
the world, and it is not lost when a scan fails. -/
def Founded (w : World σ) (options : Options) (watcher : Watcher σ) : Prop :=
  ∀ other entries, watcher.state.snapshots other = some entries → w.Finds options other entries

theorem Founded.congr (h : Founded w options self)
    (hsame : later.state.snapshots = self.state.snapshots) : Founded w options later := by
  rw [Founded, hsame]
  exact h

theorem Founded.distinct (h : Founded w options self) (hproper : w.Proper) (other : String) :
    Distinct SnapshotEntry.path (self.snapshotFor other) := by
  rcases self.snapshotFor_cases other with hnil | hsome
  · rw [hnil]
    exact List.nodup_nil
  · exact hproper.distinct (h other _ hsome)

/-- What is told of a scan is about something that a scan has found. -/
theorem Founded.entry_of_event (h : Founded w options self) {other : String}
    {newEntries : List SnapshotEntry} (hfinds : w.Finds options other newEntries)
    (hevent : event ∈ diffSnapshots (self.snapshotFor other) newEntries) :
    ∃ entries, w.Finds options other entries ∧ ∃ entry ∈ entries, event.path = entry.path := by
  obtain ⟨entry, hold | hnew, hpath⟩ := entry_of_mem_diffSnapshots hevent
  · rcases self.snapshotFor_cases other with hnil | hsome
    · rw [hnil] at hold
      cases hold
    · exact ⟨_, h other _ hsome, entry, hold, hpath⟩
  · exact ⟨_, hfinds, entry, hnew, hpath⟩

theorem Founded.setSnapshot (h : Founded w options self) {other : String}
    {newEntries : List SnapshotEntry} (hfinds : w.Finds options other newEntries) :
    Founded w options (self.setSnapshot other newEntries) := by
  intro place entries hentries
  change Function.update self.state.snapshots other (some newEntries) place = some entries at hentries
  by_cases hplace : place = other
  · rw [hplace, Function.update_self] at hentries
    rw [hplace, ← Option.some.inj hentries]
    exact hfinds
  · rw [Function.update_of_ne hplace] at hentries
    exact h place entries hentries

/-- What the watcher has kept of its scans is what they found, and the listeners know what the last
scan of the root found at the path. No write is awaited and the path is one of which they are told,
or they would learn of a change only later, or never. -/
structure UpToDate (w : World σ) (options : Options) (exact : Bool) (base : Files) (root rel p : String)
    (watcher : Watcher σ) : Prop where
  options_eq : watcher.state.options = options
  found : Founded w options watcher
  writes : watcher.state.pendingWrites = []
  heeds : Heeds p watcher
  settled : Settled exact base p (fillsOf (snapshotFind (watcher.snapshotFor root) rel)) watcher

theorem UpToDate.apart (h : UpToDate w options exact base root rel p self) (hapart : Apart p self later) :
    UpToDate w options exact base root rel p later where
  options_eq := hapart.kept.options.trans h.options_eq
  found := Founded.congr h.found hapart.kept.snapshots
  writes := hapart.kept.pendingWrites.trans h.writes
  heeds := h.heeds.apart hapart
  settled := by
    rw [snapshotFor, hapart.kept.snapshots]
    exact h.settled.apart hapart

/-- Between the states the watcher has scanned: besides what telling changes, the snapshots may have
changed, and nothing else. -/
def Scanned (before later : Watcher σ) : Prop :=
  later.state = { before.state with
    dirs := later.state.dirs
    snapshots := later.state.snapshots
    pendingUnlinks := later.state.pendingUnlinks
    throttledChanges := later.state.throttledChanges }

theorem Scanned.trans {middle : Watcher σ} (h : Scanned self middle) (h' : Scanned middle later) :
    Scanned self later := by
  rw [Scanned, h', h]

theorem Kept.scanned (h : Kept self later) : Scanned self later := by
  rw [Scanned, h]

/-- The snapshot of a root with the events that tell of it still to come. -/
theorem UpToDate.setSnapshot (h : UpToDate w options exact base root rel p self) {other : String}
    {newEntries : List SnapshotEntry} (hfinds : w.Finds options other newEntries)
    (hkept : Kept (self.setSnapshot other newEntries) later) (hheeds : Heeds p later)
    (hsettled : Settled exact base p
      (fillsOf (snapshotFind ((self.setSnapshot other newEntries).snapshotFor root) rel)) later) :
    UpToDate w options exact base root rel p later where
  options_eq := hkept.options.trans h.options_eq
  found := Founded.congr (Founded.setSnapshot h.found hfinds) hkept.snapshots
  writes := hkept.pendingWrites.trans h.writes
  heeds := hheeds
  settled := by
    have hsame : later.snapshotFor root = (self.setSnapshot other newEntries).snapshotFor root := by
      rw [snapshotFor, hkept.snapshots]
      rfl
    rw [hsame]
    exact hsettled

theorem scanned_setSnapshot {other : String} {newEntries : List SnapshotEntry}
    (hkept : Kept (self.setSnapshot other newEntries) later) : Scanned self later := by
  rw [Scanned, hkept]
  rfl

section Scan

variable {roots : List String} {other : String} (hproper : w.Proper)
  (howns : Owns w options roots root rel p)

include hproper howns

theorem UpToDate.scanRoot (h : UpToDate w options exact base root rel p self) (hother : other ∈ roots)
    (hthrottle : exact = true → other = root → p ∉ self.state.throttledChanges) :
    UpToDate w options exact base root rel p (self.scanRoot w other).2 ∧
      Scanned self (self.scanRoot w other).2 ∧
      (other ≠ root → (p ∈ (self.scanRoot w other).2.state.throttledChanges ↔
        p ∈ self.state.throttledChanges)) := by
  unfold Watcher.scanRoot
  cases hscan : w.scanSnapshot other self.state.options self.world with
  | mk result world =>
      have hworld : Apart p self { self with world := world } := Apart.world self world
      cases result with
      | error message => exact ⟨h.apart hworld, hworld.kept.scanned, fun _ => Iff.rfl⟩
      | ok newEntries =>
          have hfinds : w.Finds options other newEntries := ⟨_, _, h.options_eq ▸ hscan⟩
          have hupToDate := h.apart hworld
          let start := { self with world := world }.setSnapshot other newEntries
          have hoptions : start.state.options = options := h.options_eq
          have hheeds : Heeds p start := h.heeds.congr rfl rfl
          have hsettled : Settled exact base p (fillsOf (snapshotFind (self.snapshotFor root) rel)) start :=
            ⟨h.settled.dir, h.settled.file⟩
          by_cases hroot : other = root
          · subst hroot
            -- the scan tells of the path what has become of it
            have hpath : ∀ event ∈ diffSnapshots (self.snapshotFor other) newEntries,
                eventPathFor (joinPath other event.path) options = p ↔ event.path = rel := by
              intro event hevent
              obtain ⟨entries, hentries, entry, hentry, heq⟩ := Founded.entry_of_event h.found hfinds hevent
              rw [heq]
              constructor
              · exact fun hp => (howns.only other hother entries hentries entry hentry hp).2
              · rintro rfl
                exact howns.path
            have hstats : ∀ entry ∈ snapshotFind newEntries rel, entry.stats.isSome = true :=
              fun entry hentry => hproper.stats hfinds entry (lookup_eq_some hentry).1
            have hunderway : Underway exact base p (snapshotFind (self.snapshotFor other) rel)
                (snapshotFind newEntries rel)
                ((diffSnapshots (self.snapshotFor other) newEntries).filter (·.path = rel)) start :=
              ⟨filter_diffSnapshots (Founded.distinct h.found hproper other) (hproper.distinct hfinds) rel, hsettled,
                fun hexact _ => hthrottle hexact rfl, hheeds⟩
            obtain ⟨hsettled, hkept, hheeds⟩ := settled_foldl_scanned (w := w) hoptions hpath hstats hunderway
            have hnew : start.snapshotFor other = newEntries := snapshotFor_setSnapshot _ other newEntries
            exact ⟨hupToDate.setSnapshot hfinds hkept hheeds (hnew.symm ▸ hsettled),
              scanned_setSnapshot hkept, fun hne => absurd rfl hne⟩
          · have hpath : ∀ event ∈ diffSnapshots (self.snapshotFor other) newEntries,
                eventPathFor (joinPath other event.path) options ≠ p := by
              intro event hevent heq
              obtain ⟨entries, hentries, entry, hentry, hpath⟩ := Founded.entry_of_event h.found hfinds hevent
              rw [hpath] at heq
              exact hroot (howns.only other hother entries hentries entry hentry heq).1
            have hawait : options.awaitWriteFinish = .awaitWriteFinishOff := hoptions ▸ hheeds.notAwaited
            have hapart := apart_foldl_scanned (w := w) hoptions hawait hpath
            have hsame : start.snapshotFor root = self.snapshotFor root :=
              snapshotFor_setSnapshot_of_ne _ newEntries (Ne.symm hroot)
            exact ⟨hupToDate.setSnapshot hfinds hapart.kept (hheeds.apart hapart)
              (hsame.symm ▸ hsettled.apart hapart), scanned_setSnapshot hapart.kept,
              fun _ => hapart.throttled⟩

end Scan

/-- The scans of a cycle, of which one may fail. -/
theorem UpToDate.scanRoots {roots l : List String} (hproper : w.Proper)
    (howns : Owns w options roots root rel p) (h : UpToDate w options exact base root rel p self)
    (hroots : ∀ other ∈ l, other ∈ roots) (hnodup : exact = true → l.Nodup)
    (hthrottle : exact = true → root ∈ l → p ∉ self.state.throttledChanges) :
    UpToDate w options exact base root rel p (scanRoots w l self).2 ∧
      Scanned self (scanRoots w l self).2 := by
  induction l generalizing self with
  | nil => exact ⟨h, rfl⟩
  | cons other l ih =>
      obtain ⟨hstep, hscanned, hsame⟩ := h.scanRoot hproper howns (hroots other List.mem_cons_self)
        fun hexact hother => hthrottle hexact (hother ▸ List.mem_cons_self)
      unfold Watcher.scanRoots
      cases hscan : self.scanRoot w other with
      | mk result later =>
          rw [hscan] at hstep hscanned hsame
          cases result with
          | error message => exact ⟨hstep, hscanned⟩
          | ok _ =>
              have hrest := ih hstep (fun place hplace => hroots place (List.mem_cons_of_mem other hplace))
                (fun hexact => (List.nodup_cons.mp (hnodup hexact)).2) ?_
              · exact ⟨hrest.1, hscanned.trans hrest.2⟩
              · intro hexact hroot
                -- the root is not the one that has been scanned
                have hne : other ≠ root := fun heq =>
                  (List.nodup_cons.mp (hnodup hexact)).1 (heq ▸ hroot)
                rw [hsame hne]
                exact hthrottle hexact (List.mem_cons_of_mem other hroot)

end Watcher

end Mulp.Chokidar
