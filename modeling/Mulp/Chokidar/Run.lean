import Mulp.Chokidar.Rest

/-! Runs of a watcher: from `watch` through any number of cycles.

`watch` plans its roots first and carries the plans out when none has failed, so what a
root's scan has found is in a plan for a while. From there on a run is the cycles, each
of which keeps what holds between two of them. -/
namespace Mulp.Chokidar

open Keyed

variable {σ : Type} {w : World σ} {p root rel : String} {options : Options}

namespace Watcher

variable {self start : Watcher σ} {base : Files}

/-! ## The start -/

/-- A plan is what a scan found in its root, with the events to tell it. Whether these are told or
not depends on the options, which are those of the watcher from its start. -/
structure Planned (w : World σ) (options : Options) (plan : PlannedAdd) : Prop where
  finds : w.Finds options plan.root plan.entries
  events : plan.events = initialEventsFromEntries plan.entries options

section Plan

variable {path : String} {values : List String} {plans : List PlannedAdd} {world world' : σ}

/-- The plan for a path, when its handle and its entries have been got: no event is in it if the
start is not to be told. -/
def planOf (path : String) (handle : Int32) (entries : List SnapshotEntry) (options : Options) :
    PlannedAdd :=
  ⟨normalizePath path, handle, entries, initialEventsFromEntries entries options⟩

theorem planned_planOf {entries : List SnapshotEntry} (handle : Int32)
    (h : w.Finds options (normalizePath path) entries) :
    Planned w options (planOf path handle entries options) := by
  unfold planOf
  exact ⟨h, by simp only⟩

theorem planAdds_unwatched {message : String}
    (h : w.backendWatch (normalizePath path) self.state.options self.world = (.error message, world)) :
    planAdds w (path :: values) plans self =
      (.error message, { self with world := world }.backendClose (plans.map PlannedAdd.handle)) := by
  rw [planAdds]
  simp only [h]

theorem planAdds_unscanned {handle : Int32} {message : String}
    (h : w.backendWatch (normalizePath path) self.state.options self.world = (.ok handle, world))
    (h' : w.scanSnapshot (normalizePath path) self.state.options world = (.error message, world')) :
    planAdds w (path :: values) plans self = (.error message,
      { self with world := world' }.backendClose (handle :: plans.map PlannedAdd.handle)) := by
  rw [planAdds]
  simp only [h, h']

theorem planAdds_scanned {handle : Int32} {entries : List SnapshotEntry}
    (h : w.backendWatch (normalizePath path) self.state.options self.world = (.ok handle, world))
    (h' : w.scanSnapshot (normalizePath path) self.state.options world = (.ok entries, world')) :
    planAdds w (path :: values) plans self =
      planAdds w values (plans ++ [planOf path handle entries self.state.options])
        { self with world := world' } := by
  rw [planAdds]
  simp only [h, h']
  rfl

end Plan

theorem planAdds_spec {values : List String} {plans all : List PlannedAdd} {later : Watcher σ}
    (hoptions : self.state.options = options)
    (h : planAdds w values plans self = (.ok all, later)) :
    ∃ more, all = plans ++ more ∧ more.map PlannedAdd.root = values.map normalizePath ∧
      (∀ plan ∈ more, Planned w options plan) ∧ later.state = self.state ∧
      later.emitted = self.emitted := by
  induction values generalizing plans self with
  | nil =>
      obtain ⟨hall, hlater⟩ := Prod.mk.inj h
      exact ⟨[], by rw [List.append_nil, Except.ok.inj hall], rfl, by simp, by rw [hlater], by rw [hlater]⟩
  | cons path values ih =>
      cases hwatch : w.backendWatch (normalizePath path) self.state.options self.world with
      | mk watched world =>
          cases watched with
          | error message =>
              rw [planAdds_unwatched hwatch] at h
              cases (Prod.mk.inj h).1
          | ok handle =>
              cases hscan : w.scanSnapshot (normalizePath path) self.state.options world with
              | mk found world' =>
                  cases found with
                  | error message =>
                      rw [planAdds_unscanned hwatch hscan] at h
                      cases (Prod.mk.inj h).1
                  | ok entries =>
                      rw [planAdds_scanned hwatch hscan] at h
                      have hsame : { self with world := world' }.state.options = options := hoptions
                      obtain ⟨more, hall, hroots, hplanned, hstate, hemitted⟩ := ih hsame h
                      rw [hoptions] at hall hscan
                      refine ⟨planOf path handle entries options :: more,
                        by rw [hall, ← List.append_cons], ?_, ?_, hstate, hemitted⟩
                      · simp only [List.map_cons, hroots, planOf]
                      · intro other hother
                        rcases List.mem_cons.mp hother with rfl | hother
                        · exact planned_planOf handle ⟨world, world', hscan⟩
                        · exact hplanned other hother

/-- The events of the first scan that a plan queues. -/
def queuedBy (options : Options) (plan : PlannedAdd) : List Event :=
  plan.events.map (scannedEvent plan.root options)

theorem recordEventInWatched_eq (self : Watcher σ) (event : Event) :
    ∃ dirs, self.recordEventInWatched event = self.setDirs dirs := by
  unfold recordEventInWatched
  cases event.name with
  | add => exact ⟨_, rfl⟩
  | addDir => exact ⟨_, rfl⟩
  | unlink => exact ⟨_, rfl⟩
  | unlinkDir => exact ⟨_, rfl⟩
  | change => exact ⟨self.state.dirs, rfl⟩
  | ready => exact ⟨self.state.dirs, rfl⟩
  | raw => exact ⟨self.state.dirs, rfl⟩
  | error => exact ⟨self.state.dirs, rfl⟩
  | all => exact ⟨self.state.dirs, rfl⟩

/-- Queueing the events of a scan changes nothing but the queue and the listed paths. -/
theorem foldl_queueScannedEvent (events : List Event) (self : Watcher σ) (root : String) :
    ∃ dirs, events.foldl (fun self => self.queueScannedEvent root) self = { self with
      state := { self.state with
        dirs := dirs
        pendingEvents := self.state.pendingEvents ++ events.map (scannedEvent root self.state.options) } } := by
  induction events generalizing self with
  | nil => exact ⟨self.state.dirs, by simp⟩
  | cons event events ih =>
      obtain ⟨dirs, hdirs⟩ := recordEventInWatched_eq self (scannedEvent root self.state.options event)
      have hstep : self.queueScannedEvent root event = { self with
          state := { self.state with
            dirs := dirs
            pendingEvents := self.state.pendingEvents ++ [scannedEvent root self.state.options event] } } := by
        unfold queueScannedEvent
        dsimp only
        rw [hdirs]
        rfl
      obtain ⟨dirs', hrest⟩ := ih (self.queueScannedEvent root event)
      refine ⟨dirs', ?_⟩
      rw [List.foldl_cons, hrest, hstep, List.map_cons]
      simp only [List.append_assoc, List.singleton_append]

/-- What carrying out a plan makes of the watcher. -/
theorem carryOut_spec (self : Watcher σ) (plan : PlannedAdd) :
    ∃ dirs, self.carryOut plan = { self with
      state := { self.state with
        dirs := dirs
        rootPaths :=
          if plan.root ∈ self.state.rootPaths then self.state.rootPaths
          else self.state.rootPaths ++ [plan.root]
        handles := self.state.handles ++ [plan.handle]
        snapshots := Function.update self.state.snapshots plan.root (some plan.entries)
        pendingEvents := self.state.pendingEvents ++ queuedBy self.state.options plan } } :=
  foldl_queueScannedEvent plan.events _ plan.root

/-- What carrying out several plans makes of the state, where no two are for one root. With two
plans for a root the second snapshot would take the place of the first one, and the events of both
would wait: the roots have to be distinct when normalized. -/
structure CarriedOut (plans : List PlannedAdd) (before later : Watcher σ) : Prop where
  state : later.state = { before.state with
    dirs := later.state.dirs
    rootPaths := before.state.rootPaths ++ plans.map PlannedAdd.root
    handles := later.state.handles
    snapshots := later.state.snapshots
    pendingEvents := before.state.pendingEvents ++ plans.flatMap (queuedBy before.state.options) }
  snapshots : ∀ plan ∈ plans, later.state.snapshots plan.root = some plan.entries
  others : ∀ root, root ∉ plans.map PlannedAdd.root →
    later.state.snapshots root = before.state.snapshots root
  emitted : later.emitted = before.emitted

theorem carriedOut_foldl {plans : List PlannedAdd}
    (h : (self.state.rootPaths ++ plans.map PlannedAdd.root).Nodup) :
    CarriedOut plans self (plans.foldl carryOut self) := by
  induction plans generalizing self with
  | nil => exact ⟨by simp, by simp, by simp, rfl⟩
  | cons plan plans ih =>
      obtain ⟨dirs, hcarry⟩ := self.carryOut_spec plan
      rw [List.map_cons] at h
      have hnew : plan.root ∉ self.state.rootPaths := fun hmem =>
        List.disjoint_of_nodup_append h hmem List.mem_cons_self
      have hlast : plan.root ∉ plans.map PlannedAdd.root :=
        (List.nodup_cons.mp (List.Nodup.of_append_right h)).1
      rw [if_neg hnew] at hcarry
      have hroots : (self.carryOut plan).state.rootPaths = self.state.rootPaths ++ [plan.root] := by
        rw [hcarry]
      have hsnapshots : (self.carryOut plan).state.snapshots =
          Function.update self.state.snapshots plan.root (some plan.entries) := by
        rw [hcarry]
      obtain ⟨hrest, hfound, hothers, hquiet⟩ := @ih (self.carryOut plan)
        (by rwa [hroots, List.append_assoc])
      refine ⟨?_, ?_, ?_, by rw [List.foldl_cons, hquiet, hcarry]⟩
      · rw [List.foldl_cons, hrest, hcarry]
        simp only [List.append_assoc, List.map_cons, List.singleton_append, List.flatMap_cons]
      · intro other hother
        rcases List.mem_cons.mp hother with rfl | hother
        · rw [List.foldl_cons, hothers _ hlast, hsnapshots, Function.update_self]
        · exact hfound other hother
      · intro place hplace
        rw [List.map_cons, List.mem_cons, not_or] at hplace
        rw [List.foldl_cons, hothers place hplace.2, hsnapshots, Function.update_of_ne hplace.1]

theorem CarriedOut.founded {plans : List PlannedAdd} {before : Watcher σ}
    (h : CarriedOut plans before start) (hplanned : ∀ plan ∈ plans, Planned w options plan)
    (hbefore : before.state.snapshots = fun _ => none) : Founded w options start := by
  intro other entries hentries
  by_cases hother : other ∈ plans.map PlannedAdd.root
  · obtain ⟨plan, hplan, rfl⟩ := List.mem_map.mp hother
    rw [h.snapshots plan hplan] at hentries
    rw [← Option.some.inj hentries]
    exact (hplanned plan hplan).finds
  · rw [h.others other hother, hbefore] at hentries
    cases hentries

theorem CarriedOut.snapshotFor {plans : List PlannedAdd} {before : Watcher σ} {plan : PlannedAdd}
    (h : CarriedOut plans before start) (hplan : plan ∈ plans) :
    start.snapshotFor plan.root = plan.entries := by
  rw [Watcher.snapshotFor, h.snapshots plan hplan]
  rfl

/-- The state that `watch` leaves. -/
theorem watch_spec {values : List String} {world : σ}
    (h : watch w values options world = (.ok (), start)) (hnodup : (values.map normalizePath).Nodup) :
    ∃ plans, plans.map PlannedAdd.root = values.map normalizePath ∧
      (∀ plan ∈ plans, Planned w options plan) ∧
      CarriedOut plans (⟨WatchState.new options, [], [], world⟩ : Watcher σ) start ∧
      ∃ before : Watcher σ, before.state = WatchState.new options ∧ start = plans.foldl carryOut before := by
  unfold watch Watcher.add at h
  split_ifs at h
  · cases (Prod.mk.inj h).1
  · cases hplans : planAdds w values [] (Watcher.new options world) with
    | mk result later =>
        rw [hplans] at h
        cases result with
        | error message => cases (Prod.mk.inj h).1
        | ok plans =>
            obtain ⟨more, hall, hroots, hplanned, hstate, hemitted⟩ := planAdds_spec rfl hplans
            rw [List.nil_append] at hall
            subst hall
            have hstart := (Prod.mk.inj h).2
            have hlater : later.state = WatchState.new options := hstate
            have hcarried : CarriedOut plans later start := by
              rw [← hstart]
              apply carriedOut_foldl
              rw [hlater, hroots]
              exact hnodup
            refine ⟨plans, hroots, hplanned, ⟨?_, hcarried.snapshots, ?_, ?_⟩, later, hlater, hstart.symm⟩
            · rw [hcarried.state, hlater]
            · rw [← hlater]
              exact hcarried.others
            · exact hcarried.emitted.trans hemitted

/-! ## What has been queued of a path -/

section Queued

variable {roots : List String} (howns : Owns w options roots root rel p)

include howns

/-- No plan for another root has an event of the path. -/
theorem path_of_queuedBy_other {plan : PlannedAdd} (hplanned : Planned w options plan)
    (hmem : plan.root ∈ roots) (hroot : plan.root ≠ root) :
    ∀ event ∈ queuedBy options plan, event.path ≠ p := by
  intro event hevent heq
  rw [queuedBy, hplanned.events, initialEventsFromEntries] at hevent
  obtain ⟨first, hfirst, rfl⟩ := List.mem_map.mp hevent
  split_ifs at hfirst
  · cases hfirst
  · obtain ⟨entry, hentry, rfl⟩ := List.mem_map.mp hfirst
    exact hroot (howns.only plan.root hmem plan.entries hplanned.finds entry hentry heq).1

/-- The plan for the root has the event of what the scan has found at the path. -/
theorem filter_queuedBy_own (hproper : w.Proper) {plan : PlannedAdd}
    (hplanned : Planned w options plan) (hroot : plan.root = root) :
    (queuedBy options plan).filter (·.path = p) =
      if options.ignoreInitial then []
      else (snapshotFind plan.entries rel).toList.map fun entry => (added entry).setPath p := by
  rw [queuedBy, hplanned.events, initialEventsFromEntries]
  split_ifs
  · rfl
  · rw [List.map_map, snapshotFind_eq, ← (hproper.distinct hplanned.finds).filter_key rel]
    have hpath : ∀ entry ∈ plan.entries,
        eventPathFor (joinPath plan.root entry.path) options = p ↔ entry.path = rel := by
      intro entry hentry
      constructor
      · exact fun hp =>
          (howns.only plan.root (hroot ▸ howns.mem) plan.entries hplanned.finds entry hentry hp).2
      · intro hrel
        rw [hrel, hroot]
        exact howns.path
    rw [List.filter_map]
    have hfilter : plan.entries.filter ((fun event : Event => decide (event.path = p)) ∘
        scannedEvent plan.root options ∘ added) = plan.entries.filter (·.path = rel) := by
      refine List.filter_congr fun entry hentry => ?_
      exact decide_eq_decide.mpr (hpath entry hentry)
    rw [hfilter]
    refine List.map_congr_left fun entry hentry => ?_
    obtain ⟨hmem, hrel⟩ := List.mem_filter.mp hentry
    exact congrArg (added entry).setPath ((hpath entry hmem).mpr (of_decide_eq_true hrel))

theorem filter_queued (hproper : w.Proper) {plans : List PlannedAdd} {plan : PlannedAdd}
    (hplanned : ∀ plan ∈ plans, Planned w options plan) (hroots : plans.map PlannedAdd.root = roots)
    (hnodup : roots.Nodup) (hplan : plan ∈ plans) (hroot : plan.root = root) :
    (plans.flatMap (queuedBy options)).filter (·.path = p) =
      if options.ignoreInitial then []
      else (snapshotFind plan.entries rel).toList.map fun entry => (added entry).setPath p := by
  obtain ⟨before, after, rfl⟩ := List.append_of_mem hplan
  have hnone {part : List PlannedAdd} (hpart : part ⊆ before ++ plan :: after)
      (hne : ∀ other ∈ part, other.root ≠ root) :
      (part.flatMap (queuedBy options)).filter (·.path = p) = [] := by
    rw [List.filter_eq_nil_iff]
    intro event hevent
    obtain ⟨other, hother, hevent⟩ := List.mem_flatMap.mp hevent
    have hmem : other.root ∈ roots := hroots ▸ List.mem_map_of_mem (hpart hother)
    simpa using path_of_queuedBy_other howns (hplanned other (hpart hother)) hmem (hne other hother)
      event hevent
  rw [← hroots, List.map_append, List.map_cons, List.nodup_append] at hnodup
  obtain ⟨-, hcons, hdisjoint⟩ := hnodup
  have hbefore : ∀ other ∈ before, other.root ≠ root := fun other hother heq =>
    hdisjoint _ (List.mem_map_of_mem hother) _ List.mem_cons_self (heq.trans hroot.symm)
  have hafter : ∀ other ∈ after, other.root ≠ root := fun other hother heq =>
    (List.nodup_cons.mp hcons).1 (hroot.trans heq.symm ▸ List.mem_map_of_mem hother)
  rw [List.flatMap_append, List.flatMap_cons, List.filter_append, List.filter_append,
    hnone (List.subset_append_left _ _) hbefore, hnone ?_ hafter, List.nil_append, List.append_nil,
    filter_queuedBy_own howns hproper (hplanned plan hplan) hroot]
  exact fun other hother => List.mem_append_right _ (List.mem_cons_of_mem plan hother)

end Queued

/-! ## The run -/

/-- After `watch` the listeners know nothing yet, or as much as they were to know without being
told. -/
theorem atRest_watch {values : List String} {world : σ} (hproper : w.Proper)
    (hwatch : watch w values options world = (.ok (), start))
    (hnodup : (values.map normalizePath).Nodup)
    (howns : Owns w options (values.map normalizePath) root rel p)
    (hawait : options.awaitWriteFinish = .awaitWriteFinishOff)
    (hignored : ∀ stats, isIgnored p stats options.ignored = false)
    (hswap : options.atomicOption = .atomicOff ∨ isDotSwapFile p = false)
    (hbase : ∀ dir, base ⟨p, dir⟩ =
      if options.ignoreInitial then filesOf (start.snapshotFor root) ⟨rel, dir⟩ else none) :
    AtRest w options options.usePolling base (values.map normalizePath) root rel p start := by
  obtain ⟨plans, hroots, hplanned, hcarried, -⟩ := watch_spec hwatch hnodup
  have hroot : root ∈ plans.map PlannedAdd.root := hroots ▸ howns.mem
  obtain ⟨plan, hplan, hplanRoot⟩ := List.mem_map.mp hroot
  have hstate := hcarried.state
  have hsnapshot : start.snapshotFor root = plan.entries := hplanRoot ▸ hcarried.snapshotFor hplan
  have hpending : start.state.pendingEvents = plans.flatMap (queuedBy options) := by
    rw [hstate]
    rfl
  have hfilter : start.state.pendingEvents.filter (·.path = p) =
      if options.ignoreInitial then []
      else (snapshotFind plan.entries rel).toList.map fun entry => (added entry).setPath p := by
    rw [hpending]
    exact filter_queued howns hproper hplanned hroots hnodup hplan hplanRoot
  have hnone : start.pendingOf p = [] := by
    rw [pendingOf, hstate]
    rfl
  have hheard (dir : Bool) : start.heard base p dir = base ⟨p, dir⟩ := by
    rw [heard, hcarried.emitted]
    rfl
  rw [hsnapshot] at hbase
  refine ⟨by rw [hstate]; rfl, hcarried.founded hplanned rfl, by rw [hstate]; rfl,
    ⟨by rw [hstate]; rfl, ?_, ?_, ?_⟩, ?_, by rw [hstate]; rfl, ?_⟩
  · rw [hstate]
    exact hignored
  · rw [hstate]
    exact hawait
  · rw [hstate]
    exact hswap
  · rw [hstate, ← hroots]
    exact List.nil_append _
  · rw [hsnapshot]
    by_cases hinitial : options.ignoreInitial = true
    · rw [if_pos hinitial, List.filter_eq_nil_iff] at hfilter
      refine .inl ⟨fun event hevent => by simpa using hfilter event hevent, ?_, .inl ⟨hnone, ?_⟩⟩
      · rw [hheard, hbase, if_pos hinitial]
        rfl
      · rw [hheard, hbase, if_pos hinitial]
        exact Agrees.refl _ _
    · rw [if_neg hinitial] at hfilter
      have hsettled : Settled options.usePolling base p (fillsOf none) start := by
        refine ⟨?_, .inl ⟨hnone, ?_⟩⟩
        · rw [hheard, hbase, if_neg hinitial]
          rfl
        · rw [hheard, hbase, if_neg hinitial]
          exact Agrees.refl _ _
      cases hfind : snapshotFind plan.entries rel with
      | none =>
          rw [hfind, Option.toList_none, List.map_nil, List.filter_eq_nil_iff] at hfilter
          exact .inl ⟨fun event hevent => by simpa using hfilter event hevent, hsettled⟩
      | some entry =>
          rw [hfind] at hfilter
          exact .inr ⟨entry, rfl, hfilter, hnone, hsettled⟩

theorem atRest_cycles {roots : List String} (hproper : w.Proper)
    (howns : Owns w options roots root rel p) (hroots : roots.Nodup)
    (h : AtRest w options options.usePolling base roots root rel p self) (n : Nat) :
    AtRest w options options.usePolling base roots root rel p (cycles w self n) ∧
      (n ≠ 0 → (cycles w self n).state.pendingEvents = []) := by
  induction n with
  | zero => exact ⟨h, fun hne => absurd rfl hne⟩
  | succ n ih =>
      obtain ⟨hrest, hpending⟩ := ih.1.process hproper howns hroots
      exact ⟨hrest, fun _ => hpending⟩

/-- After any number of cycles the listeners have heard what the last scan has found. -/
theorem settled_cycles (hproper : w.Proper) {values : List String} {world : σ}
    (hwatch : watch w values options world = (.ok (), start))
    (hnodup : (values.map normalizePath).Nodup)
    (howns : Owns w options (values.map normalizePath) root rel p)
    (hawait : options.awaitWriteFinish = .awaitWriteFinishOff)
    (hignored : ∀ stats, isIgnored p stats options.ignored = false)
    (hswap : options.atomicOption = .atomicOff ∨ isDotSwapFile p = false)
    (hbase : ∀ dir, base ⟨p, dir⟩ =
      if options.ignoreInitial then filesOf (start.snapshotFor root) ⟨rel, dir⟩ else none) (n : Nat) :
    Settled options.usePolling base p
        (fillsOf (snapshotFind ((cycles w start (n + 1)).snapshotFor root) rel))
        (cycles w start (n + 1)) ∧
      (cycles w start (n + 1)).state.options = options := by
  obtain ⟨hrest, hpending⟩ := atRest_cycles hproper howns hnodup
    (atRest_watch hproper hwatch hnodup howns hawait hignored hswap hbase) (n + 1)
  refine ⟨?_, hrest.options_eq⟩
  rcases hrest.told with ⟨-, hsettled⟩ | ⟨entry, -, hqueued, -, -⟩
  · exact hsettled
  · rw [hpending (Nat.succ_ne_zero n)] at hqueued
    cases hqueued

/-- In every run of a watcher, in every world and with every clock: after any number of cycles, of
which some may have failed, what the listeners have heard of a path is what the last scan of its
root found there. Of a directory they know that exactly; of a file they know its stats too where
the watcher polls, and all that may be outstanding is the `Unlink` of one that has gone. -/
theorem heard_cycles (w : World σ) (hproper : w.Proper) (values : List String) (world : σ)
    (hwatch : watch w values options world = (.ok (), start))
    (hnodup : (values.map normalizePath).Nodup)
    (howns : Owns w options (values.map normalizePath) root rel p)
    (hawait : options.awaitWriteFinish = .awaitWriteFinishOff)
    (hignored : ∀ stats, isIgnored p stats options.ignored = false)
    (hswap : options.atomicOption = .atomicOff ∨ isDotSwapFile p = false)
    (hbase : ∀ dir, base ⟨p, dir⟩ =
      if options.ignoreInitial then filesOf (start.snapshotFor root) ⟨rel, dir⟩ else none) (n : Nat) :
    let later := cycles w start (n + 1)
    let there := filesOf (later.snapshotFor root)
    learn base later.emitted ⟨p, true⟩ = there ⟨rel, true⟩ ∧
      (later.pendingOf p = [] ∧
          Agrees options.usePolling (learn base later.emitted ⟨p, false⟩) (there ⟨rel, false⟩) ∨
        ∃ pending, later.pendingOf p = [pending] ∧ pending.event.name = .unlink ∧
          options.atomicOption ≠ .atomicOff ∧ there ⟨rel, false⟩ = none ∧
          (learn base later.emitted ⟨p, false⟩).isSome = true) := by
  obtain ⟨hsettled, hoptions⟩ :=
    settled_cycles hproper hwatch hnodup howns hawait hignored hswap hbase n
  refine ⟨hsettled.dir, hsettled.file.imp id ?_⟩
  rintro ⟨pending, hone, hunlink, hatomic, hheard, hgone⟩
  rw [hoptions] at hatomic
  exact ⟨pending, hone, hunlink, hatomic, hgone, hheard⟩

/-- A world in which a file is found once and then has gone; its clock goes on by 100 at a time. -/
def vanishing : World Nat where
  now n := (100 * n.toUInt64, n + 1)
  scanSnapshot _ _ n := (.ok (if n = 0 then [⟨"a", .file, some ⟨1, 420, 5⟩⟩] else []), n + 1)
  statForPath _ _ n := (none, n)
  backendWatch _ _ n := (.ok 0, n)
  backendDrainEvents n := ([], n)

theorem entry_of_vanishing {entries : List SnapshotEntry} (h : vanishing.Finds options root entries) :
    entries = [⟨"a", .file, some ⟨1, 420, 5⟩⟩] ∨ entries = [] := by
  obtain ⟨n, later, hscan⟩ := h
  have heq := Except.ok.inj (Prod.mk.inj hscan).1
  split_ifs at heq
  · exact .inl heq.symm
  · exact .inr heq.symm

theorem proper_vanishing : vanishing.Proper where
  distinct := by
    intro options root entries h
    rcases entry_of_vanishing h with rfl | rfl <;> decide
  stats := by
    intro options root entries h
    rcases entry_of_vanishing h with rfl | rfl <;> decide

/-- The default options, where the watcher polls. -/
def polling : Options := { Options.default with usePolling := true }

theorem heard_cycles_vanishing :
    let later := cycles vanishing (watch vanishing ["/r"] polling 0).2 2
    learn (fun _ => none) later.emitted ⟨"/r/a", false⟩ =
      filesOf (later.snapshotFor "/r") ⟨"a", false⟩ := by
  have hwatch : watch vanishing ["/r"] polling 0 = (.ok (), (watch vanishing ["/r"] polling 0).2) :=
    Prod.ext (by decide +kernel) rfl
  have howns : Owns vanishing polling (["/r"].map normalizePath) "/r" "a" "/r/a" := by
    refine ⟨by decide +kernel, by decide +kernel, ?_⟩
    intro other hother entries hentries entry hentry _
    have hmem : other ∈ ["/r"] := by
      have hroots : ["/r"].map normalizePath = ["/r"] := by decide +kernel
      rwa [hroots] at hother
    rcases entry_of_vanishing hentries with rfl | rfl
    · rw [List.mem_singleton.mp hentry]
      exact ⟨List.mem_singleton.mp hmem, rfl⟩
    · cases hentry
  obtain ⟨nothing, hnothing⟩ : ∃ nothing : Files, nothing = fun _ => none := ⟨_, rfl⟩
  have hbase (dir : Bool) : nothing ⟨"/r/a", dir⟩ =
      if polling.ignoreInitial then
        filesOf ((watch vanishing ["/r"] polling 0).2.snapshotFor "/r") ⟨"a", dir⟩
      else none := by
    rw [hnothing]
    exact (if_neg Bool.false_ne_true).symm
  obtain ⟨-, hfile | ⟨pending, hpending, -⟩⟩ := heard_cycles vanishing proper_vanishing ["/r"] 0 hwatch
    (by decide +kernel) howns rfl (fun _ => rfl) (.inr (by decide +kernel)) hbase 1
  · rw [← hnothing]
    exact hfile.2
  · have hnone : (cycles vanishing (watch vanishing ["/r"] polling 0).2 2).pendingOf "/r/a" = [] := by
      decide +kernel
    exact absurd (hnone.symm.trans hpending) (by simp)

end Watcher

end Mulp.Chokidar
