import Mulp.Chokidar.Watcher

/-! What a watcher does that has nothing to do with a path.

The listeners are told of one path after the other, and the lists of pending events and
throttled changes are shared by all paths. So the invariants of one path are carried
over the events of all others by what those leave as it is: a frame, here, in which only
what concerns other paths may have changed. -/
namespace Mulp.Chokidar

open Keyed

variable {σ : Type} {w : World σ} {p : String}

/-- The event tells nothing about the path. It may still be of the path, such as a `Raw` event,
which says nothing of what is there. -/
def Event.Foreign (p : String) (event : Event) : Prop := ∀ edit ∈ event.edit?, edit.key.path ≠ p

namespace Event

variable {event : Event}

theorem foreign_of_path (h : event.path ≠ p) : event.Foreign p := by
  intro edit hedit
  rwa [path_of_edit? hedit]

theorem foreign_of_edit? (h : event.edit? = none) : event.Foreign p := by
  intro edit hedit
  rw [h] at hedit
  cases hedit

theorem Foreign.path (h : event.Foreign p) {edit : Patch.Edit Slot (Option FileStats)}
    (hedit : event.edit? = some edit) : event.path ≠ p := by
  rw [← path_of_edit? hedit]
  exact h edit hedit

/-- An event of a file is about its path. -/
theorem Foreign.path_of_name (h : event.Foreign p)
    (hname : event.name = .unlink ∨ event.name = .add ∨ event.name = .change) : event.path ≠ p := by
  rcases hname with hname | hname | hname
  · exact h.path (by rw [edit?, hname])
  · exact h.path (by rw [edit?, hname])
  · exact h.path (by rw [edit?, hname])

theorem Foreign.congr {out : Event} (h : event.Foreign p) (hpath : out.path = event.path)
    (hname : out.name = event.name) : out.Foreign p := by
  have hsome : out.edit?.isSome = event.edit?.isSome := by
    unfold edit?
    rw [hname]
    cases event.name <;> rfl
  intro edit hedit
  rw [Option.mem_def.mp hedit] at hsome
  obtain ⟨other, hother⟩ := Option.isSome_iff_exists.mp hsome.symm
  rw [path_of_edit? hedit, hpath]
  exact h.path hother

end Event

theorem learn_foreign {known : Files} {events : List Event} {dir : Bool}
    (h : ∀ event ∈ events, event.Foreign p) : learn known events ⟨p, dir⟩ = known ⟨p, dir⟩ := by
  apply Patch.replay_of_ne
  intro edit hedit hkey
  obtain ⟨event, hevent, hsome⟩ := List.mem_filterMap.mp hedit
  exact h event hevent edit hsome (by rw [hkey])

namespace Watcher

/-- The pending `Unlink`s of the path. There is one at most, but the list says so only where the
rest of the invariant holds. -/
def pendingOf (p : String) (self : Watcher σ) : List PendingTimedEvent :=
  self.state.pendingUnlinks.filter (·.event.path = p)

/-- Between the states the watcher has emitted events: its listed paths, its pending `Unlink`s and
its throttle may have changed. It is an equation of states, so that every other field is said at
once to be what it was. -/
def Kept (before later : Watcher σ) : Prop :=
  later.state = { before.state with
    dirs := later.state.dirs
    pendingUnlinks := later.state.pendingUnlinks
    throttledChanges := later.state.throttledChanges }

namespace Kept

variable {before middle later : Watcher σ}

theorem refl (before : Watcher σ) : Kept before before := rfl

theorem trans (h : Kept before middle) (h' : Kept middle later) : Kept before later := by
  rw [Kept, h', h]

theorem options (h : Kept before later) : later.state.options = before.state.options := by
  rw [h]

theorem closed (h : Kept before later) : later.state.closed = before.state.closed := by
  rw [h]

theorem pendingWrites (h : Kept before later) :
    later.state.pendingWrites = before.state.pendingWrites := by
  rw [h]

theorem snapshots (h : Kept before later) : later.state.snapshots = before.state.snapshots := by
  rw [h]

theorem rootPaths (h : Kept before later) : later.state.rootPaths = before.state.rootPaths := by
  rw [h]

theorem pendingEvents (h : Kept before later) :
    later.state.pendingEvents = before.state.pendingEvents := by
  rw [h]

end Kept

/-- Between the states the watcher has emitted events, but none about the path: what is pending of
the path and whether it is throttled have not changed, whatever has become of that of the others.
The relation composes, so a whole scan of other paths is one step of it. -/
structure Apart (p : String) (before later : Watcher σ) : Prop where
  kept : Kept before later
  emitted : ∃ events, later.emitted = before.emitted ++ events ∧ ∀ event ∈ events, event.Foreign p
  unlinks : later.pendingOf p = before.pendingOf p
  throttled : p ∈ later.state.throttledChanges ↔ p ∈ before.state.throttledChanges

namespace Apart

variable {self middle later : Watcher σ}

theorem refl (self : Watcher σ) : Apart p self self :=
  ⟨rfl, ⟨[], (List.append_nil _).symm, by simp⟩, rfl, Iff.rfl⟩

theorem trans (h : Apart p self middle) (h' : Apart p middle later) : Apart p self later := by
  obtain ⟨first, hfirst, hforeign⟩ := h.emitted
  obtain ⟨second, hsecond, hforeign'⟩ := h'.emitted
  refine ⟨h.kept.trans h'.kept, ⟨first ++ second, ?_, ?_⟩, h'.unlinks.trans h.unlinks,
    h'.throttled.trans h.throttled⟩
  · rw [hsecond, hfirst, List.append_assoc]
  · intro event hevent
    exact (List.mem_append.mp hevent).elim (hforeign event) (hforeign' event)

/-- What a step keeps apart, steps one after the other do. -/
theorem foldl {α : Type} {f : Watcher σ → α → Watcher σ} {l : List α}
    (h : ∀ x ∈ l, ∀ self, Apart p self (f self x)) (self : Watcher σ) :
    Apart p self (l.foldl f self) := by
  induction l generalizing self with
  | nil => exact refl self
  | cons x l ih =>
      have hstep := h x List.mem_cons_self self
      exact hstep.trans (ih (fun y hy => h y (List.mem_cons_of_mem x hy)) _)

theorem known (h : Apart p self later) (base : Files) (dir : Bool) :
    learn base later.emitted ⟨p, dir⟩ = learn base self.emitted ⟨p, dir⟩ := by
  obtain ⟨events, hevents, hforeign⟩ := h.emitted
  rw [hevents, learn_append, learn_foreign hforeign]

/-- What the world answers is about no path. -/
theorem world (self : Watcher σ) (world : σ) : Apart p self { self with world := world } :=
  ⟨rfl, ⟨[], (List.append_nil _).symm, by simp⟩, rfl, Iff.rfl⟩

theorem emit (self : Watcher σ) {event : Event} (h : event.Foreign p) :
    Apart p self (self.emit event) :=
  ⟨rfl, ⟨[event], rfl, by simpa using h⟩, rfl, Iff.rfl⟩

theorem emitAllowed (self : Watcher σ) {event : Event} (h : event.Foreign p) :
    Apart p self (self.emitAllowed event) := by
  unfold Watcher.emitAllowed Watcher.allowEvent
  by_cases hname : event.name = .change
  · by_cases hmem : event.path ∈ self.state.throttledChanges
    · simp only [hname, ne_eq, not_true_eq_false, if_false, hmem, if_true]
      exact refl self
    · simp only [hname, ne_eq, not_true_eq_false, if_false, hmem, if_true]
      have hne := h.path_of_name (.inr (.inr hname))
      refine trans ?_ (emit _ h)
      refine ⟨rfl, ⟨[], (List.append_nil _).symm, by simp⟩, rfl, ?_⟩
      simp [Ne.symm hne]
  · simp only [ne_eq, hname, not_false_eq_true, if_true]
    exact emit self h

theorem unlinks_of {pendingUnlinks : List PendingTimedEvent} {world : σ}
    (h : pendingUnlinks.filter (·.event.path = p) = self.pendingOf p) :
    Apart p self { self.setPendingUnlinks pendingUnlinks with world := world } :=
  ⟨rfl, ⟨[], (List.append_nil _).symm, by simp⟩, h, Iff.rfl⟩

end Apart

/-! ## One event -/

/-- What `normalize_atomic` can do with an event. -/
inductive Atomic (w : World σ) (self : Watcher σ) (event : Event) : List Event → Watcher σ → Prop where
  | passes (h : self.state.options.atomicOption = .atomicOff ∨ event.name ≠ .unlink ∧
      (event.name = .add → lookup (·.event.path) event.path self.state.pendingUnlinks = none)) :
      Atomic w self event [event] self
  | swapFile (hatomic : self.state.options.atomicOption ≠ .atomicOff) (hname : event.name = .unlink)
      (hswap : isDotSwapFile event.path = true) : Atomic w self event [] self
  | waits (hatomic : self.state.options.atomicOption ≠ .atomicOff) (hname : event.name = .unlink)
      (hswap : isDotSwapFile event.path = false) :
      Atomic w self event [] { self.setPendingUnlinks
        (self.state.pendingUnlinks ++ [⟨event, (w.now self.world).1⟩]) with
          world := (w.now self.world).2 }
  | replaces {pending : PendingTimedEvent} {out : List Event} (world : σ)
      (hatomic : self.state.options.atomicOption ≠ .atomicOff) (hname : event.name = .add)
      (hpending : lookup (·.event.path) event.path self.state.pendingUnlinks = some pending)
      (hout : out = [pending.event, event] ∨ out = [{ event with name := .change }]) :
      Atomic w self event out { self.setPendingUnlinks
        (remove (·.event.path) event.path self.state.pendingUnlinks) with world := world }

variable {self : Watcher σ} {event : Event}

theorem normalizeAtomic_on (w : World σ) (h : self.state.options.atomicOption ≠ .atomicOff) :
    self.normalizeAtomic w event =
      if event.name = .unlink then
        if isDotSwapFile event.path then ([], self)
        else ([], { self.setPendingUnlinks
          (self.state.pendingUnlinks ++ [⟨event, (w.now self.world).1⟩]) with
            world := (w.now self.world).2 })
      else if event.name = .add then
        match lookup (·.event.path) event.path self.state.pendingUnlinks with
        | some pending =>
            let rest := remove (·.event.path) event.path self.state.pendingUnlinks
            let (expired, world) := timestampExpired w pending.createdAt
              (atomicWindowMillis self.state.options.atomicOption) self.world
            (if expired then [pending.event, event] else [{ event with name := .change }],
              { self.setPendingUnlinks rest with world := world })
        | none => ([event], self)
      else ([event], self) := by
  unfold normalizeAtomic
  cases hopt : self.state.options.atomicOption with
  | atomicOff => exact absurd hopt h
  | atomicDefault => rfl
  | atomicWindow window => rfl

theorem atomic_normalizeAtomic (w : World σ) (self : Watcher σ) (event : Event) :
    Atomic w self event (self.normalizeAtomic w event).1 (self.normalizeAtomic w event).2 := by
  by_cases hoff : self.state.options.atomicOption = .atomicOff
  · rw [normalizeAtomic, hoff]
    exact .passes (.inl hoff)
  · rw [normalizeAtomic_on w hoff]
    by_cases hunlink : event.name = .unlink
    · rw [if_pos hunlink]
      by_cases hswap : isDotSwapFile event.path = true
      · rw [if_pos hswap]
        exact .swapFile hoff hunlink hswap
      · rw [if_neg hswap]
        exact .waits hoff hunlink (Bool.eq_false_iff.mpr hswap)
    · rw [if_neg hunlink]
      by_cases hadd : event.name = .add
      · rw [if_pos hadd]
        cases hfind : lookup (·.event.path) event.path self.state.pendingUnlinks with
        | none => exact .passes (.inr ⟨hunlink, fun _ => hfind⟩)
        | some pending =>
            refine .replaces _ hoff hadd hfind ?_
            dsimp only
            split_ifs
            · exact .inl rfl
            · exact .inr rfl
      · rw [if_neg hadd]
        exact .passes (.inr ⟨hunlink, fun h => absurd h hadd⟩)

namespace Apart

theorem normalizeAtomic (w : World σ) (self : Watcher σ) (h : event.Foreign p) :
    Apart p self (self.normalizeAtomic w event).2 ∧
      ∀ out ∈ (self.normalizeAtomic w event).1, out.Foreign p := by
  have hcases := atomic_normalizeAtomic w self event
  generalize (self.normalizeAtomic w event).1 = out at hcases ⊢
  generalize (self.normalizeAtomic w event).2 = later at hcases ⊢
  cases hcases with
  | passes _ => exact ⟨refl self, by simpa using h⟩
  | swapFile _ _ _ => exact ⟨refl self, by simp⟩
  | waits _ hname _ =>
      have hne := h.path_of_name (.inl hname)
      refine ⟨unlinks_of ?_, by simp⟩
      rw [List.filter_append, List.filter_singleton]
      simp [hne, pendingOf]
  | replaces world _ hname hpending hout =>
      have hne := h.path_of_name (.inr (.inl hname))
      have hpath := (lookup_eq_some hpending).2
      refine ⟨unlinks_of (filter_remove_ne hne), ?_⟩
      · rcases hout with rfl | rfl
        · intro out hmem
          rcases List.mem_cons.mp hmem with rfl | hmem
          · exact Event.foreign_of_path (by rw [hpath]; exact hne)
          · rw [List.mem_singleton.mp hmem]
            exact h
        · intro out hmem
          rw [List.mem_singleton.mp hmem]
          exact Event.foreign_of_path hne

theorem dispatchReadyEvent (w : World σ) (self : Watcher σ) (h : event.Foreign p) :
    Apart p self (self.dispatchReadyEvent w event) := by
  obtain ⟨hatomic, hout⟩ := normalizeAtomic w self h
  exact hatomic.trans (foldl (fun out hmem self => emitAllowed self (hout out hmem)) _)

end Apart

/-- What `emit_event` does where writes are not awaited. -/
theorem emitEvent_eq (w : World σ) (hawait : self.state.options.awaitWriteFinish = .awaitWriteFinishOff)
    (event : Event) :
    self.emitEvent w event =
      if self.state.closed || isIgnored event.path event.stats self.state.options.ignored then self
      else match self.withStats w event with
        | (none, self) => self
        | (some event, self) => self.dispatchReadyEvent w event := by
  unfold emitEvent
  split_ifs
  · rfl
  · have hoptions : (self.withStats w event).2.state = self.state := by
      unfold withStats
      split_ifs <;> rfl
    cases hstats : self.withStats w event with
    | mk event? later =>
        cases event? with
        | none => rfl
        | some event =>
            rw [hstats] at hoptions
            have hlater : later.state.options.awaitWriteFinish = .awaitWriteFinishOff := by
              rw [hoptions, hawait]
            simp [normalizeAwaitWrite, hlater]

/-- The event that `emit_event` goes on with tells of the same file. -/
theorem withStats_spec (w : World σ) (self : Watcher σ) (event : Event) :
    (∃ world, (self.withStats w event).2 = { self with world := world }) ∧
      ∀ out ∈ (self.withStats w event).1, out.path = event.path ∧ out.name = event.name := by
  unfold withStats
  split_ifs
  · refine ⟨⟨_, rfl⟩, ?_⟩
    intro out hout
    obtain ⟨stats, -, rfl⟩ := Option.mem_map.mp hout
    exact ⟨rfl, rfl⟩
  · refine ⟨⟨self.world, rfl⟩, ?_⟩
    intro out hout
    rw [← Option.mem_some.mp hout]
    exact ⟨rfl, rfl⟩

/-- An event that tells nothing about a path does nothing about it. -/
theorem Apart.emitEvent (w : World σ)
    (hawait : self.state.options.awaitWriteFinish = .awaitWriteFinishOff) (h : event.Foreign p) :
    Apart p self (self.emitEvent w event) := by
  rw [emitEvent_eq w hawait]
  split_ifs
  · exact refl self
  · obtain ⟨⟨world, hworld⟩, hout⟩ := withStats_spec w self event
    cases hstats : self.withStats w event with
    | mk event? later =>
        rw [hstats] at hworld hout
        dsimp only at hworld hout ⊢
        rw [hworld]
        cases event? with
        | none => exact Apart.world self world
        | some out =>
            obtain ⟨hpath, hname⟩ := hout out rfl
            exact (Apart.world self world).trans (dispatchReadyEvent w _ (h.congr hpath hname))

theorem Apart.recordEventInWatched (self : Watcher σ) (event : Event) :
    Apart p self (self.recordEventInWatched event) := by
  unfold Watcher.recordEventInWatched
  cases event.name <;> exact ⟨rfl, ⟨[], (List.append_nil _).symm, by simp⟩, rfl, Iff.rfl⟩

/-- No event changes more than an emission does. -/
theorem Kept.emitEvent (w : World σ)
    (hawait : self.state.options.awaitWriteFinish = .awaitWriteFinishOff) (event : Event) :
    Kept self (self.emitEvent w event) := by
  have hforeign : event.Foreign (event.path ++ "/") := by
    apply Event.foreign_of_path
    intro heq
    have hlength := congrArg String.length heq
    rw [String.length_append] at hlength
    exact absurd hlength (by simp)
  exact (Apart.emitEvent w hawait hforeign).kept

end Watcher

end Mulp.Chokidar
