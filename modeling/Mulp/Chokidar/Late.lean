import Mulp.Chokidar.Run

/-! What a cycle asks of the world and what it leaves as it is; how long an `Unlink` may
be pending.

The clock is read again for each pending event, so a bound on the time at the start of a
cycle says something of the reads in it only if the world does not go back: that is the
assumption, for as many answers as the cycle may ask for. -/
namespace Mulp.Chokidar

open Keyed

variable {σ : Type} {w : World σ} {ok : σ → Prop}

/-- What holds of a world holds after each of its answers, those included that fail. By this a fact
about the clock at the start of a cycle is one about each read of it. -/
structure World.Closed (w : World σ) (ok : σ → Prop) : Prop where
  now : ∀ world, ok world → ok (w.now world).2
  scanSnapshot : ∀ root options world, ok world → ok (w.scanSnapshot root options world).2
  statForPath : ∀ path follow world, ok world → ok (w.statForPath path follow world).2
  backendDrainEvents : ∀ world, ok world → ok (w.backendDrainEvents world).2

theorem World.closed_true (w : World σ) : w.Closed fun _ => True where
  now _ _ := trivial
  scanSnapshot _ _ _ _ := trivial
  statForPath _ _ _ _ := trivial
  backendDrainEvents _ _ := trivial

/-- The worlds are those in which it is so late, and stays so. The time is a number of 64 bits, and
nothing else is said of how it goes on. -/
structure World.Late (w : World σ) (due : UInt64) (late : σ → Prop) : Prop extends w.Closed late where
  passed : ∀ world, late world → due ≤ (w.now world).1

/-- In a late world nothing that is due stays. -/
theorem flushExpired_late {α : Type} {startedAt : α → UInt64} {event : α → Event} {window : Int32}
    {due : UInt64} {late : σ → Prop} (hlate : w.Late due late) {l : List α} {world : σ}
    (h : late world) :
    late (flushExpired w startedAt event window l world).2 ∧
      ∀ x ∈ (flushExpired w startedAt event window l world).1.2,
        due < startedAt x + millisToUInt64 window := by
  induction l generalizing world with
  | nil => exact ⟨h, by simp [flushExpired]⟩
  | cons x l ih =>
      obtain ⟨hworld, hrest⟩ := ih (hlate.now world h)
      unfold flushExpired timestampExpired
      dsimp only
      by_cases hexpired : startedAt x + millisToUInt64 window ≤ (w.now world).1
      · rw [decide_eq_true hexpired, if_pos rfl]
        exact ⟨hworld, hrest⟩
      · rw [decide_eq_false hexpired, if_neg Bool.false_ne_true]
        refine ⟨hworld, fun y hy => ?_⟩
        rcases List.mem_cons.mp hy with rfl | hy
        · have hpassed := hlate.passed world h
          rw [UInt64.le_iff_toNat_le] at hexpired hpassed
          rw [UInt64.lt_iff_toNat_lt]
          omega
        · exact hrest y hy

section Closed

variable (hclosed : w.Closed ok)

include hclosed

theorem flushExpired_closed {α : Type} (startedAt : α → UInt64) (event : α → Event) (window : Int32)
    (l : List α) {world : σ} (h : ok world) : ok (flushExpired w startedAt event window l world).2 := by
  induction l generalizing world with
  | nil => exact h
  | cons x l ih =>
      have hrest := ih (hclosed.now world h)
      unfold flushExpired timestampExpired
      dsimp only
      split_ifs <;> exact hrest

end Closed

namespace Watcher

/-- What telling an event leaves as it is. The pending `Unlink`s are not among it, and they are what
this module is about. -/
structure Unmoved where
  options : Options
  dirs : Dirs
  rootPaths : List String
  snapshots : String → Option (List SnapshotEntry)
  handles : List Int32
  pendingEvents : List Event
  closed : Bool
  ready : Bool
  closedHandles : List Int32

def unmoved (self : Watcher σ) : Unmoved where
  options := self.state.options
  dirs := self.state.dirs
  rootPaths := self.state.rootPaths
  snapshots := self.state.snapshots
  handles := self.state.handles
  pendingEvents := self.state.pendingEvents
  closed := self.state.closed
  ready := self.state.ready
  closedHandles := self.closedHandles

/-- What no cycle changes. -/
structure Fixed where
  options : Options
  rootPaths : List String
  handles : List Int32
  closed : Bool
  closedHandles : List Int32

def Unmoved.fixed (unmoved : Unmoved) : Fixed :=
  ⟨unmoved.options, unmoved.rootPaths, unmoved.handles, unmoved.closed, unmoved.closedHandles⟩

/-- The watcher is in such a world, and has only told events. -/
structure Tells (ok : σ → Prop) (told : List Event) (unmoved : Unmoved) (watcher : Watcher σ) :
    Prop where
  world : ok watcher.world
  emitted : told <+: watcher.emitted
  unmoved : watcher.unmoved = unmoved

/-- The watcher is in such a world, and has not changed but for its cycles. -/
structure Stays (ok : σ → Prop) (told : List Event) (fixed : Fixed) (watcher : Watcher σ) :
    Prop where
  world : ok watcher.world
  emitted : told <+: watcher.emitted
  fixed : watcher.unmoved.fixed = fixed

variable {self : Watcher σ} {told : List Event} {unmoved : Unmoved} {fixed : Fixed}

theorem Tells.answer (h : Tells ok told unmoved self) {world : σ} (hworld : ok world) :
    Tells ok told unmoved { self with world := world } :=
  ⟨hworld, h.emitted, h.unmoved⟩

theorem Stays.answer (h : Stays ok told fixed self) {world : σ} (hworld : ok world) :
    Stays ok told fixed { self with world := world } :=
  ⟨hworld, h.emitted, h.fixed⟩

/-- What tells events from a watcher that stays does not change it either. -/
theorem Stays.tells {f : Watcher σ → Watcher σ}
    (hf : ∀ unmoved self, Tells ok told unmoved self → Tells ok told unmoved (f self))
    (h : Stays ok told fixed self) : Stays ok told fixed (f self) := by
  obtain ⟨hworld, hemitted, hunmoved⟩ := hf self.unmoved self ⟨h.world, h.emitted, rfl⟩
  refine ⟨hworld, hemitted, ?_⟩
  rw [hunmoved]
  exact h.fixed

theorem foldl_keeps {α : Type} {P : Watcher σ → Prop} {f : Watcher σ → α → Watcher σ} {l : List α}
    (hstep : ∀ x self, P self → P (f self x)) (h : P self) : P (l.foldl f self) := by
  induction l generalizing self with
  | nil => exact h
  | cons x l ih => exact ih (hstep x self h)

theorem emitAllowed_tells (event : Event) (self : Watcher σ) (h : Tells ok told unmoved self) :
    Tells ok told unmoved (self.emitAllowed event) := by
  have hemit := h.emitted.trans (List.prefix_append self.emitted [event])
  unfold emitAllowed allowEvent
  split_ifs
  · exact ⟨h.world, hemit, h.unmoved⟩
  · exact ⟨h.world, h.emitted, h.unmoved⟩
  · exact ⟨h.world, hemit, h.unmoved⟩

section Closed

variable (hclosed : w.Closed ok)

include hclosed

theorem normalizeAtomic_tells (h : Tells ok told unmoved self) (event : Event) :
    Tells ok told unmoved (self.normalizeAtomic w event).2 := by
  have hnow := hclosed.now self.world h.world
  by_cases hoff : self.state.options.atomicOption = .atomicOff
  · rw [normalizeAtomic, hoff]
    exact h
  · rw [normalizeAtomic_on w hoff]
    split_ifs
    · exact h
    · exact ⟨hnow, h.emitted, h.unmoved⟩
    · cases lookup (·.event.path) event.path self.state.pendingUnlinks with
      | none => exact h
      | some pending => exact ⟨hnow, h.emitted, h.unmoved⟩
    · exact h

theorem dispatchReadyEvent_tells (event : Event) (self : Watcher σ) (h : Tells ok told unmoved self) :
    Tells ok told unmoved (self.dispatchReadyEvent w event) :=
  foldl_keeps emitAllowed_tells (normalizeAtomic_tells hclosed h event)

theorem normalizeAwaitWrite_tells (h : Tells ok told unmoved self) (event : Event) :
    Tells ok told unmoved (self.normalizeAwaitWrite w event).2 := by
  have hnow := hclosed.now self.world h.world
  have hdue := hclosed.now _ hnow
  have hstable := hclosed.now _ hdue
  unfold normalizeAwaitWrite timestampExpired
  cases self.state.options.awaitWriteFinish with
  | awaitWriteFinishOff => exact h
  | awaitWriteFinishOn config =>
      dsimp only
      split_ifs
      · exact h
      · cases event.stats with
        | none => exact h
        | some stats =>
            dsimp only
            cases lookup (·.event.path) event.path self.state.pendingWrites with
            | none => exact ⟨hnow, h.emitted, h.unmoved⟩
            | some pending =>
                dsimp only
                split_ifs
                · exact ⟨hdue, h.emitted, h.unmoved⟩
                · exact ⟨hstable, h.emitted, h.unmoved⟩
                · exact ⟨hstable, h.emitted, h.unmoved⟩
                · exact ⟨hdue, h.emitted, h.unmoved⟩

theorem withStats_tells (h : Tells ok told unmoved self) (event : Event) :
    Tells ok told unmoved (self.withStats w event).2 := by
  unfold withStats
  split_ifs
  · exact ⟨hclosed.statForPath _ _ _ h.world, h.emitted, h.unmoved⟩
  · exact h

theorem emitEvent_tells (event : Event) (self : Watcher σ) (h : Tells ok told unmoved self) :
    Tells ok told unmoved (self.emitEvent w event) := by
  unfold emitEvent
  split_ifs
  · exact h
  · have hstats := withStats_tells hclosed h event
    cases hwith : self.withStats w event with
    | mk event? later =>
        rw [hwith] at hstats
        cases event? with
        | none => exact hstats
        | some event =>
            exact foldl_keeps (dispatchReadyEvent_tells hclosed)
              (normalizeAwaitWrite_tells hclosed hstats event)

/-- Before the pending `Unlink`s are flushed. -/
theorem flushedWrites_tells (h : Tells ok told unmoved self) :
    Tells ok told unmoved ((self.flushStableWrites w).1.foldl (dispatchReadyEvent w)
      (self.flushStableWrites w).2) :=
  foldl_keeps (dispatchReadyEvent_tells hclosed)
    ⟨flushExpired_closed hclosed _ _ _ _ h.world, h.emitted, h.unmoved⟩

theorem finishProcessCycle_tells (self : Watcher σ) (h : Tells ok told unmoved self) :
    Tells ok told unmoved (self.finishProcessCycle w) := by
  have hwrites := flushedWrites_tells hclosed h
  unfold finishProcessCycle
  dsimp only
  generalize (self.flushStableWrites w).1.foldl (dispatchReadyEvent w) (self.flushStableWrites w).2 =
    mid at hwrites ⊢
  have hflushed : Tells ok told unmoved (mid.flushExpiredPendingUnlinks w).2 :=
    ⟨flushExpired_closed hclosed _ _ _ _ hwrites.world, hwrites.emitted, hwrites.unmoved⟩
  have hunlinks : Tells ok told unmoved ((mid.flushExpiredPendingUnlinks w).1.foldl emitAllowed
      (mid.flushExpiredPendingUnlinks w).2) := foldl_keeps emitAllowed_tells hflushed
  exact ⟨hunlinks.world, hunlinks.emitted, hunlinks.unmoved⟩

/-! ## What a cycle leaves as it is -/

theorem emitEvent_stays (event : Event) (self : Watcher σ) (h : Stays ok told fixed self) :
    Stays ok told fixed (self.emitEvent w event) :=
  h.tells (f := fun self => self.emitEvent w event) fun _ => emitEvent_tells hclosed event

theorem emitScannedEvent_stays (root : String) (event : Event) (self : Watcher σ)
    (h : Stays ok told fixed self) : Stays ok told fixed (self.emitScannedEvent w root event) := by
  obtain ⟨dirs, hdirs⟩ := recordEventInWatched_eq self (scannedEvent root self.state.options event)
  unfold emitScannedEvent
  dsimp only
  rw [hdirs]
  exact emitEvent_stays hclosed _ _ ⟨h.world, h.emitted, h.fixed⟩

theorem scanRoot_stays (h : Stays ok told fixed self) (root : String) :
    Stays ok told fixed (self.scanRoot w root).2 := by
  have hscan := hclosed.scanSnapshot root self.state.options self.world h.world
  unfold scanRoot
  cases hfound : w.scanSnapshot root self.state.options self.world with
  | mk result world =>
      rw [hfound] at hscan
      cases result with
      | error message => exact h.answer hscan
      | ok entries => exact foldl_keeps (emitScannedEvent_stays hclosed root) ⟨hscan, h.emitted, h.fixed⟩

theorem scanRoots_stays {roots : List String} (h : Stays ok told fixed self) :
    Stays ok told fixed (scanRoots w roots self).2 := by
  induction roots generalizing self with
  | nil => exact h
  | cons root roots ih =>
      have hstep := scanRoot_stays hclosed h root
      unfold scanRoots
      cases hscan : self.scanRoot w root with
      | mk result later =>
          rw [hscan] at hstep
          cases result with
          | error message => exact hstep
          | ok _ => exact ih hstep

theorem processRawEvents_stays (h : Stays ok told fixed self) (rawEvents : List RawEvent) :
    Stays ok told fixed (self.processRawEvents w rawEvents).2 := by
  have hpending : Stays ok told fixed (self.state.pendingEvents.foldl (emitEvent w) self) :=
    foldl_keeps (emitEvent_stays hclosed) h
  refine scanRoots_stays hclosed (foldl_keeps (fun raw self hself => ?_) ?_)
  · exact emitEvent_stays hclosed _ self hself
  · unfold emitPending
    dsimp only
    split_ifs
    · exact ⟨hpending.world, hpending.emitted, hpending.fixed⟩
    · exact emitEvent_stays hclosed _ _ ⟨hpending.world, hpending.emitted, hpending.fixed⟩

/-- A cycle changes neither the roots nor the handles of a watcher. -/
theorem process_stays (h : Stays ok told fixed self) : Stays ok told fixed (self.process w).2 := by
  have hdrain := hclosed.backendDrainEvents self.world h.world
  unfold process
  split_ifs
  · exact h
  · cases hworld : w.backendDrainEvents self.world with
    | mk rawEvents world =>
        rw [hworld] at hdrain
        have hraw := processRawEvents_stays hclosed (h.answer hdrain) rawEvents
        dsimp only
        cases hresult : { self with world := world }.processRawEvents w rawEvents with
        | mk result later =>
            rw [hresult] at hraw
            have hfinish := hraw.tells (f := finishProcessCycle w) fun _ => finishProcessCycle_tells hclosed
            cases result with
            | ok _ => exact hfinish
            | error message =>
                exact ⟨hfinish.world, hfinish.emitted.trans (List.prefix_append _ _), hfinish.fixed⟩

end Closed

theorem pendingUnlinks_foldl_emitAllowed (out : List Event) (self : Watcher σ) :
    (out.foldl emitAllowed self).state.pendingUnlinks = self.state.pendingUnlinks := by
  induction out generalizing self with
  | nil => rfl
  | cons event out ih =>
      rw [List.foldl_cons, ih]
      unfold emitAllowed allowEvent
      split_ifs <;> rfl

/-! ## How long an `Unlink` is pending -/

theorem finishProcessCycle_late {due : UInt64} {late : σ → Prop} (hlate : w.Late due late)
    (h : late self.world) :
    ∀ pending ∈ (self.finishProcessCycle w).state.pendingUnlinks,
      due < pending.createdAt + millisToUInt64
        (atomicWindowMillis (self.finishProcessCycle w).state.options.atomicOption) := by
  have hready := (flushedWrites_tells hlate.toClosed ⟨h, List.prefix_rfl, rfl⟩).world
  unfold finishProcessCycle
  dsimp only
  generalize (self.flushStableWrites w).1.foldl (dispatchReadyEvent w) (self.flushStableWrites w).2 =
    mid at hready ⊢
  intro pending hpending
  have hkept : (mid.flushExpiredPendingUnlinks w).2.state.options = mid.state.options := rfl
  have hoptions : ((mid.flushExpiredPendingUnlinks w).1.foldl emitAllowed
      (mid.flushExpiredPendingUnlinks w).2).clearThrottles.state.options = mid.state.options :=
    (Kept.foldl_emitAllowed (mid.flushExpiredPendingUnlinks w).1 _).options.trans hkept
  rw [hoptions]
  change pending ∈ ((mid.flushExpiredPendingUnlinks w).1.foldl emitAllowed
    (mid.flushExpiredPendingUnlinks w).2).state.pendingUnlinks at hpending
  rw [pendingUnlinks_foldl_emitAllowed] at hpending
  exact (flushExpired_late hlate hready).2 pending hpending

/-- After a cycle of any watcher, in a world in which it is late, the `Unlink`s that are still
pending are those whose window ends later: none is kept back for longer than its window. -/
theorem process_late {due : UInt64} {late : σ → Prop} (hlate : w.Late due late) (self : Watcher σ)
    (hopen : self.state.closed = false) (h : late self.world) :
    ∀ pending ∈ (self.process w).2.state.pendingUnlinks,
      due < pending.createdAt + millisToUInt64
        (atomicWindowMillis (self.process w).2.state.options.atomicOption) := by
  have hdrain := hlate.backendDrainEvents self.world h
  unfold process
  rw [hopen, if_neg Bool.false_ne_true]
  cases hworld : w.backendDrainEvents self.world with
  | mk rawEvents world =>
      rw [hworld] at hdrain
      have hstart : Stays late self.emitted self.unmoved.fixed { self with world := world } :=
        ⟨hdrain, List.prefix_rfl, rfl⟩
      have hraw := (processRawEvents_stays hlate.toClosed hstart rawEvents).world
      dsimp only
      cases hresult : { self with world := world }.processRawEvents w rawEvents with
      | mk result later =>
          rw [hresult] at hraw
          have hfinish := finishProcessCycle_late hlate hraw
          cases result with
          | ok _ => exact hfinish
          | error message => exact hfinish

/-- `vanishing` with a clock that stands still. -/
def stopped : World Nat := { vanishing with now := fun n => (500, n + 1) }

theorem late_stopped : stopped.Late 500 fun _ => True where
  now _ _ := trivial
  scanSnapshot _ _ _ _ := trivial
  statForPath _ _ _ _ := trivial
  backendDrainEvents _ _ := trivial
  passed _ _ := UInt64.le_refl 500

/-- The file has gone in the second cycle, and its `Unlink` waits. -/
theorem process_late_stopped :
    let before := ((watch stopped ["/r"] polling 0).2.process stopped).2
    ((before.process stopped).2.state.pendingUnlinks.map (·.event.path)) = ["/r/a"] ∧
      ∀ pending ∈ (before.process stopped).2.state.pendingUnlinks, 500 < pending.createdAt + 100 := by
  intro before
  have hopen : before.state.closed = false := by decide +kernel
  have hwindow : millisToUInt64
      (atomicWindowMillis (before.process stopped).2.state.options.atomicOption) = 100 := by
    decide +kernel
  have hlate := process_late late_stopped before hopen trivial
  rw [hwindow] at hlate
  exact ⟨by decide +kernel, hlate⟩

end Watcher

end Mulp.Chokidar
