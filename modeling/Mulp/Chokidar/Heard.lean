import Mulp.Chokidar.Apart

/-! What the listeners of a watcher have heard of a path, and what its scans have found
there.

The listeners hear of the files in an order that is not that of the changes: under
`atomic` an `Unlink` is held back, and dropped if the file comes again within its
window, and a change is told once a cycle. So what they have heard is compared, at each
moment, with the entry of the last snapshot, up to what is still pending. -/
namespace Mulp.Chokidar

open Keyed

/-- What has been heard of a file agrees with what is there: it is the same, or at least both say
that the file is there or both that it is not. Only a watcher that polls is told of every change of
the stats in its snapshots; with a backend a scan comes after the event that has told of the change,
and the stats told may be those of before. -/
def Agrees (exact : Bool) (heard there : Option (Option FileStats)) : Prop :=
  if exact then heard = there else heard.isSome = there.isSome

theorem Agrees.refl (exact : Bool) (heard : Option (Option FileStats)) : Agrees exact heard heard := by
  cases exact <;> rfl

theorem Agrees.symm {exact : Bool} {heard there : Option (Option FileStats)}
    (h : Agrees exact heard there) : Agrees exact there heard := by
  cases exact with
  | true => exact Eq.symm h
  | false => exact Eq.symm h

theorem Agrees.trans {exact : Bool} {heard there other : Option (Option FileStats)}
    (h : Agrees exact heard there) (h' : Agrees exact there other) : Agrees exact heard other := by
  cases exact with
  | true => exact Eq.trans h h'
  | false => exact Eq.trans h h'

theorem Agrees.isSome {exact : Bool} {heard there : Option (Option FileStats)}
    (h : Agrees exact heard there) : heard.isSome = there.isSome := by
  cases exact with
  | true => exact congrArg Option.isSome h
  | false => exact h

namespace Watcher

variable {σ : Type} {w : World σ} {p : String}

/-- What has been heard of the path: what a listener knows after all events that have been emitted,
if it knew `base` before. -/
def heard (base : Files) (p : String) (self : Watcher σ) (dir : Bool) : Option (Option FileStats) :=
  learn base self.emitted ⟨p, dir⟩

/-- The listeners know what is at the path, except that an `Unlink` of it may still be pending. A
directory is never held back, so of that they know exactly what is there. An `Unlink` is held back
only under `atomic`, one for each path; while it is, nothing is at the path any more and the
listeners still think that there is: when the file comes again, either the `Unlink` goes out first
or what comes is told as a change, and both lead back to the first case. -/
structure Settled (exact : Bool) (base : Files) (p : String) (there : Bool → Option (Option FileStats))
    (watcher : Watcher σ) : Prop where
  dir : watcher.heard base p true = there true
  file : (watcher.pendingOf p = [] ∧ Agrees exact (watcher.heard base p false) (there false)) ∨
    ∃ pending, watcher.pendingOf p = [pending] ∧ pending.event.name = .unlink ∧
      watcher.state.options.atomicOption ≠ .atomicOff ∧
      (watcher.heard base p false).isSome = true ∧ there false = none

/-- The watcher tells its listeners of the path: it is open, and the path is neither ignored, nor
held back until a write is over, nor, under `atomic`, taken for the swap file of an editor. Each of
these would make a difference that the listeners never hear of, and none of them changes while the
watcher is open. -/
structure Heeds (p : String) (watcher : Watcher σ) : Prop where
  notClosed : watcher.state.closed = false
  notIgnored : ∀ stats, isIgnored p stats watcher.state.options.ignored = false
  notAwaited : watcher.state.options.awaitWriteFinish = .awaitWriteFinishOff
  notSwap : watcher.state.options.atomicOption = .atomicOff ∨ isDotSwapFile p = false

variable {self later : Watcher σ} {exact : Bool} {base : Files}
  {there there' : Bool → Option (Option FileStats)} {event : Event}

theorem Settled.apart (h : Settled exact base p there self) (hapart : Apart p self later) :
    Settled exact base p there later := by
  have hheard (dir : Bool) : later.heard base p dir = self.heard base p dir := hapart.known base dir
  refine ⟨(hheard true).trans h.dir, ?_⟩
  rw [hapart.unlinks, hheard, hapart.kept.options]
  exact h.file

theorem Heeds.congr (h : Heeds p self) (hoptions : later.state.options = self.state.options)
    (hclosed : later.state.closed = self.state.closed) : Heeds p later := by
  refine ⟨hclosed.trans h.notClosed, ?_, ?_, ?_⟩ <;> rw [hoptions]
  · exact h.notIgnored
  · exact h.notAwaited
  · exact h.notSwap

theorem Heeds.apart (h : Heeds p self) (hapart : Apart p self later) : Heeds p later :=
  h.congr hapart.kept.options hapart.kept.closed

/-! ## One event about the path -/

theorem emitAllowed_of_ne (h : event.name ≠ .change) : self.emitAllowed event = self.emit event := by
  simp [emitAllowed, allowEvent, h]

theorem heard_emit {edit : Patch.Edit Slot (Option FileStats)} (h : event.edit? = some edit)
    (dir : Bool) : (self.emit event).heard base p dir =
      if edit.key = ⟨p, dir⟩ then edit.value else self.heard base p dir := by
  show learn base (self.emitted ++ [event]) ⟨p, dir⟩ = _
  rw [learn_append, learn_singleton h]
  split_ifs with hkey
  · exact Patch.apply_of_eq hkey
  · exact Patch.apply_of_ne hkey

theorem heard_put (hname : event.name = .add ∨ event.name = .change) (hpath : event.path = p)
    (dir : Bool) :
    (self.emit event).heard base p dir = if dir then self.heard base p true else some event.stats := by
  have hedit : event.edit? = some (.put ⟨event.path, false⟩ event.stats) := by
    rcases hname with hname | hname <;> rw [Event.edit?, hname]
  rw [heard_emit hedit, hpath]
  cases dir <;> simp [Patch.Edit.key, Patch.Edit.value]

theorem heard_unlink (hname : event.name = .unlink) (hpath : event.path = p) (dir : Bool) :
    (self.emit event).heard base p dir = if dir then self.heard base p true else none := by
  have hedit : event.edit? = some (.drop ⟨event.path, false⟩) := by
    rw [Event.edit?, hname]
  rw [heard_emit hedit, hpath]
  cases dir <;> simp [Patch.Edit.key, Patch.Edit.value]

theorem heard_addDir (hname : event.name = .addDir) (hpath : event.path = p) (dir : Bool) :
    (self.emit event).heard base p dir = if dir then some none else self.heard base p false := by
  have hedit : event.edit? = some (.put ⟨event.path, true⟩ none) := by
    rw [Event.edit?, hname]
  rw [heard_emit hedit, hpath]
  cases dir <;> simp [Patch.Edit.key, Patch.Edit.value]

theorem heard_unlinkDir (hname : event.name = .unlinkDir) (hpath : event.path = p) (dir : Bool) :
    (self.emit event).heard base p dir = if dir then none else self.heard base p false := by
  have hedit : event.edit? = some (.drop ⟨event.path, true⟩) := by
    rw [Event.edit?, hname]
  rw [heard_emit hedit, hpath]
  cases dir <;> simp [Patch.Edit.key, Patch.Edit.value]

/-- An event that is neither the end nor the start of a file is emitted as it is. -/
theorem dispatchReadyEvent_other (hunlink : event.name ≠ .unlink) (hadd : event.name ≠ .add) :
    self.dispatchReadyEvent w event = self.emitAllowed event := by
  unfold dispatchReadyEvent normalizeAtomic
  cases self.state.options.atomicOption <;> simp [hunlink, hadd]

theorem Settled.addDir (h : Settled exact base p there self) (hname : event.name = .addDir)
    (hpath : event.path = p) (htrue : there' true = some none) (hfalse : there' false = there false) :
    Settled exact base p there' (self.dispatchReadyEvent w event) := by
  rw [dispatchReadyEvent_other (by simp [hname]) (by simp [hname]), emitAllowed_of_ne (by simp [hname])]
  refine ⟨?_, ?_⟩
  · rw [heard_addDir hname hpath, htrue]
    rfl
  · rw [heard_addDir hname hpath, hfalse]
    exact h.file

theorem Settled.unlinkDir (h : Settled exact base p there self) (hname : event.name = .unlinkDir)
    (hpath : event.path = p) (htrue : there' true = none) (hfalse : there' false = there false) :
    Settled exact base p there' (self.dispatchReadyEvent w event) := by
  rw [dispatchReadyEvent_other (by simp [hname]) (by simp [hname]), emitAllowed_of_ne (by simp [hname])]
  refine ⟨?_, ?_⟩
  · rw [heard_unlinkDir hname hpath, htrue]
    rfl
  · rw [heard_unlinkDir hname hpath, hfalse]
    exact h.file

/-- A `Change` is told unless there has been one in the same cycle. -/
theorem heard_emitAllowed_change (hname : event.name = .change) (hpath : event.path = p)
    (hsome : (self.heard base p false).isSome = true)
    (hthrottle : exact = true → p ∉ self.state.throttledChanges) :
    (self.emitAllowed event).heard base p true = self.heard base p true ∧
      Agrees exact ((self.emitAllowed event).heard base p false) (some event.stats) ∧
      (self.emitAllowed event).pendingOf p = self.pendingOf p ∧
      (self.emitAllowed event).state.options = self.state.options := by
  by_cases hmem : p ∈ self.state.throttledChanges
  · have hsame : self.emitAllowed event = self := by
      simp [emitAllowed, allowEvent, hname, hpath, hmem]
    have hfalse : exact = false := Bool.eq_false_iff.mpr fun h => hthrottle h hmem
    rw [hsame, hfalse]
    exact ⟨rfl, by rw [Agrees, if_neg Bool.false_ne_true, hsome]; rfl, rfl, rfl⟩
  · have hemit : self.emitAllowed event = { self with
        state := { self.state with throttledChanges := self.state.throttledChanges ++ [p] } }.emit
          event := by
      simp [emitAllowed, allowEvent, hname, hpath, hmem]
    rw [hemit, heard_put (.inr hname) hpath, heard_put (.inr hname) hpath]
    exact ⟨rfl, Agrees.refl exact _, rfl, rfl⟩

theorem Settled.change (h : Settled exact base p there self) (hname : event.name = .change)
    (hpath : event.path = p) (hsome : (there false).isSome = true)
    (hthrottle : exact = true → p ∉ self.state.throttledChanges)
    (htrue : there' true = there true) (hfalse : there' false = some event.stats) :
    Settled exact base p there' (self.dispatchReadyEvent w event) := by
  rcases h.file with ⟨hnone, hagrees⟩ | ⟨_, _, _, _, _, hgone⟩
  · rw [dispatchReadyEvent_other (by simp [hname]) (by simp [hname])]
    obtain ⟨hdir, hfile, hpending, -⟩ :=
      heard_emitAllowed_change hname hpath (hagrees.isSome.trans hsome) hthrottle
    exact ⟨by rw [hdir, htrue, h.dir], .inl ⟨hpending.trans hnone, by rw [hfalse]; exact hfile⟩⟩
  · rw [hgone] at hsome
    cases hsome

theorem dispatchReadyEvent_eq {out : List Event} (hout : (self.normalizeAtomic w event).1 = out)
    (hlater : (self.normalizeAtomic w event).2 = later) :
    self.dispatchReadyEvent w event = out.foldl emitAllowed later := by
  rw [← hout, ← hlater]
  rfl

theorem pendingOf_concat (h : self.pendingOf p = []) {entry : PendingTimedEvent}
    (hentry : entry.event.path = p) :
    (self.state.pendingUnlinks ++ [entry]).filter (·.event.path = p) = [entry] := by
  rw [pendingOf] at h
  rw [List.filter_append, h, List.filter_cons_of_pos (by simpa using hentry)]
  rfl

theorem Settled.unlink (h : Settled exact base p there self) (hname : event.name = .unlink)
    (hpath : event.path = p) (hsome : (there false).isSome = true)
    (hswap : self.state.options.atomicOption = .atomicOff ∨ isDotSwapFile p = false)
    (htrue : there' true = there true) (hfalse : there' false = none) :
    Settled exact base p there' (self.dispatchReadyEvent w event) := by
  rcases h.file with ⟨hnone, hagrees⟩ | ⟨_, _, _, _, _, hgone⟩
  · have hcases := atomic_normalizeAtomic w self event
    rw [dispatchReadyEvent_eq rfl rfl]
    generalize (self.normalizeAtomic w event).1 = out at hcases ⊢
    generalize (self.normalizeAtomic w event).2 = later at hcases ⊢
    cases hcases with
    | passes hpasses =>
        rw [List.foldl_cons, List.foldl_nil, emitAllowed_of_ne (by simp [hname])]
        refine ⟨?_, .inl ⟨hnone, ?_⟩⟩
        · rw [heard_unlink hname hpath, htrue]
          exact h.dir
        · rw [heard_unlink hname hpath, hfalse]
          exact Agrees.refl exact none
    | swapFile hatomic _ hdot =>
        rw [hpath] at hdot
        rcases hswap with hoff | hnot
        · exact absurd hoff hatomic
        · rw [hnot] at hdot
          cases hdot
    | waits hatomic _ _ =>
        exact ⟨h.dir.trans htrue.symm, .inr ⟨⟨event, (w.now self.world).1⟩,
          pendingOf_concat hnone hpath, hname, hatomic, hagrees.isSome.trans hsome, hfalse⟩⟩
    | replaces _ _ hadd _ _ =>
        rw [hname] at hadd
        cases hadd
  · rw [hgone] at hsome
    cases hsome

theorem Settled.add (h : Settled exact base p there self) (hname : event.name = .add)
    (hpath : event.path = p)
    (hthrottle : exact = true → p ∉ self.state.throttledChanges)
    (htrue : there' true = there true) (hfalse : there' false = some event.stats) :
    Settled exact base p there' (self.dispatchReadyEvent w event) := by
  have hcases := atomic_normalizeAtomic w self event
  rw [dispatchReadyEvent_eq rfl rfl]
  generalize (self.normalizeAtomic w event).1 = out at hcases ⊢
  generalize (self.normalizeAtomic w event).2 = later at hcases ⊢
  cases hcases with
  | passes hpasses =>
      have hnone : self.pendingOf p = [] := by
        rcases h.file with ⟨hnone, -⟩ | ⟨pending, hpending, -, hatomic, -⟩
        · exact hnone
        · -- a pending `Unlink` would not have let the `Add` pass
          rcases hpasses with hoff | ⟨-, hlookup⟩
          · exact absurd hoff hatomic
          · have hhead := hlookup hname
            rw [hpath, lookup_eq_head?] at hhead
            rw [pendingOf] at hpending
            rw [hpending] at hhead
            cases hhead
      rw [List.foldl_cons, List.foldl_nil, emitAllowed_of_ne (by simp [hname])]
      refine ⟨?_, .inl ⟨hnone, ?_⟩⟩
      · rw [heard_put (.inl hname) hpath, htrue]
        exact h.dir
      · rw [heard_put (.inl hname) hpath, hfalse]
        exact Agrees.refl exact _
  | swapFile _ hunlink _ =>
      rw [hname] at hunlink
      cases hunlink
  | waits _ hunlink _ =>
      rw [hname] at hunlink
      cases hunlink
  | @replaces pending out world hatomic _ hlookup hout =>
      rw [hpath, lookup_eq_head?] at hlookup
      rcases h.file with ⟨hnone, -⟩ | ⟨other, hpending, hunlink, -, hheard, -⟩
      · rw [pendingOf] at hnone
        rw [hnone] at hlookup
        cases hlookup
      · have hother : other = pending := by
          rw [pendingOf] at hpending
          rw [hpending] at hlookup
          exact Option.some.inj hlookup
        have hof : pending.event.path = p := by
          have hmem : pending ∈ self.pendingOf p := by
            rw [hpending, hother]
            exact List.mem_cons_self
          simpa using (List.mem_filter.mp hmem).2
        have hleft : (remove (·.event.path) event.path self.state.pendingUnlinks).filter
            (·.event.path = p) = [] := by
          rw [hpath, filter_remove_self]
          rw [pendingOf] at hpending
          rw [hpending]
          rfl
        rw [hother] at hunlink
        rcases hout with rfl | rfl
        · -- the `Unlink` has expired: it comes first
          have hfirst : pending.event.name ≠ .change := by
            rw [hunlink]
            decide
          have hsecond : event.name ≠ .change := by
            rw [hname]
            decide
          rw [List.foldl_cons, List.foldl_cons, List.foldl_nil, emitAllowed_of_ne hfirst,
            emitAllowed_of_ne hsecond]
          refine ⟨?_, .inl ⟨hleft, ?_⟩⟩
          · rw [heard_put (.inl hname) hpath, heard_unlink hunlink hof, htrue]
            exact h.dir
          · rw [heard_put (.inl hname) hpath, hfalse]
            exact Agrees.refl exact _
        · rw [List.foldl_cons, List.foldl_nil]
          obtain ⟨hdir, hfile, hpendingOf, -⟩ := @heard_emitAllowed_change _ _
            { self.setPendingUnlinks (remove (·.event.path) event.path self.state.pendingUnlinks) with
              world := world } exact base { event with name := .change } rfl hpath hheard hthrottle
          refine ⟨?_, .inl ⟨hpendingOf.trans hleft, ?_⟩⟩
          · rw [hdir, htrue]
            exact h.dir
          · rw [hfalse]
            exact hfile

/-! ## The events of a scan -/

theorem emitEvent_heeds (h : Heeds p self) (hpath : event.path = p)
    (hstats : event.stats.isSome = true ∨ event.name = .unlink ∨ event.name = .unlinkDir) :
    self.emitEvent w event = self.dispatchReadyEvent w event := by
  have hnotAsked : (self.state.options.alwaysStat && event.stats.isNone &&
      (event.name = .add || event.name = .addDir || event.name = .change)) = false := by
    rcases hstats with hsome | hname | hname
    · simp [Option.isNone_eq_false_iff.mpr hsome]
    · simp [hname]
    · simp [hname]
  have hwith : self.withStats w event = (some event, self) := by
    rw [withStats, hnotAsked]
    rfl
  rw [emitEvent_eq w h.notAwaited, h.notClosed, hpath, h.notIgnored, hwith]
  rfl

theorem Heeds.emitEvent (h : Heeds p self) (w : World σ) (event : Event) :
    Heeds p (self.emitEvent w event) :=
  have hkept := Kept.emitEvent w h.notAwaited event
  h.congr hkept.options hkept.closed

theorem foldl_emitAllowed_throttled {out : List Event} (h : ∀ event ∈ out, event.name ≠ .change)
    (self : Watcher σ) :
    (out.foldl emitAllowed self).state.throttledChanges = self.state.throttledChanges := by
  induction out generalizing self with
  | nil => rfl
  | cons event out ih =>
      rw [List.foldl_cons, ih (fun other hother => h other (List.mem_cons_of_mem event hother)),
        emitAllowed_of_ne (h event List.mem_cons_self)]
      rfl

/-- The end of a file or a directory is not throttled and throttles nothing. -/
theorem dispatchReadyEvent_throttled (hname : event.name = .unlink ∨ event.name = .unlinkDir) :
    (self.dispatchReadyEvent w event).state.throttledChanges = self.state.throttledChanges := by
  have hchange : event.name ≠ .change := by
    rcases hname with hname | hname <;> rw [hname] <;> decide
  have hadd : event.name ≠ .add := by
    rcases hname with hname | hname <;> rw [hname] <;> decide
  have hcases := atomic_normalizeAtomic w self event
  rw [dispatchReadyEvent_eq rfl rfl]
  generalize (self.normalizeAtomic w event).1 = out at hcases ⊢
  generalize (self.normalizeAtomic w event).2 = later at hcases ⊢
  cases hcases with
  | passes _ => exact foldl_emitAllowed_throttled (by simpa using hchange) self
  | swapFile _ _ _ => rfl
  | waits _ _ _ => rfl
  | replaces _ _ hname _ _ => exact absurd hname hadd

/-- What an entry puts in the slots of its path. -/
def fillsOf (found : Option SnapshotEntry) (dir : Bool) : Option (Option FileStats) :=
  found.bind fun entry => entry.fills dir

section Entry

variable {entry old new : SnapshotEntry}

theorem Settled.tellAdded (h : Settled exact base p (fillsOf none) self) (hheeds : Heeds p self)
    (hstats : entry.stats.isSome = true) (hthrottle : exact = true → p ∉ self.state.throttledChanges) :
    Settled exact base p (fillsOf (some entry)) (self.emitEvent w ((added entry).setPath p)) := by
  by_cases hkind : entry.kind = .directory
  · have hname : (added entry).name = .addDir := by
      rw [added, hkind]
      rfl
    have hsome : (added entry).stats = entry.stats := by
      rw [added, hkind]
      rfl
    rw [emitEvent_heeds hheeds rfl (.inl (by rw [Event.stats_setPath, hsome]; exact hstats))]
    exact h.addDir hname rfl (by simp [fillsOf, SnapshotEntry.fills, hkind])
      (by simp [fillsOf, SnapshotEntry.fills, hkind])
  · have hadded : (added entry).name = .add ∧ (added entry).stats = entry.stats := by
      cases hentry : entry.kind <;>
        simp_all [added, eventFromEntry, eventNameForAdd]
    obtain ⟨hname, hsome⟩ := hadded
    rw [emitEvent_heeds hheeds rfl (.inl (by rw [Event.stats_setPath, hsome]; exact hstats))]
    exact h.add hname rfl hthrottle (by simp [fillsOf, SnapshotEntry.fills, hkind])
      (by simp [fillsOf, SnapshotEntry.fills, hkind, hsome])

theorem name_removed (entry : SnapshotEntry) :
    (removed entry).name = if entry.kind = .directory then .unlinkDir else .unlink := by
  cases hentry : entry.kind <;> simp [removed, eventFromEntry, eventNameForUnlink, hentry]

theorem Settled.tellRemoved (h : Settled exact base p (fillsOf (some entry)) self) (hheeds : Heeds p self) :
    Settled exact base p (fillsOf none) (self.emitEvent w ((removed entry).setPath p)) ∧
      (self.emitEvent w ((removed entry).setPath p)).state.throttledChanges =
        self.state.throttledChanges := by
  have hname : ((removed entry).setPath p).name = _ := name_removed entry
  by_cases hkind : entry.kind = .directory
  · rw [if_pos hkind] at hname
    rw [emitEvent_heeds hheeds rfl (.inr (.inr hname))]
    exact ⟨h.unlinkDir hname rfl rfl (by simp [fillsOf, SnapshotEntry.fills, hkind]),
      dispatchReadyEvent_throttled (.inr hname)⟩
  · rw [if_neg hkind] at hname
    rw [emitEvent_heeds hheeds rfl (.inr (.inl hname))]
    exact ⟨h.unlink hname rfl (by simp [fillsOf, SnapshotEntry.fills, hkind]) hheeds.notSwap
      (by simp [fillsOf, SnapshotEntry.fills, hkind]) rfl, dispatchReadyEvent_throttled (.inl hname)⟩

theorem Settled.tellChanged (h : Settled exact base p (fillsOf (some old)) self) (hheeds : Heeds p self)
    (hold : old.kind ≠ .directory) (hnew : new.kind ≠ .directory)
    (hstats : new.stats.isSome = true) (hthrottle : exact = true → p ∉ self.state.throttledChanges) :
    Settled exact base p (fillsOf (some new))
      (self.emitEvent w ((eventFromEntry .change new).setPath p)) := by
  rw [emitEvent_heeds hheeds rfl (.inl hstats)]
  exact h.change rfl rfl (by simp [fillsOf, SnapshotEntry.fills, hold]) hthrottle
    (by simp [fillsOf, SnapshotEntry.fills, hold, hnew])
    (by simp [fillsOf, SnapshotEntry.fills, hnew, eventFromEntry])

end Entry

/-- All but the remaining events have been told of what has become of the path. The events of one
path are those of a transition from the old entry to the new one, of which there are at most two,
and between the two nothing is there; so at each point there is an entry, `now`, that the listeners
know, and what remains is the transition from it. A change must not be throttled yet where the stats
have to be exact, or it would be dropped for good. -/
structure Underway (exact : Bool) (base : Files) (p : String) (now new : Option SnapshotEntry)
    (remaining : List Event) (watcher : Watcher σ) : Prop where
  remaining_eq : remaining = transition now new
  settled : Settled exact base p (fillsOf now) watcher
  throttle : exact = true → remaining ≠ [] → p ∉ watcher.state.throttledChanges
  heeds : Heeds p watcher

/-- An event of a transition brings the listeners one step on. -/
theorem Underway.emitEvent {now new : Option SnapshotEntry} {event : Event} {rest : List Event}
    (h : Underway exact base p now new (event :: rest) self)
    (hstats : ∀ entry ∈ new, entry.stats.isSome = true) :
    ∃ next, Underway exact base p next new rest (self.emitEvent w (event.setPath p)) := by
  have hheeds := h.heeds.emitEvent w (event.setPath p)
  have hthrottle : exact = true → p ∉ self.state.throttledChanges := fun hexact =>
    h.throttle hexact (by simp)
  have hsettled := h.settled
  have heq := h.remaining_eq
  unfold transition at heq
  cases now with
  | none =>
      cases new with
      | none => cases heq
      | some new =>
          obtain ⟨rfl, rfl⟩ := List.cons.inj heq
          exact ⟨some new, (transition_self new).symm,
            hsettled.tellAdded h.heeds (hstats new rfl) hthrottle, fun _ hne => absurd rfl hne, hheeds⟩
  | some old =>
      cases new with
      | none =>
          obtain ⟨rfl, rfl⟩ := List.cons.inj heq
          exact ⟨none, rfl, (hsettled.tellRemoved h.heeds).1, fun _ hne => absurd rfl hne, hheeds⟩
      | some new =>
          dsimp only at heq
          split_ifs at heq with hkind hchange
          · obtain ⟨rfl, rfl⟩ := List.cons.inj heq
            obtain ⟨hremoved, hsame⟩ := @Settled.tellRemoved _ w _ _ _ _ _ hsettled h.heeds
            refine ⟨none, rfl, hremoved, fun hexact _ => ?_, hheeds⟩
            rw [hsame]
            exact hthrottle hexact
          · obtain ⟨rfl, rfl⟩ := List.cons.inj heq
            rw [not_ne_iff] at hkind
            exact ⟨some new, (transition_self new).symm,
              hsettled.tellChanged h.heeds (by rw [← hkind]; exact hchange.1) hchange.1 (hstats new rfl)
                hthrottle,
              fun _ hne => absurd rfl hne, hheeds⟩

end Watcher

end Mulp.Chokidar
