import Mulp.Lib.KeyedDiff
import Mulp.Platform.Sliced

/-! Watching the paths that globs select (`platform/glob.mbt`).

Whether a path is selected is found out with slices of the path and of the patterns,
any of which can abort; there is no result then. Of the paths that are selected it is
known that `paths_equal` returns, so they can be compared by their keys. -/
namespace Mulp.Platform

open Keyed Mulp.Text

/-! ## Globs -/

namespace Sliced

def containsPathOn (platform : PlatformKind) (path : String) : List String → Option Bool
  | [] => some false
  | item :: items => do
      let equal ← pathsEqual platform item path
      if equal then some true else containsPathOn platform path items

def globMatchesOn (platform : PlatformKind) (pattern path : String) : Option Bool :=
  match platform with
  | .linux => globMatches pattern path
  | .macOS => do
      let pattern ← lowerAscii pattern
      let path ← lowerAscii path
      globMatches pattern path
  | .windows => do
      let pattern ← lowerAscii pattern
      let path ← lowerAscii path
      globMatches pattern path

def pathMatchesAnyOn (platform : PlatformKind) (path : String) : List String → Option Bool
  | [] => some false
  | pattern :: patterns => do
      let pattern ← normalizePlatformPath platform pattern
      let matched ← globMatchesOn platform pattern path
      if matched then some true else pathMatchesAnyOn platform path patterns

/-- The first two conditions of `expand_globs_on` on the normal form of a path. -/
def matchesGlobs (platform : PlatformKind) (includes excludes : List String) (path : String) :
    Option Bool := do
  let included ← pathMatchesAnyOn platform path includes
  if included then
    let excluded ← pathMatchesAnyOn platform path excludes
    some (!excluded)
  else some false

/-- The loop of `expand_globs_on`. -/
def expandGlobsFrom (platform : PlatformKind) (includes excludes found : List String) :
    List String → Option (List String)
  | [] => some found
  | path :: paths => do
      let path ← normalizePlatformPath platform path
      let matched ← matchesGlobs platform includes excludes path
      if matched then
        let known ← containsPathOn platform path found
        expandGlobsFrom platform includes excludes (if !known then found ++ [path] else found) paths
      else expandGlobsFrom platform includes excludes found paths

def expandGlobsOn (platform : PlatformKind) (paths includes excludes : List String) :
    Option (List String) :=
  expandGlobsFrom platform includes excludes [] paths

/-- The loops of `poll` over the new paths and over the old ones: those that are not in
`paths`. -/
def missing (platform : PlatformKind) (paths : List String) : List String → Option (List String)
  | [] => some []
  | path :: rest => do
      let known ← containsPathOn platform path paths
      let others ← missing platform paths rest
      some (if !known then path :: others else others)

end Sliced

/-! ## `GlobWatch` -/

abbrev GlobWatchEvent := Change String

structure GlobWatch where
  platform : PlatformKind
  includes : List String
  excludes : List String
  paths : List String

def watchGlobsOn (platform : PlatformKind) (paths includes excludes : List String) :
    Option GlobWatch := do
  let paths ← Sliced.expandGlobsOn platform paths includes excludes
  some ⟨platform, includes, excludes, paths⟩

namespace GlobWatch

def poll (self : GlobWatch) (paths : List String) : Option (List GlobWatchEvent × GlobWatch) := do
  let next ← Sliced.expandGlobsOn self.platform paths self.includes self.excludes
  let added ← Sliced.missing self.platform self.paths next
  let removed ← Sliced.missing self.platform next self.paths
  some (added.map .added ++ removed.map .removed, { self with paths := next })

/-- The events of successive polls, and the watch after them. -/
def polls (self : GlobWatch) : List (List String) → Option (List GlobWatchEvent × GlobWatch)
  | [] => some ([], self)
  | paths :: lists => do
      let (events, self) ← self.poll paths
      let (more, self) ← self.polls lists
      some (events ++ more, self)

end GlobWatch

/-! ## What the events say -/

/-- Whether the globs select a path: some include matches its normal form, and no
exclude. -/
def selects (platform : PlatformKind) (includes excludes : List String) (path : String) :
    Option Bool := do
  let path ← Sliced.normalizePlatformPath platform path
  Sliced.matchesGlobs platform includes excludes path

/-- The paths of a list that are selected, each as often as it is in the list. It is what the
snapshot is compared with, which has each path once. -/
def selection (platform : PlatformKind) (includes excludes paths : List String) : List String :=
  paths.filter fun path => selects platform includes excludes path = some true

/-- `contains_path_on`, where no slice aborts. -/
def containsPathOn (platform : PlatformKind) (paths : List String) (path : String) : Bool :=
  paths.any fun item => pathsEqual platform item path

/-- The lists have the same paths, as `paths_equal` compares them. One may have a path in another
spelling, and more than once. -/
def SamePaths (platform : PlatformKind) (left right : List String) : Prop :=
  (∀ path ∈ left, containsPathOn platform right path = true) ∧
    ∀ path ∈ right, containsPathOn platform left path = true

def NoEqualPaths (platform : PlatformKind) (paths : List String) : Prop :=
  paths.Pairwise fun left right => pathsEqual platform left right = false

/-- The events of a poll are the differences of the two snapshots, in both directions, each told
once. Their order is left open, as the list of paths may come in any order. -/
structure Tells (watch next : GlobWatch) (events : List GlobWatchEvent) : Prop where
  /-- One event for each path that is new, -/
  added : ∀ path, events.count (.added path) =
    if path ∈ next.paths ∧ (!containsPathOn watch.platform watch.paths path) = true then 1 else 0
  /-- one for each path that is gone, -/
  removed : ∀ path, events.count (.removed path) =
    if path ∈ watch.paths ∧ (!containsPathOn watch.platform next.paths path) = true then 1 else 0
  /-- and no two for one path. -/
  separate : NoEqualPaths watch.platform (events.map Change.value)

/-- What is to hold of the watch that was made as `start` and polled with the lists
`before`, where the polls have told `events`. -/
structure ReportsExactly (platform : PlatformKind) (includes excludes initial : List String)
    (start : GlobWatch) (before : List (List String)) (events : List GlobWatchEvent)
    (watch : GlobWatch) : Prop where
  /-- The snapshot has no path twice. -/
  distinct : NoEqualPaths platform watch.paths
  /-- It is the selection of the last list. -/
  selected : SamePaths platform watch.paths
    (selection platform includes excludes (before.getLast?.getD initial))
  /-- The events so far lead to it. -/
  replayed : SamePaths platform (replay (pathKey platform) start.paths events) watch.paths
  /-- Another poll tells the differences, -/
  polled : ∀ paths events next, watch.poll paths = some (events, next) → Tells watch next events
  /-- and nothing if the same paths are selected. -/
  quiet : ∀ paths events next, watch.poll paths = some (events, next) →
    SamePaths platform (selection platform includes excludes paths)
      (selection platform includes excludes (before.getLast?.getD initial)) → events = []

/-- The calls of a run return, and after each of them holds what is to hold: a poll that
aborts leaves no watch of which it could. -/
def WatchesExactly (platform : PlatformKind) (includes excludes initial : List String)
    (lists : List (List String)) : Prop :=
  ∃ start, watchGlobsOn platform initial includes excludes = some start ∧
    ∀ before, before <+: lists → ∃ events watch, start.polls before = some (events, watch) ∧
      ReportsExactly platform includes excludes initial start before events watch

/-! ## Membership by keys -/

section Keys

variable {platform : PlatformKind} {includes excludes paths : List String}

theorem containsPathOn_eq (platform : PlatformKind) (paths : List String) (path : String) :
    containsPathOn platform paths path = has (pathKey platform) paths path := by
  simp only [containsPathOn, has, pathsEqual_eq]

theorem samePaths_iff {left right : List String} :
    SamePaths platform left right ↔ Same (pathKey platform) left right := by
  simp only [SamePaths, containsPathOn_eq, has_iff, Same, List.mem_map]
  constructor
  · intro h key
    obtain ⟨hleft, hright⟩ := h
    constructor
    · intro h
      obtain ⟨path, hpath, hkey⟩ := h
      exact hkey ▸ hleft path hpath
    · intro h
      obtain ⟨path, hpath, hkey⟩ := h
      exact hkey ▸ hright path hpath
  · intro h
    exact ⟨fun path hpath => (h _).mp ⟨path, hpath, rfl⟩, fun path hpath => (h _).mpr
      ⟨path, hpath, rfl⟩⟩

theorem noEqualPaths_iff : NoEqualPaths platform paths ↔ Distinct (pathKey platform) paths := by
  rw [NoEqualPaths, Distinct, List.Nodup, List.pairwise_map]
  simp only [pathsEqual_eq, decide_eq_false_iff_not, Ne]

/-- What drifts is a matter of the key. -/
theorem drifts_congr {path other : String} (h : pathKey platform path = pathKey platform other) :
    drifts platform path = drifts platform other := by
  cases platform with
  | macOS => rfl
  | linux => rfl
  | windows =>
      have hlower : lowerAscii (normalizePlatformPath .windows path) =
          lowerAscii (normalizePlatformPath .windows other) := h
      rw [Bool.eq_iff_iff, drifts_iff, drifts_iff, ← driveLike_lowerAscii, hlower,
        driveLike_lowerAscii]

end Keys

/-! ## The calls that return -/

section Returns

variable {platform : PlatformKind} {includes excludes paths found : List String} {path : String}

/-- `paths_equal` does not abort on the normal form: on Linux it takes no slice. -/
def Comparable (platform : PlatformKind) (path : String) : Prop :=
  match platform with
  | .linux => True
  | .macOS => IsBmp path
  | .windows => IsBmp path

theorem pathsEqual_comparable {left right : String} (hleft : Comparable platform left)
    (hright : Comparable platform right) :
    Sliced.pathsEqual platform left right = some (pathsEqual platform left right) := by
  cases platform with
  | linux => rfl
  | macOS => exact Sliced.pathsEqual_eq hleft hright .macOS
  | windows => exact Sliced.pathsEqual_eq hleft hright .windows

theorem containsPathOn_comparable (hpath : Comparable platform path)
    (h : ∀ item ∈ paths, Comparable platform item) :
    Sliced.containsPathOn platform path paths = some (containsPathOn platform paths path) := by
  induction paths with
  | nil => rfl
  | cons item items ih =>
      rw [List.forall_mem_cons] at h
      rw [Sliced.containsPathOn, pathsEqual_comparable h.1 hpath, containsPathOn, List.any_cons,
        Option.bind_eq_bind, Option.bind_some, ih h.2, containsPathOn]
      cases pathsEqual platform item path <;> rfl

theorem missing_comparable {rest : List String} (h : ∀ item ∈ paths, Comparable platform item)
    (hrest : ∀ path ∈ rest, Comparable platform path) :
    Sliced.missing platform paths rest =
      some (rest.filter fun path => !containsPathOn platform paths path) := by
  induction rest with
  | nil => rfl
  | cons path rest ih =>
      rw [List.forall_mem_cons] at hrest
      rw [Sliced.missing, containsPathOn_comparable hrest.1 h, ih hrest.2, List.filter_cons]
      cases containsPathOn platform paths path <;> rfl

/-- A path that has been matched has been put in lower case, where that is done. -/
theorem comparable_of_globMatchesOn {pattern : String} {matched : Bool}
    (h : Sliced.globMatchesOn platform pattern path = some matched) : Comparable platform path := by
  cases platform with
  | linux => trivial
  | macOS =>
      obtain ⟨_, -, h⟩ := Option.bind_eq_some_iff.mp h
      obtain ⟨_, hpath, -⟩ := Option.bind_eq_some_iff.mp h
      exact Sliced.isBmp_of_lowerAscii hpath
  | windows =>
      obtain ⟨_, -, h⟩ := Option.bind_eq_some_iff.mp h
      obtain ⟨_, hpath, -⟩ := Option.bind_eq_some_iff.mp h
      exact Sliced.isBmp_of_lowerAscii hpath

theorem comparable_of_pathMatchesAnyOn
    (h : Sliced.pathMatchesAnyOn platform path includes = some true) :
    Comparable platform path := by
  cases includes with
  | nil => cases h
  | cons pattern patterns =>
      obtain ⟨_, -, h⟩ := Option.bind_eq_some_iff.mp h
      obtain ⟨_, hmatched, -⟩ := Option.bind_eq_some_iff.mp h
      exact comparable_of_globMatchesOn hmatched

theorem comparable_of_matchesGlobs
    (h : Sliced.matchesGlobs platform includes excludes path = some true) :
    Comparable platform path := by
  obtain ⟨included, hincluded, h⟩ := Option.bind_eq_some_iff.mp h
  cases included with
  | true => exact comparable_of_pathMatchesAnyOn hincluded
  | false => cases h

/-- The normal forms of the paths that are selected. -/
def selectedForms (platform : PlatformKind) (includes excludes paths : List String) : List String :=
  (selection platform includes excludes paths).map (normalizePlatformPath platform)

theorem comparable_selectedForms :
    ∀ form ∈ selectedForms platform includes excludes paths, Comparable platform form := by
  intro form hform
  obtain ⟨path, hpath, rfl⟩ := List.mem_map.mp hform
  have hselects := of_decide_eq_true (List.mem_filter.mp hpath).2
  obtain ⟨normalized, hnormalized, hmatches⟩ := Option.bind_eq_some_iff.mp hselects
  rw [← Sliced.eq_of_normalizePlatformPath hnormalized]
  exact comparable_of_matchesGlobs hmatches

/-- The loop keeps the first of the selected normal forms that are equal. -/
theorem expandGlobsFrom_eq (hfound : ∀ item ∈ found, Comparable platform item)
    (h : ∀ path ∈ paths, selects platform includes excludes path ≠ none) :
    Sliced.expandGlobsFrom platform includes excludes found paths =
      some (distinctFrom (pathKey platform) found
        (selectedForms platform includes excludes paths)) := by
  induction paths generalizing found with
  | nil => rfl
  | cons path rest ih =>
      rw [List.forall_mem_cons] at h
      obtain ⟨selected, hselected⟩ := Option.ne_none_iff_exists'.mp h.1
      obtain ⟨normalized, hnormalized, hmatches⟩ := Option.bind_eq_some_iff.mp hselected
      rw [Sliced.expandGlobsFrom, hnormalized, selectedForms, selection, List.filter_cons,
        hselected, Option.bind_eq_bind, Option.bind_some, hmatches]
      cases selected with
      | false => exact ih hfound h.2
      | true =>
          have hcomparable := comparable_of_matchesGlobs hmatches
          have hkeep : ∀ item ∈ (if !containsPathOn platform found normalized then
              found ++ [normalized] else found), Comparable platform item := by
            split_ifs
            · rw [List.forall_mem_append, List.forall_mem_singleton]
              exact ⟨hfound, hcomparable⟩
            · exact hfound
          simp only [Option.bind_eq_bind, Option.bind_some, if_true, decide_true,
            containsPathOn_comparable hcomparable hfound, ih hkeep h.2, List.map_cons]
          rw [← Sliced.eq_of_normalizePlatformPath hnormalized, distinctFrom, distinctFrom,
            List.foldl_cons, containsPathOn_eq]
          cases has (pathKey platform) found normalized <;> rfl

theorem selects_of_expandGlobsFrom {next : List String}
    (h : Sliced.expandGlobsFrom platform includes excludes found paths = some next) :
    ∀ path ∈ paths, selects platform includes excludes path ≠ none := by
  induction paths generalizing found with
  | nil => exact nofun
  | cons path rest ih =>
      obtain ⟨normalized, hnormalized, h⟩ := Option.bind_eq_some_iff.mp h
      obtain ⟨selected, hmatches, h⟩ := Option.bind_eq_some_iff.mp h
      have hselects : selects platform includes excludes path = some selected := by
        rw [selects, hnormalized]
        exact hmatches
      have hrest : ∀ path ∈ rest, selects platform includes excludes path ≠ none := by
        cases selected with
        | false => exact ih h
        | true =>
            obtain ⟨known, -, h⟩ := Option.bind_eq_some_iff.mp h
            exact ih h
      rw [List.forall_mem_cons, hselects]
      exact ⟨Option.some_ne_none _, hrest⟩

/-- The snapshot of a list, where the call returns. -/
def snapshot (platform : PlatformKind) (paths includes excludes : List String) : List String :=
  distinctFrom (pathKey platform) [] (selectedForms platform includes excludes paths)

theorem expandGlobsOn_eq_some_iff {next : List String} :
    Sliced.expandGlobsOn platform paths includes excludes = some next ↔
      (∀ path ∈ paths, selects platform includes excludes path ≠ none) ∧
        snapshot platform paths includes excludes = next := by
  constructor
  · intro h
    have hselects := selects_of_expandGlobsFrom h
    rw [Sliced.expandGlobsOn, expandGlobsFrom_eq (List.forall_mem_nil _) hselects] at h
    exact ⟨hselects, Option.some.inj h⟩
  · intro h
    obtain ⟨hselects, hnext⟩ := h
    rw [← hnext]
    exact expandGlobsFrom_eq (List.forall_mem_nil _) hselects

theorem comparable_snapshot :
    ∀ path ∈ snapshot platform paths includes excludes, Comparable platform path := by
  intro path hpath
  exact comparable_selectedForms path (distinctFrom_subset hpath)

theorem distinct_snapshot : Distinct (pathKey platform) (snapshot platform paths includes excludes) :=
  distinct_distinctFrom _

/-- The keys of the snapshot are those of the normal forms. -/
theorem mem_snapshot_keys {key : String} :
    key ∈ (snapshot platform paths includes excludes).map (pathKey platform) ↔
      ∃ path ∈ selection platform includes excludes paths,
        pathKey platform (normalizePlatformPath platform path) = key := by
  rw [snapshot, same_distinctFrom _ key, selectedForms, List.map_map, List.mem_map]
  rfl

/-- The snapshot is the selection unless a selected path drifts. -/
theorem same_snapshot_iff :
    Same (pathKey platform) (snapshot platform paths includes excludes)
        (selection platform includes excludes paths) ↔
      ∀ path ∈ selection platform includes excludes paths, drifts platform path = false := by
  constructor
  · intro h path hpath
    by_contra hdrifts
    obtain ⟨other, -, hother⟩ := mem_snapshot_keys.mp ((h _).mpr (List.mem_map_of_mem hpath))
    exact pathKey_ne_of_drifts (Bool.not_eq_false _ ▸ hdrifts) other hother
  · intro h key
    rw [mem_snapshot_keys, List.mem_map]
    constructor
    · intro h
      obtain ⟨path, hpath, hkey⟩ := h
      exact ⟨path, hpath, (pathKey_normalize (h path hpath)).symm.trans hkey⟩
    · intro h
      obtain ⟨path, hpath, hkey⟩ := h
      exact ⟨path, hpath, (pathKey_normalize (h path hpath)).trans hkey⟩

end Returns

/-! ## Polls -/

namespace GlobWatch

/-- `paths_equal` does not abort on the snapshot, which has no path twice. Then its paths can be
compared by keys, and the polls are differences of keyed lists. -/
structure Settled (watch : GlobWatch) : Prop where
  comparable : ∀ path ∈ watch.paths, Comparable watch.platform path
  distinct : Distinct (pathKey watch.platform) watch.paths

variable {self next : GlobWatch} {paths : List String} {events : List GlobWatchEvent}

/-- A poll returns exactly if it is found out which paths are selected. -/
theorem poll_eq_some_iff (h : self.Settled) :
    self.poll paths = some (events, next) ↔
      (∀ path ∈ paths, selects self.platform self.includes self.excludes path ≠ none) ∧
        next = { self with paths := snapshot self.platform paths self.includes self.excludes } ∧
        events = diff (pathKey self.platform) self.paths next.paths := by
  have hpoll (hselects : ∀ path ∈ paths,
      selects self.platform self.includes self.excludes path ≠ none) :
      self.poll paths = some (diff (pathKey self.platform) self.paths
        (snapshot self.platform paths self.includes self.excludes),
        { self with paths := snapshot self.platform paths self.includes self.excludes }) := by
    have hcomparable := @comparable_snapshot self.platform self.includes self.excludes paths
    rw [poll, expandGlobsOn_eq_some_iff.mpr ⟨hselects, rfl⟩]
    simp only [Option.bind_eq_bind, Option.bind_some, missing_comparable h.comparable hcomparable,
      missing_comparable hcomparable h.comparable, diff, containsPathOn_eq]
  constructor
  · intro heq
    obtain ⟨snapshot, hsnapshot, -⟩ := Option.bind_eq_some_iff.mp heq
    have hselects := (expandGlobsOn_eq_some_iff.mp hsnapshot).1
    rw [hpoll hselects] at heq
    cases heq
    exact ⟨hselects, rfl, rfl⟩
  · intro h
    obtain ⟨hselects, hnext, hevents⟩ := h
    rw [hpoll hselects, hevents, hnext]

theorem Settled.poll (h : self.Settled) (hpoll : self.poll paths = some (events, next)) :
    next.Settled := by
  obtain ⟨-, rfl, -⟩ := (poll_eq_some_iff h).mp hpoll
  exact ⟨comparable_snapshot, distinct_snapshot⟩

/-- What a poll says is the difference of the snapshots. -/
theorem tells_poll (h : self.Settled) (hpoll : self.poll paths = some (events, next)) :
    Tells self next events := by
  have hnext := h.poll hpoll
  obtain ⟨-, heq, rfl⟩ := (poll_eq_some_iff h).mp hpoll
  have hplatform : next.platform = self.platform := by rw [heq]
  have hdistinct : Distinct (pathKey self.platform) next.paths := hplatform ▸ hnext.distinct
  constructor
  case added =>
    intro path
    rw [containsPathOn_eq]
    exact count_added hdistinct path
  case removed =>
    intro path
    rw [containsPathOn_eq]
    exact count_removed h.distinct path
  case separate =>
    rw [noEqualPaths_iff]
    exact distinct_diff h.distinct hdistinct

/-- The snapshot after some polls is of the last list, and replayed on the first one the events lead
to it. Replaying is said for any list with the same paths as the first snapshot, so that it can be
taken up in the middle of a run. -/
structure Follows (watch : GlobWatch) (lists : List (List String)) (events : List GlobWatchEvent)
    (next : GlobWatch) : Prop where
  settled : next.Settled
  last : next = { watch with paths := (lists.getLast?.map fun paths =>
    snapshot watch.platform paths watch.includes watch.excludes).getD watch.paths }
  replayed : ∀ found, Same (pathKey watch.platform) found watch.paths →
    Same (pathKey watch.platform) (replay (pathKey watch.platform) found events) next.paths

theorem Follows.cons {first : GlobWatch} {lists : List (List String)}
    {more : List GlobWatchEvent} (hself : self.Settled)
    (hpoll : self.poll paths = some (events, first)) (h : Follows first lists more next) :
    Follows self (paths :: lists) (events ++ more) next := by
  obtain ⟨-, rfl, rfl⟩ := (poll_eq_some_iff hself).mp hpoll
  refine ⟨h.settled, ?_, ?_⟩
  · rw [h.last, List.getLast?_cons]
    cases lists.getLast? <;> rfl
  · intro found hfound
    rw [replay_append]
    exact h.replayed _ (same_replay_diff hfound)

/-- Successive polls return exactly if each of them does. -/
theorem exists_polls (h : self.Settled) (lists : List (List String)) :
    (∃ events next, self.polls lists = some (events, next)) ↔
      ∀ paths ∈ lists, ∀ path ∈ paths,
        selects self.platform self.includes self.excludes path ≠ none := by
  induction lists generalizing self with
  | nil => exact iff_of_true ⟨[], self, rfl⟩ nofun
  | cons paths lists ih =>
      rw [List.forall_mem_cons]
      constructor
      · intro h
        obtain ⟨events, next, hpolls⟩ := h
        obtain ⟨⟨first, watch⟩, hpoll, hrest⟩ := Option.bind_eq_some_iff.mp hpolls
        obtain ⟨⟨more, last⟩, hmore, -⟩ := Option.bind_eq_some_iff.mp hrest
        have hsettled := h.poll hpoll
        obtain ⟨hselects, rfl, -⟩ := (poll_eq_some_iff h).mp hpoll
        exact ⟨hselects, (ih hsettled).mp ⟨more, last, hmore⟩⟩
      · intro h
        obtain ⟨hselects, hlists⟩ := h
        have hpoll := (poll_eq_some_iff h).mpr ⟨hselects, rfl, rfl⟩
        obtain ⟨more, last, hmore⟩ := (ih (h.poll hpoll)).mpr hlists
        refine ⟨diff (pathKey self.platform) self.paths
          (snapshot self.platform paths self.includes self.excludes) ++ more, last, ?_⟩
        rw [polls, hpoll, Option.bind_eq_bind, Option.bind_some]
        dsimp only
        rw [hmore]
        rfl

theorem follows_polls (h : self.Settled) {lists : List (List String)}
    (hpolls : self.polls lists = some (events, next)) : Follows self lists events next := by
  induction lists generalizing self events with
  | nil =>
      cases hpolls
      exact ⟨h, rfl, fun found hfound => hfound⟩
  | cons paths lists ih =>
      obtain ⟨⟨first, watch⟩, hpoll, hrest⟩ := Option.bind_eq_some_iff.mp hpolls
      obtain ⟨⟨more, last⟩, hmore, heq⟩ := Option.bind_eq_some_iff.mp hrest
      cases heq
      exact (ih (h.poll hpoll) hmore).cons h hpoll

end GlobWatch

section Run

variable {platform : PlatformKind} {includes excludes initial : List String} {start : GlobWatch}

theorem watchGlobsOn_eq_some_iff :
    watchGlobsOn platform initial includes excludes = some start ↔
      (∀ path ∈ initial, selects platform includes excludes path ≠ none) ∧
        start = ⟨platform, includes, excludes, snapshot platform initial includes excludes⟩ := by
  constructor
  · intro h
    obtain ⟨paths, hpaths, heq⟩ := Option.bind_eq_some_iff.mp h
    obtain ⟨hselects, rfl⟩ := expandGlobsOn_eq_some_iff.mp hpaths
    exact ⟨hselects, (Option.some.inj heq).symm⟩
  · intro h
    obtain ⟨hselects, hstart⟩ := h
    rw [watchGlobsOn, expandGlobsOn_eq_some_iff.mpr ⟨hselects, rfl⟩, hstart]
    rfl

theorem settled_watchGlobsOn (h : watchGlobsOn platform initial includes excludes = some start) :
    start.Settled := by
  obtain ⟨-, rfl⟩ := watchGlobsOn_eq_some_iff.mp h
  exact ⟨comparable_snapshot, distinct_snapshot⟩

section Before

variable {before : List (List String)} {events : List GlobWatchEvent} {watch : GlobWatch}

theorem watch_polls (h : watchGlobsOn platform initial includes excludes = some start)
    (hpolls : start.polls before = some (events, watch)) :
    watch = ⟨platform, includes, excludes,
      snapshot platform (before.getLast?.getD initial) includes excludes⟩ := by
  have hfollows := GlobWatch.follows_polls (settled_watchGlobsOn h) hpolls
  obtain ⟨-, rfl⟩ := watchGlobsOn_eq_some_iff.mp h
  rw [hfollows.last]
  cases before.getLast? <;> rfl

theorem reportsExactly_of_settled (h : watchGlobsOn platform initial includes excludes = some start)
    (hpolls : start.polls before = some (events, watch))
    (hdrifts : ∀ path ∈ selection platform includes excludes (before.getLast?.getD initial),
      drifts platform path = false) :
    ReportsExactly platform includes excludes initial start before events watch := by
  have hfollows := GlobWatch.follows_polls (settled_watchGlobsOn h) hpolls
  have hwatch := watch_polls h hpolls
  have hstart := (watchGlobsOn_eq_some_iff.mp h).2
  have hsame := same_snapshot_iff.mpr hdrifts
  constructor
  case distinct =>
    rw [hwatch, noEqualPaths_iff]
    exact distinct_snapshot
  case selected =>
    rw [hwatch, samePaths_iff]
    exact hsame
  case replayed =>
    have hreplayed := hfollows.replayed start.paths (Same.refl _)
    rw [samePaths_iff]
    rwa [hstart] at hreplayed ⊢
  case polled =>
    intro paths events next hpoll
    exact GlobWatch.tells_poll hfollows.settled hpoll
  case quiet =>
    intro paths events next hpoll hpaths
    rw [samePaths_iff] at hpaths
    -- what the other list selects has the keys of paths that do not drift
    have hsettled : ∀ path ∈ selection platform includes excludes paths,
        drifts platform path = false := by
      intro path hpath
      obtain ⟨other, hother, hkey⟩ := List.mem_map.mp ((hpaths _).mp (List.mem_map_of_mem hpath))
      rw [← drifts_congr hkey]
      exact hdrifts other hother
    obtain ⟨-, rfl, rfl⟩ := (GlobWatch.poll_eq_some_iff hfollows.settled).mp hpoll
    rw [hwatch]
    exact diff_eq_nil_iff.mpr
      ((hsame.trans hpaths.symm).trans (same_snapshot_iff.mpr hsettled).symm)

end Before

/-- A watch reports exactly as long as it is found out, without an abort, which of the
paths are selected, and none of these drifts. -/
theorem reportsExactly_iff (platform : PlatformKind) (includes excludes initial : List String)
    (lists : List (List String)) :
    WatchesExactly platform includes excludes initial lists ↔
      ∀ paths ∈ initial :: lists, ∀ path ∈ paths,
        selects platform includes excludes path ≠ none ∧
          (selects platform includes excludes path = some true → drifts platform path = false) := by
  constructor
  · intro h paths hpaths
    obtain ⟨start, hstart, h⟩ := h
    have hselects : ∀ paths ∈ initial :: lists, ∀ path ∈ paths,
        selects platform includes excludes path ≠ none := by
      obtain ⟨events, watch, hpolls, -⟩ := h lists (List.prefix_refl lists)
      have hall := (GlobWatch.exists_polls (settled_watchGlobsOn hstart) lists).mp
        ⟨events, watch, hpolls⟩
      obtain ⟨hinitial, rfl⟩ := watchGlobsOn_eq_some_iff.mp hstart
      exact List.forall_mem_cons.mpr ⟨hinitial, hall⟩
    have hselected : ∀ before, before <+: lists → before.getLast?.getD initial = paths →
        ∀ path ∈ selection platform includes excludes paths, drifts platform path = false := by
      intro before hbefore hlast
      obtain ⟨events, watch, hpolls, hreports⟩ := h before hbefore
      have hselected := hreports.selected
      rw [samePaths_iff, watch_polls hstart hpolls, hlast] at hselected
      exact same_snapshot_iff.mp hselected
    have hdrifts : ∀ path ∈ selection platform includes excludes paths,
        drifts platform path = false := by
      rcases List.mem_cons.mp hpaths with rfl | hmem
      · exact hselected [] List.nil_prefix rfl
      · obtain ⟨before, after, rfl⟩ := List.append_of_mem hmem
        refine hselected (before ++ [paths]) ⟨after, by simp⟩ ?_
        rw [List.getLast?_concat, Option.getD_some]
    intro path hpath
    refine ⟨hselects paths hpaths path hpath, fun htrue => hdrifts path ?_⟩
    exact List.mem_filter.mpr ⟨hpath, decide_eq_true htrue⟩
  · intro h
    have hselects : ∀ paths ∈ initial :: lists, ∀ path ∈ paths,
        selects platform includes excludes path ≠ none :=
      fun paths hpaths path hpath => (h paths hpaths path hpath).1
    have hdrifts : ∀ paths ∈ initial :: lists, ∀ path ∈ selection platform includes excludes paths,
        drifts platform path = false := by
      intro paths hpaths path hpath
      obtain ⟨hmem, htrue⟩ := List.mem_filter.mp hpath
      exact (h paths hpaths path hmem).2 (of_decide_eq_true htrue)
    rw [List.forall_mem_cons] at hselects
    have hstart := watchGlobsOn_eq_some_iff.mpr ⟨hselects.1, rfl⟩
    refine ⟨_, hstart, fun before hbefore => ?_⟩
    obtain ⟨events, watch, hpolls⟩ := (GlobWatch.exists_polls (settled_watchGlobsOn hstart)
      before).mpr fun paths hpaths => hselects.2 paths (hbefore.subset hpaths)
    refine ⟨events, watch, hpolls, reportsExactly_of_settled hstart hpolls (hdrifts _ ?_)⟩
    rcases hlast : before.getLast? with _ | last
    · exact List.mem_cons_self
    · exact List.mem_cons_of_mem _ (hbefore.subset (List.mem_of_getLast? hlast))

/-- In the basic plane it is always found out. -/
theorem selects_bmp (hincludes : ∀ pattern ∈ includes, IsBmp pattern)
    (hexcludes : ∀ pattern ∈ excludes, IsBmp pattern) {path : String} (h : IsBmp path) :
    selects platform includes excludes path ≠ none := by
  have hnormal := Sliced.isBmp_normalizePlatformPath h platform
  have hmatchesOn {pattern path : String} (hpattern : IsBmp pattern) (hpath : IsBmp path) :
      ∃ matched, Sliced.globMatchesOn platform pattern path = some matched := by
    cases platform with
    | linux => exact ⟨_, Sliced.globMatches_eq hpattern hpath⟩
    | macOS | windows =>
        refine exists_bind (Sliced.lowerAscii_eq hpattern)
          (exists_bind (Sliced.lowerAscii_eq hpath) ?_)
        exact ⟨_, Sliced.globMatches_eq (Sliced.isBmp_lowerAscii hpattern)
          (Sliced.isBmp_lowerAscii hpath)⟩
  have hany {patterns : List String} {path : String} (hpath : IsBmp path)
      (hpatterns : ∀ pattern ∈ patterns, IsBmp pattern) :
      ∃ matched, Sliced.pathMatchesAnyOn platform path patterns = some matched := by
    induction patterns with
    | nil => exact ⟨false, rfl⟩
    | cons pattern patterns ih =>
        rw [List.forall_mem_cons] at hpatterns
        obtain ⟨matched, hmatched⟩ :=
          hmatchesOn (Sliced.isBmp_normalizePlatformPath hpatterns.1 platform) hpath
        refine exists_bind (Sliced.normalizePlatformPath_eq hpatterns.1 platform)
          (exists_bind hmatched ?_)
        cases matched with
        | true => exact ⟨true, rfl⟩
        | false => exact ih hpatterns.2
  rw [Option.ne_none_iff_exists']
  obtain ⟨included, hincluded⟩ := hany hnormal hincludes
  refine exists_bind (Sliced.normalizePlatformPath_eq h platform) (exists_bind hincluded ?_)
  cases included with
  | false => exact ⟨false, rfl⟩
  | true =>
      obtain ⟨excluded, hexcluded⟩ := hany hnormal hexcludes
      exact exists_bind hexcluded ⟨_, rfl⟩

/-- On Windows, `//:x` has the normal form `/:x`, whose normal form is `/:/x`. -/
theorem not_reportsExactly_drive : ¬ WatchesExactly .windows ["**"] [] ["//:x"] [] := by
  intro h
  obtain ⟨start, hstart, h⟩ := h
  obtain ⟨events, watch, hpolls, hreports⟩ := h [] List.nil_prefix
  have hselected := hreports.selected
  rw [watch_polls hstart hpolls, samePaths_iff] at hselected
  have hdrifts := same_snapshot_iff.mp hselected "//:x" (by decide +kernel)
  exact absurd hdrifts (by decide +kernel)

end Run

end Mulp.Platform
