import Mathlib.Data.List.Sort
import Mathlib.Data.List.Flatten
import Mulp.Lib.KeyedList
import Mulp.Lib.Utf8
import Mulp.Chokidar.Types

/-! The differences of two scans (`chokidar/scanner.mbt`).

A path that was a file and is a directory now is told by two events, an `Unlink` and an
`AddDir`; so the events are those of slots, of which each path has one for a file and
one for a directory. -/
namespace Mulp.Chokidar

open Keyed

/-- The loop of `compare_paths` over the bytes, and the comparison of the lengths after it. -/
def compareBytes : List UInt8 → List UInt8 → Int
  | [], [] => 0
  | [], _ :: _ => -1
  | _ :: _, [] => 1
  | left :: leftRest, right :: rightRest =>
      if left < right then -1 else if left > right then 1 else compareBytes leftRest rightRest

def comparePaths (left right : String) : Int :=
  compareBytes (Utf8.encode left.toList) (Utf8.encode right.toList)

def compareSnapshotPaths (left right : SnapshotEntry) : Int := comparePaths left.path right.path

/-- `sort_by(compare_snapshot_paths)`; of entries whose paths differ there is one order. -/
def sorted (entries : List SnapshotEntry) : List SnapshotEntry :=
  entries.insertionSort fun left right => compareSnapshotPaths left right ≤ 0

def snapshotFind (entries : List SnapshotEntry) (path : String) : Option SnapshotEntry :=
  entries.find? (·.path = path)

def statsChanged : Option FileStats → Option FileStats → Bool
  | some old, some new =>
      old.size ≠ new.size || old.mode ≠ new.mode || old.modifiedNanos ≠ new.modifiedNanos
  | none, some _ => true
  | some _, none => true
  | none, none => false

def eventNameForAdd : FileKind → EventName
  | .directory => .addDir
  | .file | .symlink | .other => .add

def eventNameForUnlink : FileKind → EventName
  | .directory => .unlinkDir
  | .file | .symlink | .other => .unlink

def eventFromEntry (name : EventName) (entry : SnapshotEntry) : Event :=
  let stats :=
    match name with
    | .unlink | .unlinkDir => none
    | .add | .addDir | .change | .ready | .raw | .error | .all => entry.stats
  ⟨name, entry.path, stats, none, none⟩

def added (entry : SnapshotEntry) : Event := eventFromEntry (eventNameForAdd entry.kind) entry

def removed (entry : SnapshotEntry) : Event := eventFromEntry (eventNameForUnlink entry.kind) entry

/-- The turn of the first loop of `diff_snapshots` for an entry. -/
def arrival (oldEntries : List SnapshotEntry) (newEntry : SnapshotEntry) : List Event :=
  match snapshotFind oldEntries newEntry.path with
  | some oldEntry =>
      if newEntry.kind ≠ oldEntry.kind then [removed oldEntry, added newEntry]
      else if newEntry.kind ≠ .directory ∧ statsChanged oldEntry.stats newEntry.stats = true then
        [eventFromEntry .change newEntry]
      else []
  | none => [added newEntry]

/-- The turn of the second loop. -/
def departure (newEntries : List SnapshotEntry) (oldEntry : SnapshotEntry) : List Event :=
  match snapshotFind newEntries oldEntry.path with
  | some _ => []
  | none => [removed oldEntry]

def diffSnapshots (oldEntries newEntries : List SnapshotEntry) : List Event :=
  let oldEntries := sorted oldEntries
  let newEntries := sorted newEntries
  newEntries.flatMap (arrival oldEntries) ++ oldEntries.flatMap (departure newEntries)

/-! ## The order of the paths -/

section Order

variable {a b c : List UInt8}

theorem compareBytes_nil_le (b : List UInt8) : compareBytes [] b ≤ 0 := by
  cases b <;> simp [compareBytes]

theorem not_compareBytes_nil (x : UInt8) (a : List UInt8) : ¬ compareBytes (x :: a) [] ≤ 0 := by
  show ¬ (1 : Int) ≤ 0
  decide

theorem compareBytes_cons_le {x y : UInt8} :
    compareBytes (x :: a) (y :: b) ≤ 0 ↔ x < y ∨ x = y ∧ compareBytes a b ≤ 0 := by
  rw [compareBytes]
  split_ifs with hlt hgt
  · simp [hlt]
  · constructor
    · intro h
      exact absurd h (by decide)
    · rintro (h | ⟨rfl, -⟩)
      · exact absurd h hlt
      · exact absurd hgt hlt
  · have heq : x = y := by
      rw [UInt8.lt_iff_toNat_lt, Nat.not_lt] at hlt
      rw [gt_iff_lt, UInt8.lt_iff_toNat_lt, Nat.not_lt] at hgt
      exact UInt8.toNat_inj.mp (Nat.le_antisymm hgt hlt)
    simp [heq]

theorem compareBytes_total (a b : List UInt8) : compareBytes a b ≤ 0 ∨ compareBytes b a ≤ 0 := by
  induction a generalizing b with
  | nil => exact .inl (compareBytes_nil_le b)
  | cons x a ih =>
      cases b with
      | nil => exact .inr (compareBytes_nil_le _)
      | cons y b =>
          rw [compareBytes_cons_le, compareBytes_cons_le]
          rcases Nat.lt_trichotomy x.toNat y.toNat with h | h | h
          · exact .inl (.inl (UInt8.lt_iff_toNat_lt.mpr h))
          · have heq := UInt8.toNat_inj.mp h
            rcases ih b with hle | hle
            · exact .inl (.inr ⟨heq, hle⟩)
            · exact .inr (.inr ⟨heq.symm, hle⟩)
          · exact .inr (.inl (UInt8.lt_iff_toNat_lt.mpr h))

theorem compareBytes_trans (hab : compareBytes a b ≤ 0) (hbc : compareBytes b c ≤ 0) :
    compareBytes a c ≤ 0 := by
  induction a generalizing b c with
  | nil => exact compareBytes_nil_le c
  | cons x a ih =>
      cases b with
      | nil => exact absurd hab (not_compareBytes_nil x a)
      | cons y b =>
          cases c with
          | nil => exact absurd hbc (not_compareBytes_nil y b)
          | cons z c =>
              rw [compareBytes_cons_le] at hab hbc ⊢
              rcases hab with hxy | ⟨rfl, hab⟩
              · rcases hbc with hyz | ⟨rfl, -⟩
                · exact .inl (UInt8.lt_trans hxy hyz)
                · exact .inl hxy
              · rcases hbc with hyz | ⟨rfl, hbc⟩
                · exact .inl hyz
                · exact .inr ⟨rfl, ih hab hbc⟩

/-- What goes on comes after. -/
theorem compareBytes_append (a : List UInt8) (hb : b ≠ []) : ¬ compareBytes (a ++ b) a ≤ 0 := by
  induction a with
  | nil =>
      cases b with
      | nil => exact absurd rfl hb
      | cons y b => exact not_compareBytes_nil y b
  | cons x a ih =>
      rw [List.cons_append, compareBytes_cons_le]
      rintro (h | ⟨-, h⟩)
      · exact UInt8.lt_irrefl x h
      · exact ih h

end Order

instance : Std.Total fun left right : SnapshotEntry => compareSnapshotPaths left right ≤ 0 :=
  ⟨fun _ _ => compareBytes_total _ _⟩

instance : IsTrans SnapshotEntry fun left right => compareSnapshotPaths left right ≤ 0 :=
  ⟨fun _ _ _ => compareBytes_trans⟩

variable {entries oldEntries newEntries : List SnapshotEntry} {old new : SnapshotEntry}

theorem perm_sorted (entries : List SnapshotEntry) : (sorted entries).Perm entries :=
  List.perm_insertionSort _ entries

/-- A directory is sorted before what is in it. -/
theorem sublist_sorted {parent child : SnapshotEntry} {rest : String} (hparent : parent ∈ entries)
    (hchild : child ∈ entries) (hpath : child.path = parent.path ++ "/" ++ rest) :
    [parent, child].Sublist (sorted entries) := by
  have hsorted := List.pairwise_insertionSort
    (fun left right : SnapshotEntry => compareSnapshotPaths left right ≤ 0) entries
  have hnot : ¬ compareSnapshotPaths child parent ≤ 0 := by
    rw [compareSnapshotPaths, comparePaths, hpath, String.append_assoc, String.toList_append,
      Utf8.encode_append]
    apply compareBytes_append
    rw [String.toList_append, Utf8.encode_append]
    exact fun h => absurd (List.append_eq_nil_iff.mp h).1 (by decide)
  have hmem : parent ∈ sorted entries ∧ child ∈ sorted entries :=
    ⟨(perm_sorted entries).mem_iff.mpr hparent, (perm_sorted entries).mem_iff.mpr hchild⟩
  obtain ⟨before, after, hsplit⟩ := List.append_of_mem hmem.1
  have hchild := hmem.2
  rw [hsplit, List.mem_append, List.mem_cons] at hchild
  rw [← sorted, hsplit] at hsorted
  rcases hchild with hbefore | rfl | hafter
  · exact absurd ((List.pairwise_append.mp hsorted).2.2 child hbefore parent List.mem_cons_self) hnot
  · exact absurd (compareBytes_total _ _ |>.elim id id) hnot
  · rw [hsplit]
    exact ((List.singleton_sublist.mpr hafter).cons_cons parent).trans (List.sublist_append_right _ _)

/-! ## The difference, path by path -/

/-- What is reported of a path, from what the two scans found there. -/
def transition (old new : Option SnapshotEntry) : List Event :=
  match old, new with
  | none, none => []
  | none, some newEntry => [added newEntry]
  | some oldEntry, none => [removed oldEntry]
  | some oldEntry, some newEntry =>
      if newEntry.kind ≠ oldEntry.kind then [removed oldEntry, added newEntry]
      else if newEntry.kind ≠ .directory ∧ statsChanged oldEntry.stats newEntry.stats = true then
        [eventFromEntry .change newEntry]
      else []

@[simp] theorem path_added (entry : SnapshotEntry) : (added entry).path = entry.path := rfl

@[simp] theorem path_removed (entry : SnapshotEntry) : (removed entry).path = entry.path := rfl

theorem snapshotFind_eq (entries : List SnapshotEntry) (path : String) :
    snapshotFind entries path = lookup SnapshotEntry.path path entries := rfl

theorem path_of_snapshotFind {path : String} (h : snapshotFind entries path = some old) :
    old.path = path :=
  (lookup_eq_some h).2

theorem path_of_mem_arrival {event : Event} (h : event ∈ arrival entries new) :
    event.path = new.path := by
  unfold arrival at h
  cases hfind : snapshotFind entries new.path with
  | none =>
      rw [hfind] at h
      rw [List.mem_singleton.mp h, path_added]
  | some old =>
      rw [hfind] at h
      dsimp only at h
      split_ifs at h
      · rcases List.mem_cons.mp h with rfl | h
        · exact path_of_snapshotFind hfind
        · rw [List.mem_singleton.mp h, path_added]
      · rw [List.mem_singleton.mp h]
        rfl
      · cases h

theorem path_of_mem_departure {event : Event} (h : event ∈ departure entries old) :
    event.path = old.path := by
  unfold departure at h
  split at h
  · cases h
  · rw [List.mem_singleton.mp h, path_removed]

section Diff

variable (hold : Distinct SnapshotEntry.path oldEntries)
  (hnew : Distinct SnapshotEntry.path newEntries)

theorem snapshotFind_sorted (h : Distinct SnapshotEntry.path entries) (path : String) :
    snapshotFind (sorted entries) path = snapshotFind entries path :=
  h.lookup_perm (perm_sorted entries).symm path

include hold hnew

/-- The events about a path are those of its transition. -/
theorem filter_diffSnapshots (path : String) :
    (diffSnapshots oldEntries newEntries).filter (·.path = path) =
      transition (snapshotFind oldEntries path) (snapshotFind newEntries path) := by
  have harrive : ((sorted newEntries).flatMap (arrival (sorted oldEntries))).filter (·.path = path) =
      (snapshotFind newEntries path).elim [] (arrival (sorted oldEntries)) := by
    rw [← snapshotFind_sorted hnew]
    exact (hnew.perm (perm_sorted newEntries).symm).filter_flatMap
      (fun _ _ _ hevent => path_of_mem_arrival hevent) path
  have hdepart : ((sorted oldEntries).flatMap (departure (sorted newEntries))).filter (·.path = path) =
      (snapshotFind oldEntries path).elim [] (departure (sorted newEntries)) := by
    rw [← snapshotFind_sorted hold]
    exact (hold.perm (perm_sorted oldEntries).symm).filter_flatMap
      (fun _ _ _ hevent => path_of_mem_departure hevent) path
  rw [diffSnapshots, List.filter_append, harrive, hdepart]
  cases hnewFind : snapshotFind newEntries path with
  | none =>
      cases holdFind : snapshotFind oldEntries path with
      | none => rfl
      | some old =>
          simp [departure, snapshotFind_sorted hnew, path_of_snapshotFind holdFind, hnewFind,
            transition]
  | some new =>
      have hnewPath := path_of_snapshotFind hnewFind
      cases holdFind : snapshotFind oldEntries path with
      | none => simp [arrival, snapshotFind_sorted hold, hnewPath, holdFind, transition]
      | some old =>
          have holdPath := path_of_snapshotFind holdFind
          simp [arrival, departure, snapshotFind_sorted hold, snapshotFind_sorted hnew, hnewPath,
            holdPath, holdFind, hnewFind, transition]

end Diff

/-! ## What the differences tell -/

/-- What a scan has found in the slots of the paths. -/
def SnapshotEntry.fills (entry : SnapshotEntry) (dir : Bool) : Option (Option FileStats) :=
  if decide (entry.kind = .directory) = dir then some (if dir then none else entry.stats) else none

def filesOf (entries : List SnapshotEntry) : Files := fun slot =>
  (snapshotFind entries slot.path).bind fun entry => entry.fills slot.dir

/-- Nothing that is reported has changed at a path. -/
def Unchanged (old new : Option SnapshotEntry) : Prop :=
  match old, new with
  | none, none => True
  | some oldEntry, some newEntry =>
      newEntry.kind = oldEntry.kind ∧
        (newEntry.kind = .directory ∨ newEntry.stats = oldEntry.stats)
  | _, _ => False

theorem statsChanged_eq (old new : Option FileStats) : statsChanged old new = decide (new ≠ old) := by
  cases old with
  | none => cases new <;> simp [statsChanged]
  | some old =>
      cases new with
      | none => simp [statsChanged]
      | some new =>
          cases old
          cases new
          simp only [statsChanged, ne_eq, Option.some.injEq, FileStats.mk.injEq]
          grind

theorem transition_eq_nil_iff {old new : Option SnapshotEntry} :
    transition old new = [] ↔ Unchanged old new := by
  cases old with
  | none => cases new <;> simp [transition, Unchanged]
  | some old =>
      cases new with
      | none => simp [transition, Unchanged]
      | some new =>
          simp only [transition, Unchanged, statsChanged_eq, decide_eq_true_eq]
          split_ifs with hkind hstats
          · simp [hkind]
          · simp [hstats]
          · grind

theorem transition_self (entry : SnapshotEntry) : transition (some entry) (some entry) = [] :=
  transition_eq_nil_iff.mpr ⟨rfl, .inr rfl⟩

theorem edit?_added (entry : SnapshotEntry) :
    (added entry).edit? = some (.put ⟨entry.path, decide (entry.kind = .directory)⟩
      (if entry.kind = .directory then none else entry.stats)) := by
  cases hkind : entry.kind <;> simp [added, eventFromEntry, eventNameForAdd, Event.edit?, hkind]

theorem edit?_removed (entry : SnapshotEntry) :
    (removed entry).edit? = some (.drop ⟨entry.path, decide (entry.kind = .directory)⟩) := by
  cases hkind : entry.kind <;> simp [removed, eventFromEntry, eventNameForUnlink, Event.edit?, hkind]

theorem learn_added (known : Files) (entry : SnapshotEntry) (dir : Bool) :
    learn known [added entry] ⟨entry.path, dir⟩ = (entry.fills dir).or (known ⟨entry.path, dir⟩) := by
  rw [learn_singleton (edit?_added entry), SnapshotEntry.fills]
  by_cases hdir : decide (entry.kind = .directory) = dir
  · subst hdir
    rw [if_pos rfl, Patch.apply_of_eq (by rfl)]
    simp [Patch.Edit.value]
  · rw [if_neg hdir, Patch.apply_of_ne (by simpa [Patch.Edit.key] using hdir)]
    rfl

theorem learn_removed (known : Files) (entry : SnapshotEntry) (dir : Bool) :
    learn known [removed entry] ⟨entry.path, dir⟩ =
      if decide (entry.kind = .directory) = dir then none else known ⟨entry.path, dir⟩ := by
  rw [learn_singleton (edit?_removed entry)]
  by_cases hdir : decide (entry.kind = .directory) = dir
  · rw [if_pos hdir, ← hdir]
    exact Patch.apply_of_eq rfl
  · rw [if_neg hdir]
    exact Patch.apply_of_ne (by simpa [Patch.Edit.key] using hdir)

theorem learn_change (known : Files) (entry : SnapshotEntry) (dir : Bool) :
    learn known [eventFromEntry .change entry] ⟨entry.path, dir⟩ =
      if dir then known ⟨entry.path, dir⟩ else some entry.stats := by
  have hedit : (eventFromEntry .change entry).edit? = some (.put ⟨entry.path, false⟩ entry.stats) := rfl
  rw [learn_singleton hedit]
  cases dir with
  | true => exact Patch.apply_of_ne (by simp [Patch.Edit.key])
  | false => exact Patch.apply_of_eq rfl

theorem learn_removed_own {known : Files} {entry : SnapshotEntry} {dir : Bool}
    (h : known ⟨entry.path, dir⟩ = entry.fills dir) :
    learn known [removed entry] ⟨entry.path, dir⟩ = none := by
  rw [learn_removed, h, SnapshotEntry.fills]
  split_ifs <;> rfl

/-- The events of a transition lead from what was at the path to what is. -/
theorem learn_transition {old new : Option SnapshotEntry} {known : Files} {path : String} {dir : Bool}
    (hold : ∀ entry ∈ old, entry.path = path) (hnew : ∀ entry ∈ new, entry.path = path)
    (hknown : known ⟨path, dir⟩ = old.bind fun entry => entry.fills dir) :
    learn known (transition old new) ⟨path, dir⟩ = new.bind fun entry => entry.fills dir := by
  cases old with
  | none =>
      cases new with
      | none => exact hknown
      | some new =>
          obtain rfl := hnew new rfl
          rw [transition, learn_added, hknown]
          exact Option.or_none
  | some old =>
      obtain rfl := hold old rfl
      cases new with
      | none => exact learn_removed_own hknown
      | some new =>
          have hpath := hnew new rfl
          rw [transition]
          split_ifs with hkind hchange
          · -- another kind of file: what was there has gone
            rw [learn_cons, ← hpath, learn_added, hpath, learn_removed_own hknown]
            exact Option.or_none
          · rw [← hpath, learn_change, hpath, hknown]
            rw [not_ne_iff] at hkind
            cases dir with
            | true => simp [SnapshotEntry.fills, ← hkind, hchange.1]
            | false => simp [SnapshotEntry.fills, hchange.1]
          · rw [not_ne_iff] at hkind
            rw [statsChanged_eq, decide_eq_true_eq] at hchange
            rw [learn_nil, hknown]
            show old.fills dir = new.fills dir
            by_cases hdirectory : new.kind = .directory
            · cases dir <;> simp [SnapshotEntry.fills, ← hkind, hdirectory]
            · have hstats : new.stats = old.stats := by
                by_contra hne
                exact hchange ⟨hdirectory, hne⟩
              rw [SnapshotEntry.fills, SnapshotEntry.fills, hkind, hstats]

/-- The events between two scans tell what is there now, slot by slot, to one that knew
what was there before. -/
theorem learn_diffSnapshots (hold : Distinct SnapshotEntry.path oldEntries)
    (hnew : Distinct SnapshotEntry.path newEntries) {known : Files} {slot : Slot}
    (h : known slot = filesOf oldEntries slot) :
    learn known (diffSnapshots oldEntries newEntries) slot = filesOf newEntries slot := by
  cases slot with
  | mk path dir =>
      rw [learn_at, filter_diffSnapshots hold hnew]
      exact learn_transition (fun _ hentry => path_of_snapshotFind hentry)
        (fun _ hentry => path_of_snapshotFind hentry) h

theorem sublist_flatMap {α β : Type} {f : α → List β} {l : List α} {x y : α} {a b : β}
    (h : [x, y].Sublist l) (hx : a ∈ f x) (hy : b ∈ f y) : [a, b].Sublist (l.flatMap f) := by
  have hpair : ([x, y].flatMap f).Sublist (l.flatMap f) := by
    exact h.flatMap f
  refine List.Sublist.trans ?_ hpair
  rw [List.flatMap_cons, List.flatMap_singleton]
  exact (List.singleton_sublist.mpr hx).append (List.singleton_sublist.mpr hy)

theorem added_mem_arrival (h : ∀ old ∈ snapshotFind entries new.path, new.kind ≠ old.kind) :
    added new ∈ arrival entries new := by
  rw [arrival]
  cases hfind : snapshotFind entries new.path with
  | none => exact List.mem_cons_self
  | some old => simp [h old hfind]

/-- Between any two scans that find no path twice: the events lead, at each slot, from what was
there to what is there, a path is silent exactly if nothing that is reported has changed at it,
and a new directory is announced before what is new in it. -/
theorem diffSnapshots_tells (oldEntries newEntries : List SnapshotEntry)
    (hold : Distinct SnapshotEntry.path oldEntries) (hnew : Distinct SnapshotEntry.path newEntries) :
    (∀ known slot, known slot = filesOf oldEntries slot →
      learn known (diffSnapshots oldEntries newEntries) slot = filesOf newEntries slot) ∧
    (∀ path, (∀ event ∈ diffSnapshots oldEntries newEntries, event.path ≠ path) ↔
      Unchanged (snapshotFind oldEntries path) (snapshotFind newEntries path)) ∧
    ∀ parent ∈ newEntries, ∀ child ∈ newEntries, ∀ rest, child.path = parent.path ++ "/" ++ rest →
      (∀ old ∈ snapshotFind oldEntries parent.path, parent.kind ≠ old.kind) →
      (∀ old ∈ snapshotFind oldEntries child.path, child.kind ≠ old.kind) →
      [added parent, added child].Sublist (diffSnapshots oldEntries newEntries) := by
  refine ⟨fun known slot => learn_diffSnapshots hold hnew, ?_, ?_⟩
  · intro path
    rw [← transition_eq_nil_iff, ← filter_diffSnapshots hold hnew, List.filter_eq_nil_iff]
    simp only [decide_eq_true_eq]
  · intro parent hparent child hchild rest hpath hparentNew hchildNew
    rw [← snapshotFind_sorted hold] at hparentNew hchildNew
    exact (sublist_flatMap (sublist_sorted hparent hchild hpath) (added_mem_arrival hparentNew)
      (added_mem_arrival hchildNew)).trans (List.sublist_append_left _ _)

/-- A file gives way to a directory of its name, which has a file in it. -/
theorem diffSnapshots_tells_directory :
    let old : List SnapshotEntry := [⟨"a", .file, some ⟨1, 420, 5⟩⟩, ⟨"z", .file, some ⟨1, 420, 5⟩⟩]
    let new : List SnapshotEntry := [⟨"a/b", .file, some ⟨1, 420, 6⟩⟩, ⟨"a", .directory, none⟩,
      ⟨"z", .file, some ⟨1, 420, 5⟩⟩]
    learn (filesOf old) (diffSnapshots old new) ⟨"a", false⟩ = filesOf new ⟨"a", false⟩ ∧
      (∀ event ∈ diffSnapshots old new, event.path ≠ "z") ∧
      [added ⟨"a", .directory, none⟩, added ⟨"a/b", .file, some ⟨1, 420, 6⟩⟩].Sublist
        (diffSnapshots old new) := by
  intro old new
  obtain ⟨htells, hsilent, hparent⟩ := diffSnapshots_tells old new (by decide) (by decide)
  exact ⟨htells (filesOf old) ⟨"a", false⟩ rfl, (hsilent "z").mpr ⟨rfl, .inr rfl⟩,
    hparent ⟨"a", .directory, none⟩ (by decide) ⟨"a/b", .file, some ⟨1, 420, 6⟩⟩ (by decide) "b"
      (by decide) (by decide) (by decide)⟩

end Mulp.Chokidar
