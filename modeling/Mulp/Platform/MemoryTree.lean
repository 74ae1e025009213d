import Mulp.Lib.KeyedList
import Mulp.Platform.MemoryFs
import Mulp.Text.Trim

/-! Runs of operations on the file system in memory (`platform/fs.mbt`): when its
entries are a tree. -/
namespace Mulp.Platform

open Mulp.Core Mulp.Text

namespace MemoryFileSystem

/-! ## Paths -/

/-- What the entry of a path is looked up by. -/
def key (path : String) : String := trimSlash (trimSlash path)

theorem normalizePath_eq (path : String) : normalizePath path = some (trimSlash path) :=
  slice_trimSlash path

theorem parentFrom_eq {path parent : String} {n : Nat} (h : parentFrom path n = some parent) :
    parent = "/" ∨ ∃ rest, path = parent ++ "/" ++ rest := by
  induction n with
  | zero => exact .inl (Option.some.inj h).symm
  | succ index ih =>
      rw [parentFrom, Option.bind_eq_bind, Option.bind_eq_some_iff] at h
      obtain ⟨part, hpart, h⟩ := h
      split_ifs at h with hslash hzero
      · exact .inl (Option.some.inj h).symm
      · rw [hslash] at hpart
        obtain ⟨before, after, rfl, rfl, -⟩ := slice_eq_some_iff.mp hpart
        have hbefore : slice (before ++ "/" ++ after) 0 (unitLength before) = some before :=
          slice_eq_some_iff.mpr ⟨"", "/" ++ after, by simp [String.append_assoc], rfl, by simp⟩
        rw [hbefore] at h
        cases h
        exact .inr ⟨after, rfl⟩
      · exact ih h

/-- A path stands below its parent, which is the root or ends where a slash of the
path begins. -/
theorem parentPath_below {path parent : String} (h : parentPath path = some parent) :
    trimSlash parent = "/" ∨ hasPrefix path (trimSlash parent ++ "/") = true := by
  rw [parentPath, normalizePath_eq, Option.bind_eq_bind, Option.bind_some] at h
  rcases parentFrom_eq h with rfl | ⟨rest, hpath⟩
  · exact .inl trimSlash_root
  · right
    rw [hasPrefix_iff]
    obtain ⟨slashes, hparent⟩ : ∃ slashes, parent ++ "/" = trimSlash parent ++ "/" ++ slashes := by
      rcases eq_trimSlash parent with hparent | hparent
      · exact ⟨"", by rw [← hparent, String.append_empty]⟩
      · exact ⟨"/", by rw [← hparent]⟩
    rw [hparent, String.append_assoc] at hpath
    rcases eq_trimSlash path with htrim | htrim
    · exact ⟨_, htrim.trans hpath⟩
    · exact ⟨slashes ++ rest ++ "/", by rw [htrim, hpath, String.append_assoc]⟩

theorem ne_of_below {path parent : String} (h : hasPrefix path (parent ++ "/") = true) :
    path ≠ parent := by
  obtain ⟨rest, rfl⟩ := hasPrefix_iff.mp h
  intro heq
  have hlength := congrArg String.length heq
  rw [String.length_append, String.length_append] at hlength
  have hslash : "/".length = 1 := rfl
  omega

/-! ## What the operations do -/

section Operations

variable (s : MemoryFileSystem) (path : String)

/-- The entry that has the path. -/
def entry (k : String) : Option FsEntry := Keyed.lookup FsEntry.path k s.entries

/-- There is a directory at the path. -/
def isDirectory (k : String) : Bool := (s.entry k).any (·.kind = .directory)

def erase (k : String) : MemoryFileSystem := ⟨Keyed.remove FsEntry.path k s.entries⟩

def push (e : FsEntry) : MemoryFileSystem := ⟨s.entries ++ [e]⟩

theorem findIndex_cases :
    (s.findIndex path = some none ∧ s.entry (trimSlash path) = none ∧
      s.erase (trimSlash path) = s) ∨
      ∃ index e, s.findIndex path = some (some index) ∧ s.entries[index]? = some e ∧
        s.entry (trimSlash path) = some e ∧
          s.erase (trimSlash path) = ⟨s.entries.eraseIdx index⟩ := by
  have hfind : s.findIndex path = some (s.entries.findIdx? (·.path = trimSlash path)) := by
    rw [findIndex, normalizePath_eq]
    rfl
  have herase := @List.eraseP_eq_eraseIdx _ s.entries (·.path = trimSlash path)
  have hentry := @List.find?_eq_bind_findIdx?_getElem? _ s.entries (·.path = trimSlash path)
  cases hindex : s.entries.findIdx? (·.path = trimSlash path) with
  | none =>
      rw [hindex] at hfind herase hentry
      exact .inl ⟨hfind, hentry, congrArg MemoryFileSystem.mk herase⟩
  | some index =>
      rw [hindex] at hfind herase hentry
      obtain ⟨hlt, -⟩ := List.findIdx?_eq_some_iff_getElem.mp hindex
      have hget := List.getElem?_eq_getElem hlt
      exact .inr ⟨index, _, hfind, hget, hentry.trans hget, congrArg MemoryFileSystem.mk herase⟩

theorem hasDirectory_eq : s.hasDirectory path = some (s.isDirectory (trimSlash path)) := by
  rcases s.findIndex_cases path with ⟨hfind, hentry, -⟩ | ⟨index, e, hfind, hget, hentry, -⟩
  · rw [hasDirectory, hfind, isDirectory, hentry]
    rfl
  · rw [hasDirectory, hfind, isDirectory, hentry]
    simp only [Option.bind_eq_bind, Option.bind_some, hget]

theorem upsert_eq (e : FsEntry) : s.upsert e = some ((s.erase (trimSlash e.path)).push e) := by
  rcases s.findIndex_cases e.path with ⟨hfind, -, herase⟩ | ⟨index, _, hfind, -, -, herase⟩
  · rw [upsert, hfind, herase]
    rfl
  · rw [upsert, hfind, herase]
    rfl

theorem insertIn_eq (parent : String) (e : FsEntry) : s.insertIn parent e =
    some (if s.isDirectory (trimSlash parent) then (.ok (), (s.erase (trimSlash e.path)).push e)
      else (.error (.fileSystemError ("missing parent directory: " ++ parent)), s)) := by
  rw [insertIn, hasDirectory_eq, upsert_eq]
  cases s.isDirectory (trimSlash parent) <;> rfl

/-- No entry of this path. -/
def noSuchPath : MulpError := .fileSystemError ("no such path: " ++ trimSlash path)

theorem stat_eq : s.stat path =
    some (match s.entry (key path) with
      | some e => .ok ⟨e.kind, e.path, unitLength e.contents⟩
      | none => .error (noSuchPath path)) := by
  rw [stat, normalizePath_eq, key]
  simp only [Option.bind_eq_bind, Option.bind_some]
  rcases s.findIndex_cases (trimSlash path) with ⟨hfind, hentry, -⟩ | ⟨index, e, hfind, hget, hentry, -⟩
  · simp only [hfind, hentry, Option.bind_some]
    rfl
  · simp only [hfind, hentry, hget, Option.bind_some]

theorem readFile_eq : s.readFile path =
    some (match s.entry (key path) with
      | some e =>
          if e.kind = .regularFile then .ok e.contents
          else .error (.fileSystemError ("not a file: " ++ trimSlash path))
      | none => .error (noSuchPath path)) := by
  rw [readFile, normalizePath_eq, key]
  simp only [Option.bind_eq_bind, Option.bind_some]
  rcases s.findIndex_cases (trimSlash path) with ⟨hfind, hentry, -⟩ | ⟨index, e, hfind, hget, hentry, -⟩
  · simp only [hfind, hentry, Option.bind_some]
    rfl
  · simp only [hfind, hentry, hget, Option.bind_some]
    split_ifs <;> rfl

/-- `delete` finds an entry below the directory, by the text of its path. Of the root that is any
other entry. -/
def guarded (path : String) : Bool :=
  s.entries.any fun entry => entry.path ≠ path && hasPrefix entry.path (if path = "/" then "/" else path ++ "/")

theorem delete_eq : s.delete path =
    some (match s.entry (key path) with
      | some e =>
          if e.kind = .directory && s.guarded (trimSlash path) then
            (.error (.fileSystemError ("directory not empty: " ++ trimSlash path)), s)
          else (.ok (), s.erase (key path))
      | none => (.error (noSuchPath path), s)) := by
  rw [delete, normalizePath_eq, key]
  simp only [Option.bind_eq_bind, Option.bind_some]
  rcases s.findIndex_cases (trimSlash path) with
    ⟨hfind, hentry, -⟩ | ⟨index, e, hfind, hget, hentry, herase⟩
  · simp only [hfind, hentry, Option.bind_some]
    rfl
  · simp only [hfind, hentry, hget, Option.bind_some, herase, guarded]
    split_ifs <;> rfl

/-! ## Entries -/

variable {s} {k k' : String} {e : FsEntry}

theorem entry_erase_self (h : Keyed.Distinct FsEntry.path s.entries) : (s.erase k).entry k = none :=
  h.lookup_remove_self k

theorem entry_erase_ne (h : k' ≠ k) : (s.erase k).entry k' = s.entry k' := Keyed.lookup_remove_ne h

theorem entry_push_self (h : s.entry e.path = none) : (s.push e).entry e.path = some e :=
  Keyed.lookup_concat_self h

theorem entry_push_ne (h : e.path ≠ k) : (s.push e).entry k = s.entry k := Keyed.lookup_concat_ne h

theorem isDirectory_eq_true :
    s.isDirectory k = true ↔ ∃ e, s.entry k = some e ∧ e.kind = .directory := by
  rw [isDirectory]
  cases s.entry k <;> simp

end Operations

/-! ## Trees -/

/-- No entry has its parent at the path, so that the path may become a file or go away without
leaving an entry that stands nowhere. -/
def Childless (s : MemoryFileSystem) (k : String) : Prop :=
  ∀ e ∈ s.entries, e.path ≠ "/" → ∀ parent, parentPath e.path = some parent → trimSlash parent ≠ k

/-- The root is a directory, paths are distinct, and every other entry stands in a directory. The
entries are a list of paths with their kinds, so all this is to be kept by the operations. -/
structure Tree (s : MemoryFileSystem) : Prop where
  root : s.hasDirectory "/" = some true
  distinct : Keyed.Distinct FsEntry.path s.entries
  parents : ∀ e ∈ s.entries, e.path ≠ "/" →
    ∃ parent, parentPath e.path = some parent ∧ s.hasDirectory parent = some true

section Tree

variable {s : MemoryFileSystem} {k path : String} {e : FsEntry}

theorem hasDirectory_iff :
    s.hasDirectory path = some true ↔ s.isDirectory (trimSlash path) = true := by
  rw [hasDirectory_eq, Option.some.injEq]

theorem tree_memoryFileSystem : Tree memoryFileSystem where
  root := by decide
  distinct := List.nodup_singleton _
  parents := by
    intro e he hne
    exact absurd (List.mem_singleton.mp he ▸ rfl) hne

/-- Only directories have entries in them. -/
theorem Tree.childless (h : Tree s) (hk : s.isDirectory k = false) : s.Childless k := by
  rintro e he hne parent hparent rfl
  obtain ⟨parent', hparent', hdirectory⟩ := h.parents e he hne
  rw [hparent] at hparent'
  cases hparent'
  rw [hasDirectory_iff, hk] at hdirectory
  exact Bool.false_ne_true hdirectory

theorem Tree.ne_root (h : Tree s) (hk : s.isDirectory k = false) : k ≠ "/" := by
  rintro rfl
  have hroot := hasDirectory_iff.mp h.root
  rw [trimSlash_root, hk] at hroot
  cases hroot

/-- The check of `delete` finds every entry in the directory. -/
theorem childless_of_guarded (hk : k ≠ "/") (h : s.guarded k = false) : s.Childless k := by
  rintro e he hne parent hparent rfl
  have hbelow : hasPrefix e.path (trimSlash parent ++ "/") = true :=
    (parentPath_below hparent).resolve_left hk
  have hguarded : s.guarded (trimSlash parent) = true := by
    rw [guarded, List.any_eq_true]
    refine ⟨e, he, ?_⟩
    rw [if_neg hk, hbelow, Bool.and_true]
    exact decide_eq_true (ne_of_below hbelow)
  exact Bool.false_ne_true (h.symm.trans hguarded)

/-- A path is not its own parent. -/
theorem parent_ne {parent : String} (hroot : path ≠ "/") (hparent : parentPath path = some parent) :
    path ≠ trimSlash parent := by
  rcases parentPath_below hparent with hslash | hbelow
  · rwa [hslash]
  · exact ne_of_below hbelow

/-- No entry is in its own directory, so it does not matter if that one is gone. -/
theorem Childless.of_kept {s' : MemoryFileSystem} (h : s'.Childless k)
    (hkept : ∀ e ∈ s.entries, e.path ≠ k → e ∈ s'.entries) : s.Childless k := by
  intro e he hne parent hparent hsame
  have hother : e.path ≠ k := by
    rw [← hsame]
    exact parent_ne hne hparent
  exact h e (hkept e he hother) hne parent hparent hsame

/-- An entry that no other one stands in can be taken away. -/
theorem Tree.erase (h : Tree s) (hk : k ≠ "/") (hchildless : s.Childless k) : Tree (s.erase k) where
  root := by
    have hroot := hasDirectory_iff.mp h.root
    rw [hasDirectory_iff, trimSlash_root, isDirectory, entry_erase_ne (Ne.symm hk)]
    exact hroot
  distinct := h.distinct.remove k
  parents := by
    intro e he hne
    have hmem := Keyed.mem_of_mem_remove he
    obtain ⟨parent, hparent, hdirectory⟩ := h.parents e hmem hne
    refine ⟨parent, hparent, ?_⟩
    rw [hasDirectory_iff] at hdirectory ⊢
    rw [isDirectory, entry_erase_ne (hchildless e hmem hne parent hparent)]
    exact hdirectory

/-- An entry can be put into a directory, in the place of one that is no directory
with entries, or as a directory. -/
theorem Tree.put (h : Tree s) (hroot : e.path ≠ "/") {parent : String}
    (hparent : parentPath e.path = some parent)
    (hdirectory : s.isDirectory (trimSlash parent) = true)
    (hkind : e.kind = .directory ∨ s.Childless e.path) : Tree ((s.erase e.path).push e) := by
  have hnone : (s.erase e.path).entry e.path = none := entry_erase_self h.distinct
  have hother {k : String} (hk : e.path ≠ k) (hdir : s.isDirectory k = true) :
      ((s.erase e.path).push e).isDirectory k = true := by
    rwa [isDirectory, entry_push_ne hk, entry_erase_ne (Ne.symm hk)]
  refine ⟨hasDirectory_iff.mpr (hother hroot (hasDirectory_iff.mp h.root)),
    (h.distinct.remove e.path).concat hnone, ?_⟩
  intro other hmem hne
  rcases List.mem_append.mp hmem with hmem | hmem
  · have hmem := Keyed.mem_of_mem_remove hmem
    obtain ⟨above, habove, habovedir⟩ := h.parents other hmem hne
    refine ⟨above, habove, hasDirectory_iff.mpr ?_⟩
    rw [hasDirectory_iff] at habovedir
    by_cases hsame : e.path = trimSlash above
    · -- the parent is replaced, by a directory
      have hkept : e.kind = .directory :=
        hkind.resolve_right fun hchildless => hchildless other hmem hne above habove hsame.symm
      rw [← hsame]
      exact isDirectory_eq_true.mpr ⟨e, entry_push_self hnone, hkept⟩
    · exact hother hsame habovedir
  · rw [List.mem_singleton.mp hmem]
    exact ⟨parent, hparent, hasDirectory_iff.mpr (hother (parent_ne hroot hparent) hdirectory)⟩

end Tree

/-! ## Operations -/

inductive FsOp where
  | mkdir (path : String)
  | writeFile (path contents : String)
  | delete (path : String)

def FsOp.path : FsOp → String
  | .mkdir path => path
  | .writeFile path _ => path
  | .delete path => path

def step (s : MemoryFileSystem) : FsOp → Option (Except MulpError Unit × MemoryFileSystem)
  | .mkdir path => s.mkdir path
  | .writeFile path contents => s.writeFile path contents
  | .delete path => s.delete path

/-- What is there after a successful operation: the directory, the file with its text, or nothing.
-/
def Shown (s' : MemoryFileSystem) : FsOp → Prop
  | .mkdir path => ∃ st, s'.stat path = some (.ok st) ∧ st.kind = .directory
  | .writeFile path contents => s'.readFile path = some (.ok contents) ∧
      ∃ st, s'.stat path = some (.ok st) ∧ st.kind = .regularFile
  | .delete path => ∃ err, s'.stat path = some (.error err)

/-- A failed operation changes nothing, a successful one only what is reported of its own path. Two
texts that differ by a slash at the end are one path to the operations. -/
structure Reported (s : MemoryFileSystem) (op : FsOp) (r : Except MulpError Unit)
    (s' : MemoryFileSystem) : Prop where
  failed : ∀ err, r = .error err → s' = s
  shown : r = .ok () → s'.Shown op
  others : r = .ok () → ∀ path, key path ≠ key op.path → ∀ st, s.stat path = some (.ok st) →
    s'.stat path = s.stat path ∧ s'.readFile path = s.readFile path

/-- The directory that an entry of this path goes into is there. -/
def ParentThere (s : MemoryFileSystem) (path : String) : Prop :=
  ∃ parent, parentPath (trimSlash path) = some parent ∧ s.hasDirectory parent = some true

/-- Where its parent is there, a path to make or write ends in at most one slash,
and a path to write is not that of a directory with entries. What is deleted is
not the root and, where the check for entries is made with another path, no
directory with entries. -/
def Careful (s : MemoryFileSystem) : FsOp → Prop
  | .mkdir path => s.ParentThere path → key path = trimSlash path
  | .writeFile path _ => s.ParentThere path → key path = trimSlash path ∧ trimSlash path ≠ "/" ∧
      (s.hasDirectory (trimSlash path) = some true → s.Childless (trimSlash path))
  | .delete path => s.hasDirectory (trimSlash path) = some true → s.guarded (trimSlash path) = true ∨
      key path ≠ "/" ∧ (key path = trimSlash path ∨ s.Childless (key path))

section Step

variable {s s' : MemoryFileSystem} {path parent : String} {e : FsEntry} {r : Except MulpError Unit}

/-- An operation that fails keeps the tree. -/
theorem reported_error (op : FsOp) (err : MulpError) : Reported s op (.error err) s :=
  ⟨fun _ _ => rfl, nofun, nofun⟩

/-- What is reported of a path rests on its entry. -/
theorem reported_eq (h : s'.entry (key path) = s.entry (key path)) :
    s'.stat path = s.stat path ∧ s'.readFile path = s.readFile path := by
  rw [stat_eq, stat_eq, readFile_eq, readFile_eq, h]
  exact ⟨rfl, rfl⟩

theorem insertIn_cases (h : s.insertIn parent e = some (r, s')) :
    (s.isDirectory (trimSlash parent) = true ∧ r = .ok () ∧
      s' = (s.erase (trimSlash e.path)).push e) ∨
      s.isDirectory (trimSlash parent) = false ∧ (∃ err, r = .error err) ∧ s' = s := by
  rw [insertIn_eq, Option.some.injEq] at h
  cases hdirectory : s.isDirectory (trimSlash parent) with
  | true =>
      rw [hdirectory, if_pos rfl, Prod.mk.injEq] at h
      exact .inl ⟨rfl, h.1.symm, h.2.symm⟩
  | false =>
      rw [hdirectory, if_neg Bool.false_ne_true, Prod.mk.injEq] at h
      exact .inr ⟨rfl, ⟨_, h.1.symm⟩, h.2.symm⟩

/-- The parent of an operation that goes on to `insertIn`. -/
theorem parentThere_iff (hparent : parentPath (trimSlash path) = some parent) :
    s.ParentThere path ↔ s.isDirectory (trimSlash parent) = true := by
  rw [← hasDirectory_iff]
  constructor
  · rintro ⟨parent', hparent', hdirectory⟩
    rw [hparent] at hparent'
    cases hparent'
    exact hdirectory
  · intro hdirectory
    exact ⟨parent, hparent, hdirectory⟩

/-- An entry that has been put is found. -/
theorem entry_put_self (h : Tree s) (heq : trimSlash e.path = e.path) :
    ((s.erase (trimSlash e.path)).push e).entry (trimSlash e.path) = some e := by
  have hnone : (s.erase (trimSlash e.path)).entry (trimSlash e.path) = none :=
    entry_erase_self h.distinct
  rw [heq] at hnone ⊢
  exact entry_push_self hnone

/-- An entry whose path ends in a slash is not. -/
theorem entry_put_ne (h : Tree s) (hne : trimSlash e.path ≠ e.path) :
    ((s.erase (trimSlash e.path)).push e).entry (trimSlash e.path) = none := by
  rw [entry_push_ne (Ne.symm hne)]
  exact entry_erase_self h.distinct

/-- What is reported of other paths when an entry has been put. -/
theorem others_put (heq : trimSlash e.path = e.path) (hpath : trimSlash path = e.path)
    {other : String} (hother : key other ≠ key path) :
    ((s.erase (trimSlash e.path)).push e).entry (key other) = s.entry (key other) := by
  have hkey : key path = e.path := by rw [key, hpath, heq]
  have hne : key other ≠ e.path := by rwa [hkey] at hother
  rw [entry_push_ne (Ne.symm hne), heq, entry_erase_ne hne]

theorem mkdir_iff (h : Tree s) (hstep : s.mkdir path = some (r, s')) :
    Careful s (.mkdir path) ↔ Tree s' ∧ Reported s (.mkdir path) r s' := by
  rw [mkdir, normalizePath_eq, Option.bind_eq_bind, Option.bind_some,
    Option.bind_eq_some_iff] at hstep
  obtain ⟨parent, hparent, hstep⟩ := hstep
  rw [Careful, parentThere_iff hparent]
  split_ifs at hstep with hroot
  · -- the root stays as it is
    cases hstep
    obtain ⟨e, hentry, hkind⟩ := isDirectory_eq_true.mp (hasDirectory_iff.mp h.root)
    have hkey : key path = "/" := by rw [key, hroot, trimSlash_root]
    refine iff_of_true (fun _ => by rw [hkey, hroot])
      ⟨h, nofun, fun _ => ?_, fun _ _ _ _ _ => ⟨rfl, rfl⟩⟩
    rw [trimSlash_root] at hentry
    exact ⟨_, by rw [stat_eq, hkey, hentry], hkind⟩
  · generalize he : FsEntry.mk (trimSlash path) .directory "" = e at hstep
    have hpath : e.path = trimSlash path := by rw [← he]
    have hkind : e.kind = .directory := by rw [← he]
    rcases insertIn_cases hstep with ⟨hdirectory, rfl, rfl⟩ | ⟨hdirectory, ⟨err, rfl⟩, rfl⟩
    · have hkey : key path = trimSlash e.path := by rw [key, hpath]
      rw [hkey, ← hpath]
      constructor
      · intro hcareful
        have heq := hcareful hdirectory
        have htree := h.put (by rwa [hpath]) (by rwa [hpath]) hdirectory (.inl hkind)
        refine ⟨by rwa [heq], nofun, fun _ => ⟨⟨e.kind, e.path, unitLength e.contents⟩, ?_, hkind⟩,
          fun _ other hother _ _ => ?_⟩
        · rw [stat_eq, hkey, entry_put_self h heq]
        · exact reported_eq (others_put heq hpath.symm hother)
      · rintro ⟨-, hreported⟩ -
        by_contra hne
        obtain ⟨st, hstat, -⟩ := hreported.shown rfl
        rw [stat_eq, hkey, entry_put_ne h hne] at hstat
        cases hstat
    · rw [hdirectory]
      exact iff_of_true nofun ⟨h, reported_error _ err⟩

theorem writeFile_iff {contents : String} (h : Tree s)
    (hstep : s.writeFile path contents = some (r, s')) :
    Careful s (.writeFile path contents) ↔
      Tree s' ∧ Reported s (.writeFile path contents) r s' := by
  rw [writeFile, normalizePath_eq, Option.bind_eq_bind, Option.bind_some,
    Option.bind_eq_some_iff] at hstep
  obtain ⟨parent, hparent, hstep⟩ := hstep
  rw [Careful, parentThere_iff hparent]
  generalize he : FsEntry.mk (trimSlash path) .regularFile contents = e at hstep
  have hpath : e.path = trimSlash path := by rw [← he]
  have hkind : e.kind = .regularFile := by rw [← he]
  have hcontents : e.contents = contents := by rw [← he]
  rcases insertIn_cases hstep with ⟨hdirectory, rfl, rfl⟩ | ⟨hdirectory, ⟨err, rfl⟩, rfl⟩
  · have hkey : key path = trimSlash e.path := by rw [key, hpath]
    rw [hkey, ← hpath, hasDirectory_iff]
    constructor
    · intro hcareful
      obtain ⟨heq, hroot, hchildless⟩ := hcareful hdirectory
      have hchildless : s.Childless e.path := by
        by_cases hold : s.isDirectory e.path = true
        · exact hchildless (by rwa [heq])
        · exact h.childless (Bool.eq_false_iff.mpr hold)
      have htree := h.put hroot (by rwa [hpath]) hdirectory (.inr hchildless)
      refine ⟨by rwa [heq], nofun,
        fun _ => ⟨?_, ⟨e.kind, e.path, unitLength e.contents⟩, ?_, hkind⟩,
        fun _ other hother _ _ => ?_⟩
      · rw [readFile_eq, hkey, entry_put_self h heq]
        simp only [hkind, if_true, hcontents]
      · rw [stat_eq, hkey, entry_put_self h heq]
      · exact reported_eq (others_put heq hpath.symm hother)
    · rintro ⟨htree, hreported⟩ -
      have heq : trimSlash e.path = e.path := by
        by_contra hne
        obtain ⟨-, st, hstat, -⟩ := hreported.shown rfl
        rw [stat_eq, hkey, entry_put_ne h hne] at hstat
        cases hstat
      have hfile : ((s.erase (trimSlash e.path)).push e).isDirectory (trimSlash e.path) =
          false := by
        rw [isDirectory, entry_put_self h heq]
        simp [hkind]
      -- below a file there are no entries, so there were none before it was put
      have hchildless : s.Childless (trimSlash e.path) := by
        apply (htree.childless hfile).of_kept
        intro child hchild hother
        exact List.mem_append_left [e] ((Keyed.mem_remove_of_ne hother).mpr hchild)
      have hroot := htree.ne_root hfile
      rw [heq] at hroot hchildless
      exact ⟨heq, hroot, fun _ => hchildless⟩
  · rw [hdirectory]
    exact iff_of_true nofun ⟨h, reported_error _ err⟩

/-- A deleted entry is not the root and has no entries in it. -/
theorem Careful.childless (h : Tree s) (hcareful : s.Careful (.delete path))
    (hentry : s.entry (key path) = some e)
    (hguarded : ¬ (e.kind = .directory && s.guarded (trimSlash path)) = true) :
    key path ≠ "/" ∧ s.Childless (key path) := by
  by_cases hkind : e.kind = .directory
  · have hdirectory : s.isDirectory (key path) = true := isDirectory_eq_true.mpr ⟨e, hentry, hkind⟩
    have hunguarded : s.guarded (trimSlash path) = false := by
      rw [hkind, decide_eq_true rfl, Bool.true_and] at hguarded
      exact Bool.eq_false_iff.mpr hguarded
    rcases hcareful (hasDirectory_iff.mpr hdirectory) with hguard | ⟨hroot, hkey | hchildless⟩
    · exact absurd (hunguarded.symm.trans hguard) Bool.false_ne_true
    · rw [hkey] at hroot ⊢
      exact ⟨hroot, childless_of_guarded hroot hunguarded⟩
    · exact ⟨hroot, hchildless⟩
  · have hfile : s.isDirectory (key path) = false := by
      rw [isDirectory, hentry, Option.any_some, decide_eq_false hkind]
    exact ⟨h.ne_root hfile, h.childless hfile⟩

theorem delete_iff (h : Tree s) (hstep : s.delete path = some (r, s')) :
    Careful s (.delete path) ↔ Tree s' ∧ Reported s (.delete path) r s' := by
  rw [delete_eq, Option.some.injEq] at hstep
  cases hentry : s.entry (key path) with
  | none =>
      rw [hentry] at hstep
      cases hstep
      refine iff_of_true (fun hdirectory => ?_) ⟨h, reported_error _ _⟩
      rw [hasDirectory_iff, ← key, isDirectory, hentry] at hdirectory
      cases hdirectory
  | some e =>
      rw [hentry] at hstep
      dsimp only at hstep
      split_ifs at hstep with hguarded
      · cases hstep
        rw [Bool.and_eq_true] at hguarded
        exact iff_of_true (fun _ => .inl hguarded.2) ⟨h, reported_error _ _⟩
      · cases hstep
        -- the entry is gone, and with it the directory it may have been
        have hnone : (s.erase (key path)).entry (key path) = none := entry_erase_self h.distinct
        have hgone : (s.erase (key path)).isDirectory (key path) = false := by
          rw [isDirectory, hnone]; rfl
        constructor
        · intro hcareful
          obtain ⟨hroot, hchildless⟩ := hcareful.childless h hentry hguarded
          refine ⟨h.erase hroot hchildless, nofun, fun _ => ⟨noSuchPath path, ?_⟩,
            fun _ other hother _ _ => reported_eq (entry_erase_ne hother)⟩
          rw [stat_eq, hnone]
        · rintro ⟨htree, -⟩ -
          refine .inr ⟨htree.ne_root hgone,
            .inr ((htree.childless hgone).of_kept fun child hchild hother => ?_)⟩
          exact (Keyed.mem_remove_of_ne hother).mpr hchild

/-- A step keeps the tree and does what it reports exactly if it is careful. -/
theorem step_iff {op : FsOp} (h : Tree s) (hstep : s.step op = some (r, s')) :
    Careful s op ↔ Tree s' ∧ Reported s op r s' := by
  cases op with
  | mkdir path => exact mkdir_iff h hstep
  | writeFile path contents => exact writeFile_iff h hstep
  | delete path => exact delete_iff h hstep

end Step

/-! ## Runs -/

/-- The states of the runs that begin with `memory_file_system()` and in which all
steps are careful. -/
inductive Reaches : MemoryFileSystem → Prop
  | start : Reaches memoryFileSystem
  | step {s s' : MemoryFileSystem} {op : FsOp} {r : Except MulpError Unit} (h : Reaches s)
      (hcareful : s.Careful op) (hstep : s.step op = some (r, s')) : Reaches s'

theorem Reaches.tree {s : MemoryFileSystem} (h : Reaches s) : Tree s := by
  induction h with
  | start => exact tree_memoryFileSystem
  | step _ hcareful hstep ih => exact ((step_iff ih hstep).mp hcareful).1

/-- In a run of careful steps every state is a tree, and a further step keeps that
and does what it reports exactly if it is careful too. -/
theorem memoryFileSystem_tree {s : MemoryFileSystem} (h : Reaches s) : Tree s ∧
    ∀ op r s', s.step op = some (r, s') → (s.Careful op ↔ Tree s' ∧ Reported s op r s') :=
  ⟨h.tree, fun _ _ _ hstep => step_iff h.tree hstep⟩

def root : FsEntry := ⟨"/", .directory, ""⟩

theorem memoryFileSystem_tree_mkdir : Tree ⟨[root, ⟨"/a", .directory, ""⟩]⟩ ∧
    ∀ op r s', step ⟨[root, ⟨"/a", .directory, ""⟩]⟩ op = some (r, s') →
      (Careful ⟨[root, ⟨"/a", .directory, ""⟩]⟩ op ↔
        Tree s' ∧ Reported ⟨[root, ⟨"/a", .directory, ""⟩]⟩ op r s') :=
  memoryFileSystem_tree (@Reaches.step memoryFileSystem _ (.mkdir "/a") (.ok ()) .start (fun _ => rfl) rfl)

/-- The root can be deleted, a file can be written over a directory with its entries
in it, and what is made at a path that ends in two slashes is not found there. -/
theorem exists_not_tree :
    (∃ s, memoryFileSystem.step (.delete "/") = some (.ok (), s) ∧ ¬ Tree s) ∧
      (∃ s₁ s₂ s₃, memoryFileSystem.step (.mkdir "/a") = some (.ok (), s₁) ∧
        s₁.step (.writeFile "/a/b" "x") = some (.ok (), s₂) ∧
        s₂.step (.writeFile "/a" "y") = some (.ok (), s₃) ∧ ¬ Tree s₃) ∧
      ∃ s, memoryFileSystem.step (.mkdir "/a//") = some (.ok (), s) ∧ ¬ s.Shown (.mkdir "/a//") := by
  refine ⟨⟨⟨[]⟩, rfl, fun h => ?_⟩, ⟨_, _, _, rfl, rfl, rfl, fun h => ?_⟩, _, rfl, fun h => ?_⟩
  · exact absurd h.root (by decide)
  · obtain ⟨parent, hparent, hdirectory⟩ :=
      h.parents ⟨"/a/b", .regularFile, "x"⟩ (.tail _ (.head _)) (by decide)
    have ha : parentPath "/a/b" = some "/a" := by decide
    rw [ha] at hparent
    cases hparent
    exact absurd hdirectory (by decide)
  · obtain ⟨st, hstat, -⟩ := h
    rw [stat_eq] at hstat
    cases hstat

end MemoryFileSystem

end Mulp.Platform
