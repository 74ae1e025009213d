import Mulp.Core.Error
import Mulp.Text.Substring

/-! The file system in memory (`platform/fs.mbt`), with the slices that it takes of
paths. -/
namespace Mulp.Platform

open Mulp.Core Mulp.Text

inductive FileKind where
  | regularFile
  | directory
  deriving DecidableEq

structure FileStat where
  kind : FileKind
  path : String
  size : Nat

structure FsEntry where
  path : String
  kind : FileKind
  contents : String

structure MemoryFileSystem where
  entries : List FsEntry

def memoryFileSystem : MemoryFileSystem := ⟨[⟨"/", .directory, ""⟩]⟩

namespace MemoryFileSystem

def normalizePath (path : String) : Option String :=
  if path ≠ "/" && hasSuffix path "/" then slice path 0 (unitLength path - 1) else some path

/-- The loop of `parent_path`, from the index below `n` down. -/
def parentFrom (path : String) : Nat → Option String
  | 0 => some "/"
  | index + 1 => do
      let part ← slice path index (index + 1)
      if part = "/" then
        if index = 0 then some "/" else slice path 0 index
      else parentFrom path index

def parentPath (path : String) : Option String := do
  let path ← normalizePath path
  parentFrom path (unitLength path)

def findIndex (self : MemoryFileSystem) (path : String) : Option (Option Nat) := do
  let path ← normalizePath path
  some (self.entries.findIdx? (·.path = path))

def hasDirectory (self : MemoryFileSystem) (path : String) : Option Bool := do
  match ← self.findIndex path with
  | some index => some (self.entries[index]?.any (·.kind = .directory))
  | none => some false

def upsert (self : MemoryFileSystem) (entry : FsEntry) : Option MemoryFileSystem := do
  match ← self.findIndex entry.path with
  | some index => some ⟨self.entries.eraseIdx index ++ [entry]⟩
  | none => some ⟨self.entries ++ [entry]⟩

/-- The end of `mkdir` and of `write_file`, in a parent that is a directory. -/
def insertIn (self : MemoryFileSystem) (parent : String) (entry : FsEntry) :
    Option (Except MulpError Unit × MemoryFileSystem) := do
  let found ← self.hasDirectory parent
  if !found then some (.error (.fileSystemError ("missing parent directory: " ++ parent)), self)
  else
    let next ← self.upsert entry
    some (.ok (), next)

def mkdir (self : MemoryFileSystem) (path : String) : Option (Except MulpError Unit × MemoryFileSystem) := do
  let path ← normalizePath path
  let parent ← parentPath path
  if path = "/" then some (.ok (), self) else self.insertIn parent ⟨path, .directory, ""⟩

def writeFile (self : MemoryFileSystem) (path contents : String) :
    Option (Except MulpError Unit × MemoryFileSystem) := do
  let path ← normalizePath path
  let parent ← parentPath path
  self.insertIn parent ⟨path, .regularFile, contents⟩

def readFile (self : MemoryFileSystem) (path : String) : Option (Except MulpError String) := do
  let path ← normalizePath path
  match ← self.findIndex path with
  | some index =>
      match self.entries[index]? with
      | some entry =>
          if entry.kind = .regularFile then some (.ok entry.contents)
          else some (.error (.fileSystemError ("not a file: " ++ path)))
      | none => none
  | none => some (.error (.fileSystemError ("no such path: " ++ path)))

def stat (self : MemoryFileSystem) (path : String) : Option (Except MulpError FileStat) := do
  let path ← normalizePath path
  match ← self.findIndex path with
  | some index =>
      match self.entries[index]? with
      | some entry => some (.ok ⟨entry.kind, entry.path, unitLength entry.contents⟩)
      | none => none
  | none => some (.error (.fileSystemError ("no such path: " ++ path)))

def delete (self : MemoryFileSystem) (path : String) : Option (Except MulpError Unit × MemoryFileSystem) := do
  let path ← normalizePath path
  match ← self.findIndex path with
  | some index =>
      match self.entries[index]? with
      | some found =>
          let below := if path = "/" then "/" else path ++ "/"
          if found.kind = .directory &&
              self.entries.any fun entry => entry.path ≠ path && hasPrefix entry.path below then
            some (.error (.fileSystemError ("directory not empty: " ++ path)), self)
          else some (.ok (), ⟨self.entries.eraseIdx index⟩)
      | none => none
  | none => some (.error (.fileSystemError ("no such path: " ++ path)), self)

/-! ## On paths without pairs no operation aborts -/

variable {path : String}

theorem exists_normalizePath (h : IsBmp path) :
    ∃ normalized, normalizePath path = some normalized ∧ IsBmp normalized := by
  rw [normalizePath]
  split_ifs
  · exact h.exists_slice (Nat.zero_le _) (Nat.sub_le _ 1)
  · exact ⟨path, rfl, h⟩

theorem exists_parentFrom (h : IsBmp path) {n : Nat} (hn : n ≤ unitLength path) :
    ∃ parent, parentFrom path n = some parent ∧ IsBmp parent := by
  have hroot : IsBmp "/" := by decide
  induction n with
  | zero => exact ⟨"/", rfl, hroot⟩
  | succ index ih =>
      obtain ⟨part, hpart, -⟩ := h.exists_slice (Nat.le_succ index) hn
      rw [parentFrom, hpart, Option.bind_eq_bind, Option.bind_some]
      split_ifs
      · exact ⟨"/", rfl, hroot⟩
      · exact h.exists_slice (Nat.zero_le _) (Nat.le_of_succ_le hn)
      · exact ih (Nat.le_of_succ_le hn)

theorem exists_parentPath (h : IsBmp path) :
    ∃ parent, parentPath path = some parent ∧ IsBmp parent := by
  obtain ⟨normalized, hnormalized, hbmp⟩ := exists_normalizePath h
  rw [parentPath, hnormalized]
  exact exists_parentFrom hbmp (Nat.le_refl _)

variable (self : MemoryFileSystem)

/-- What is found is the index of an entry. -/
theorem exists_findIndex (h : IsBmp path) :
    ∃ found, self.findIndex path = some found ∧
      ∀ index ∈ found, ∃ entry, self.entries[index]? = some entry := by
  obtain ⟨normalized, hnormalized, -⟩ := exists_normalizePath h
  refine ⟨_, by rw [findIndex, hnormalized]; rfl, fun index hindex => ?_⟩
  obtain ⟨hlt, -⟩ := List.findIdx?_eq_some_iff_getElem.mp hindex
  exact ⟨_, List.getElem?_eq_getElem hlt⟩

theorem exists_insertIn {parent : String} {entry : FsEntry} (hparent : IsBmp parent)
    (h : IsBmp entry.path) :
    ∃ result, self.insertIn parent entry = some result := by
  obtain ⟨found, hfound, -⟩ := self.exists_findIndex hparent
  obtain ⟨old, hold, -⟩ := self.exists_findIndex h
  have hdirectory : ∃ directory, self.hasDirectory parent = some directory :=
    exists_bind hfound (by cases found <;> exact ⟨_, rfl⟩)
  have hupsert : ∃ next, self.upsert entry = some next :=
    exists_bind hold (by cases old <;> exact ⟨_, rfl⟩)
  obtain ⟨directory, hdirectory⟩ := hdirectory
  obtain ⟨next, hnext⟩ := hupsert
  refine exists_bind hdirectory ?_
  split_ifs
  · exact ⟨_, rfl⟩
  · exact exists_bind hnext ⟨_, rfl⟩

theorem exists_mkdir (h : IsBmp path) : ∃ result, self.mkdir path = some result := by
  obtain ⟨normalized, hnormalized, hbmp⟩ := exists_normalizePath h
  obtain ⟨parent, hparent, hparentBmp⟩ := exists_parentPath hbmp
  refine exists_bind hnormalized (exists_bind hparent ?_)
  split_ifs
  · exact ⟨_, rfl⟩
  · exact self.exists_insertIn hparentBmp hbmp

theorem exists_writeFile (h : IsBmp path) (contents : String) :
    ∃ result, self.writeFile path contents = some result := by
  obtain ⟨normalized, hnormalized, hbmp⟩ := exists_normalizePath h
  obtain ⟨parent, hparent, hparentBmp⟩ := exists_parentPath hbmp
  exact exists_bind hnormalized (exists_bind hparent (self.exists_insertIn hparentBmp hbmp))

/-- The entry of a path, if there is one. -/
theorem exists_entry (h : IsBmp path) :
    ∃ normalized, normalizePath path = some normalized ∧
      (self.findIndex normalized = some none ∨
        ∃ index entry, self.findIndex normalized = some (some index) ∧
          self.entries[index]? = some entry) := by
  obtain ⟨normalized, hnormalized, hbmp⟩ := exists_normalizePath h
  refine ⟨normalized, hnormalized, ?_⟩
  obtain ⟨found, hfound, hentry⟩ := self.exists_findIndex hbmp
  cases found with
  | none => exact .inl hfound
  | some index =>
      obtain ⟨entry, hentry⟩ := hentry index rfl
      exact .inr ⟨index, entry, hfound, hentry⟩

theorem exists_readFile (h : IsBmp path) : ∃ result, self.readFile path = some result := by
  obtain ⟨normalized, hnormalized, hnone | ⟨index, entry, hfound, hentry⟩⟩ := self.exists_entry h
  · exact exists_bind hnormalized (exists_bind hnone ⟨_, rfl⟩)
  · refine exists_bind hnormalized (exists_bind hfound ?_)
    simp only [hentry]
    split_ifs <;> exact ⟨_, rfl⟩

theorem exists_stat (h : IsBmp path) : ∃ result, self.stat path = some result := by
  obtain ⟨normalized, hnormalized, hnone | ⟨index, entry, hfound, hentry⟩⟩ := self.exists_entry h
  · exact exists_bind hnormalized (exists_bind hnone ⟨_, rfl⟩)
  · refine exists_bind hnormalized (exists_bind hfound ?_)
    simp only [hentry]
    exact ⟨_, rfl⟩

theorem exists_delete (h : IsBmp path) : ∃ result, self.delete path = some result := by
  obtain ⟨normalized, hnormalized, hnone | ⟨index, entry, hfound, hentry⟩⟩ := self.exists_entry h
  · exact exists_bind hnormalized (exists_bind hnone ⟨_, rfl⟩)
  · refine exists_bind hnormalized (exists_bind hfound ?_)
    simp only [hentry]
    split_ifs <;> exact ⟨_, rfl⟩

end MemoryFileSystem

end Mulp.Platform
