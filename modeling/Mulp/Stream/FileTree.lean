import Mathlib.Data.List.TakeWhile
import Mathlib.Tactic.SplitIfs
import Mulp.Text.Path

/-! Trees of files, and what the native calls find in one
(`stream/file_reader_stub.c`, `vinyl_fs/vinyl_fs_stub.c`).

There are no symbolic links, so that `lstat` is `stat`. -/
namespace Mulp.Stream

open Mulp.Text Lexical

inductive EntryKind where
  | file
  | directory
  | other
  deriving DecidableEq

/-- The fields of a `struct stat` that are read; times are in seconds. -/
structure Stat where
  kind : EntryKind
  size : Int
  mtime : Int
  mode : Nat
  ctime : Int

/-- The entries of a tree, by their names from the root on. -/
structure FileTree where
  entry : List String → Option Stat
  root : ∃ stat, entry [] = some stat ∧ stat.kind = .directory
  parent : ∀ names name, (entry (names ++ [name])).isSome →
    ∃ stat, entry names = some stat ∧ stat.kind = .directory
  named : ∀ names, (entry names).isSome → ∀ name ∈ names, IsName name ∧ '\x00' ∉ name.toList

/-- The text of `mulp_vinyl_fs_metadata_bytes`: the kind, the size, the times in milliseconds and
the mode in octal digits, a line each. -/
def Stat.text (stat : Stat) : String :=
  let kind :=
    match stat.kind with
    | .file => "file"
    | .directory => "directory"
    | .other => "other"
  kind ++ "\n" ++ toString stat.size ++ "\n" ++ toString (stat.mtime * 1000) ++ "\n" ++
    String.ofList (Nat.toDigits 8 (stat.mode % 4096)) ++ "\n" ++ toString (stat.ctime * 1000) ++ "\n"

/-- A path as a native call reads it, up to a null character. -/
def cString (path : String) : String := String.ofList (path.toList.takeWhile (· ≠ '\x00'))

/-- The place that a path denotes, by its text. -/
def place (pwd : List String) (path : String) : List String :=
  let l := location path
  if l.rooted then l.pos.names else ((⟨0, pwd⟩ : Pos String).walk true l.pos.steps).names

section Place

variable {pwd : List String} {path : String}

theorem place_rooted (h : hasPrefix path "/" = true) :
    place pwd path = (location path).pos.names := by
  have hrooted : (location path).rooted = true := h
  simp only [place, hrooted, if_true]

/-- A relative path leaves names of the directory it starts in. -/
theorem place_relative (h : hasPrefix path "/" = false) :
    place pwd path =
      pwd.take (pwd.length - (location path).pos.ups) ++ (location path).pos.names := by
  have hrooted : (location path).rooted = false := h
  simp only [place, hrooted, Bool.false_eq_true, if_false]
  exact Pos.names_walk_steps true ⟨0, pwd⟩ (location path).pos

end Place

namespace FileTree

variable (t : FileTree)

def isDirectory (names : List String) : Bool :=
  match t.entry names with
  | some stat => stat.kind = .directory
  | none => false

/-- Follow the segments of a path; only directories are searched. -/
def follow (t : FileTree) (names : List String) : List String → Option (List String)
  | [] => some names
  | segment :: rest =>
      if t.isDirectory names then
        match stepOf segment with
        | .stay => follow t names rest
        | .up => follow t names.dropLast rest
        | .down name =>
            if (t.entry (names ++ [name])).isSome then follow t (names ++ [name]) rest else none
      else none

/-- The entry at a path, for a process with this working directory. -/
def resolve (pwd : List String) (path : String) : Option (List String) :=
  let path := cString path
  if path = "" then none
  else t.follow (if hasPrefix path "/" then [] else pwd) (splitSlash path)

/-- `mulp_vinyl_fs_stat_metadata` and `mulp_file_metadata_bytes`; the text is empty
if the call fails. -/
def metadataText (pwd : List String) (path : String) : String :=
  match (t.resolve pwd path).bind t.entry with
  | some stat => stat.text
  | none => ""

/-! ## The text and the place -/

variable {t} {pwd names names' : List String} {path : String}

theorem walk_names (names : List String) (segment : String) :
    (⟨0, names⟩ : Pos String).step true (stepOf segment) =
      match stepOf segment with
      | .stay => ⟨0, names⟩
      | .up => ⟨0, names.dropLast⟩
      | .down name => ⟨0, names ++ [name]⟩ := by
  cases stepOf segment with
  | stay => rfl
  | up => cases names <;> rfl
  | down name => rfl

theorem follow_eq_walk {segments : List String} (h : t.follow names segments = some names') :
    ⟨0, names'⟩ = (⟨0, names⟩ : Pos String).walk true (segments.map stepOf) := by
  induction segments generalizing names with
  | nil => exact congrArg _ (Option.some.inj h).symm
  | cons segment rest ih =>
      rw [follow] at h
      rw [List.map_cons, Pos.walk_cons, walk_names]
      split at h
      · cases hstep : stepOf segment with
        | stay =>
            rw [hstep] at h
            exact ih h
        | up =>
            rw [hstep] at h
            exact ih h
        | down name =>
            simp only [hstep] at h
            split at h
            · exact ih h
            · cases h
      · cases h

/-- What a path leads to is the place it denotes. -/
theorem resolve_eq_place (hpath : '\x00' ∉ path.toList) (h : t.resolve pwd path = some names) :
    names = place pwd path := by
  have hcString : cString path = path := by
    have hall : path.toList.takeWhile (· ≠ '\x00') = path.toList :=
      List.takeWhile_eq_self_iff.mpr fun c hc => by
        rw [decide_eq_true_eq]
        rintro rfl
        exact hpath hc
    rw [cString, hall, String.ofList_toList]
  rw [resolve, hcString] at h
  split_ifs at h with hempty hrooted
  · have hwalk := follow_eq_walk h
    rw [place, location]
    simp only [hrooted, if_true]
    exact congrArg Pos.names hwalk
  · have hwalk := follow_eq_walk h
    rw [place, location]
    simp only [hrooted, Bool.false_eq_true, if_false]
    rw [Pos.walk_start_steps]
    exact congrArg Pos.names hwalk

end FileTree

end Mulp.Stream
