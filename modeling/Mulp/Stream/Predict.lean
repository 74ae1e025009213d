import Mulp.Stream.MemoryFold
import Mulp.Stream.ReadAll
import Mulp.Vinyl.Delivers

/-! The destination in memory beside the one on the disk (`stream/memory_io.mbt`,
`stream/file_dest.mbt`).

The same files go through both. Each stream ends normally and is given by its
chunks; the stream of the file in place `i` is object `i` on both sides. The disk
has nothing in it at first. It knows files by where their paths lead, the destination
in memory by the paths themselves. -/
namespace Mulp.Stream

open Mulp.Core Mulp.Text Mulp.Vinyl Pull

/-! ## The files -/

/-- The chunks of the stream of a file. -/
def FileContents.chunks : FileContents (List Bytes) → List Bytes
  | .bytes chunks => chunks
  | _ => []

/-- The files that both destinations take: no directories or symlinks, and streams of at most 16
MiB. Others fail in one of the two, and then there is nothing to compare. -/
structure Plain (file : File (List Bytes)) : Prop where
  not_directory : file.contents ≠ .directory
  not_symlink : ∀ target, file.contents ≠ .symlink target
  size : (file.contents.chunks.flatten.length : Int) ≤ maxBytes

/-- The bytes of the contents; `Empty` has none, and the destination in memory does not count it as
a write. -/
def FileContents.kept : FileContents (List Bytes) → Option Bytes
  | .text contents => some (utf8Encode contents)
  | .buffer contents => some contents
  | .bytes chunks => some chunks.flatten
  | .empty | .directory | .symlink _ => none

/-- The path that a file is written to: the directory joined with the file's relative path, as a
text. -/
def destination (outDir : String) (file : File (List Bytes)) : String :=
  MemoryDest.joinPath outDir file.relativePath

/-- The files that are sent to this path. -/
def sentTo (outDir path : String) (files : List (File (List Bytes))) : List (File (List Bytes)) :=
  files.filter (destination outDir · = path)

/-- The files that are sent to where this path leads. -/
def sentToPlace (d : Disk) (outDir path : String) (files : List (File (List Bytes))) :
    List (File (List Bytes)) :=
  files.filter fun file => d.place (destination outDir file) = d.place path

/-- The access by which a file is written; only a stream is opened first. -/
def writeAccess (outDir : String) (file : File (List Bytes)) : Access :=
  match file.contents with
  | .bytes _ => .openWriter (destination outDir file)
  | _ => .writeFile (destination outDir file)

section Keep

variable {α : Type} (key : α → String) (val : α → Option Bytes)

/-- The value of `x`, if it has one, at its key. -/
def keep (contents : String → Option Bytes) (x : α) : String → Option Bytes :=
  match val x with
  | some bytes => Function.update contents (key x) (some bytes)
  | none => contents

end Keep

/-! ## The run in memory -/

section Memory

variable {outDir : String} {file : File (List Bytes)} {k : Nat} {w : MemoryWorld Unit}
  {later : List (ByteStream Unit)}

end Memory

/-! ## The run on the disk -/

section Disk

variable {outDir : String} {file : File (List Bytes)} {k : Nat} {w : World}
  {later : List StreamObject}

/-- The disk after a file has been written. -/
def written (outDir : String) (d : Disk) (file : File (List Bytes)) : Disk :=
  (d.access (writeAccess outDir file)).2.put (destination outDir file)
    (file.contents.kept.getD [])

end Disk

/-! ## The two beside one another -/

/-- Wherever a file is sent to, the last file that is sent there, under whatever path, has the bytes
of the last file with contents that was sent to that very path. The disk keeps what was written last
at a place, and the destination in memory what was written last at a path, where an `Empty` file
does not count as a write. -/
def LastsAgree (outDir : String) (files : List (File (List Bytes))) (d : Disk) : Prop :=
  ∀ file ∈ files, ∀ last ∈ (sentToPlace d outDir (destination outDir file) files).getLast?,
    ((sentTo outDir (destination outDir file) files).filterMap (·.contents.kept)).getLast? =
      some (last.contents.kept.getD [])

/-- At every path whose last file is `Empty`, there was a file with contents before
it, and the last such had no bytes in it. -/
def EmptiesHarmless (outDir : String) (files : List (File (List Bytes))) : Prop :=
  ∀ path, ∀ file ∈ (sentTo outDir path files).getLast?, file.contents = .empty →
    ((sentTo outDir path files).filterMap (·.contents.kept)).getLast? = some []

theorem kept_eq_none {file : File (List Bytes)} (hplain : Plain file) :
    file.contents.kept = none ↔ file.contents = .empty := by
  cases hcontents : file.contents with
  | empty => exact iff_of_true rfl rfl
  | directory => exact absurd hcontents hplain.not_directory
  | symlink target => exact absurd hcontents (hplain.not_symlink target)
  | _ => exact iff_of_false nofun nofun

/-- The files of one path come to the same on both sides unless they end in an
`Empty` one that should have been written. -/
theorem getLast?_kept_iff (files : List (File (List Bytes))) (hplain : ∀ file ∈ files, Plain file) :
    (files.filterMap (·.contents.kept)).getLast? = (files.map (·.contents.kept.getD [])).getLast? ↔
      ∀ file ∈ files.getLast?, file.contents = .empty →
        (files.filterMap (·.contents.kept)).getLast? = some [] := by
  rcases List.eq_nil_or_concat files with rfl | ⟨files, file, rfl⟩
  · simp
  · have hempty := kept_eq_none (hplain file (by simp))
    cases hkept : file.contents.kept with
    | none => simp [hempty.mp hkept, FileContents.kept]
    | some bytes =>
        have hne : file.contents ≠ .empty := fun h => by simp [hempty.mpr h] at hkept
        simp [hkept, hne]

section Agree

variable {outDir : String} {files : List (File (List Bytes))} {d : Disk}

theorem getLast?_sentToPlace {file : File (List Bytes)} (hfile : file ∈ files) :
    ∃ last, (sentToPlace d outDir (destination outDir file) files).getLast? = some last := by
  have hmem : file ∈ sentToPlace d outDir (destination outDir file) files :=
    List.mem_filter.mpr ⟨hfile, decide_eq_true rfl⟩
  exact ⟨_, List.getLast?_eq_some_getLast (List.ne_nil_of_mem hmem)⟩

theorem lastsAgree_iff : LastsAgree outDir files d ↔ ∀ file ∈ files,
    ((sentTo outDir (destination outDir file) files).filterMap (·.contents.kept)).getLast? =
      ((sentToPlace d outDir (destination outDir file) files).map
        (·.contents.kept.getD [])).getLast? := by
  refine forall₂_congr fun file hfile => ?_
  obtain ⟨last, hlast⟩ := @getLast?_sentToPlace outDir files d file hfile
  rw [List.getLast?_map, hlast, Option.map_some]
  constructor
  · intro h
    exact h last rfl
  · intro h other hother
    rw [← Option.some.inj hother]
    exact h

/-- Where no two of the paths lead to one place, only an `Empty` file can make a
difference. -/
theorem lastsAgree_iff_emptiesHarmless (hplain : ∀ file ∈ files, Plain file)
    (hplaces : ∀ file ∈ files, ∀ other ∈ files,
      d.place (destination outDir file) = d.place (destination outDir other) →
        destination outDir file = destination outDir other) :
    LastsAgree outDir files d ↔ EmptiesHarmless outDir files := by
  have hplainOf {path : String} : ∀ file ∈ sentTo outDir path files, Plain file :=
    fun file hfile => hplain file (List.mem_filter.mp hfile).1
  have hsent : ∀ file ∈ files, sentToPlace d outDir (destination outDir file) files =
      sentTo outDir (destination outDir file) files := by
    intro file hfile
    refine List.filter_congr fun other hother => ?_
    exact decide_eq_decide.mpr ⟨hplaces other hother file hfile, fun heq => by rw [heq]⟩
  rw [lastsAgree_iff]
  constructor
  · intro h path last hlast
    obtain ⟨hlastFile, hpath⟩ := List.mem_filter.mp (List.mem_of_getLast? hlast)
    obtain rfl := of_decide_eq_true hpath
    have hsame := h last hlastFile
    rw [hsent last hlastFile] at hsame
    exact (getLast?_kept_iff _ hplainOf).mp hsame last hlast
  · intro h file hfile
    rw [hsent file hfile]
    exact (getLast?_kept_iff _ hplainOf).mpr (h _)

end Agree

/-- Where the directories on the way to a path are. -/
def waysTo (path : String) : List String :=
  (splitSlash path).dropLast.inits.map fun segments => (location (joinSlash segments)).text

/-- The path ends in a name, none of the places written to is on its way, and it leads to
none that is on the way to one of them. -/
def writable (before : List Access) (path : String) : Bool :=
  (splitSlash path).getLast? ∉ [some "", some ".", some ".."] &&
    (path :: before.map Access.path).all fun other =>
      (location path).text ∉ waysTo other && (location other).text ∉ waysTo path

/-- A disk without files. A path leads to the place that it denotes, and a write succeeds where no
file stands in its way. -/
def newDisk : Disk where
  read _ := none
  stat _ := false
  lstat _ := false
  succeeds before a := writable before a.path
  accesses := []
  place path := (location path).text

/-- Nothing can be written below a file. -/
example : writable [.writeFile "/out/a"] "/out/a/b" = false := by decide +kernel

/-- Two paths that lead to one file are two for the destination in memory. -/
example : ¬ LastsAgree "/out" [⟨"/", "/src", "/src//a.txt", .text "x", [], none⟩,
    ⟨"/", "/src", "/src/a.txt", .text "y", [], none⟩] newDisk := by
  rw [lastsAgree_iff]
  decide +kernel

end Mulp.Stream
