import Mulp.Stream.Since
import Mulp.Vinyl.Sliced

/-! The paths of stream files and the numbers in metadata with the slices that the
source takes of them (`stream/file.mbt`, `stream/memory_io.mbt`). -/
namespace Mulp.Stream.Sliced

open Mulp.Text

variable {value : String}

/-! ## Stream files -/

section File

variable {β : Type} {self : File β}

def trimLeadingSlash (path : String) : Option String :=
  if hasPrefix path "/" then slice path 1 (unitLength path) else some path

def relativePath (self : File β) : Option String :=
  if pathIsInsideBase self.path self.base then do
    let raw ← slice self.path (unitLength self.base) (unitLength self.path)
    trimLeadingSlash raw
  else some self.path

/-- `File::dirname`. `last_index_of` is that of vinyl files, and so are the
components. -/
def dirname (self : File β) : Option String := Vinyl.Sliced.dirnameOf self.path

def basename (self : File β) : Option String := Vinyl.Sliced.basenameOf self.path

def extname (self : File β) : Option String := do
  let name ← basename self
  Vinyl.Sliced.extnameOf name

def stem (self : File β) : Option String := do
  let name ← basename self
  Vinyl.Sliced.stemOf name

theorem trimLeadingSlash_eq (h : IsBmp value) :
    trimLeadingSlash value = some (Stream.trimLeadingSlash value) := by
  rw [trimLeadingSlash, Stream.trimLeadingSlash, hasPrefix]
  rcases hchars : value.toList with _ | ⟨c, rest⟩
  · rfl
  · by_cases hc : c = '/'
    · have hslice := h.slice (show 1 ≤ value.toList.length by simp [hchars]) (Nat.le_refl _)
      rw [List.take_length, ← h.unitLength, hchars] at hslice
      rw [hslice]
      subst hc
      rfl
    · have hstart : "/".toList.isPrefixOf (c :: rest) = false := by
        show ('/' == c && _) = false
        rw [beq_false_of_ne (Ne.symm hc), Bool.false_and]
      rw [hstart, if_neg Bool.false_ne_true]
      split
      · rename_i heq
        exact absurd (List.cons.inj heq).1 hc
      · rfl

/-- A path inside the base is not shorter. -/
theorem length_le_of_inside {base path : String} (h : pathIsInsideBase path base = true) :
    base.toList.length ≤ path.toList.length := by
  rw [pathIsInsideBase, Bool.or_eq_true, beq_iff_eq, List.isPrefixOf_iff_prefix] at h
  rcases h with rfl | h
  · exact Nat.le_refl _
  · have hle := h.length_le
    rw [String.toList_append, List.length_append] at hle
    omega

theorem relativePath_eq (hbase : IsBmp self.base) (hpath : IsBmp self.path) :
    relativePath self = some self.relativePath := by
  rw [relativePath, File.relativePath]
  split_ifs with hinside
  · have hlength := length_le_of_inside hinside
    have hrest : IsBmp (String.ofList (self.path.toList.drop self.base.toList.length)) :=
      hpath.of_subset (by
        rw [String.toList_ofList]
        exact List.drop_subset _ _)
    rw [hbase.unitLength, hpath.unitLength, hpath.slice hlength (Nat.le_refl _), List.take_length,
      Option.bind_eq_bind, Option.bind_some, trimLeadingSlash_eq hrest, String.length_toList]
  · rfl

theorem exists_extname (hpath : IsBmp self.path) : ∃ name, extname self = some name := by
  have hname : basename self = some _ := Vinyl.Sliced.basenameOf_eq hpath
  exact exists_bind hname ⟨_, Vinyl.Sliced.extnameOf_eq (Vinyl.Sliced.isBmp_basenameOf hpath hname)⟩

theorem exists_stem (hpath : IsBmp self.path) : ∃ name, stem self = some name := by
  have hname : basename self = some _ := Vinyl.Sliced.basenameOf_eq hpath
  exact exists_bind hname ⟨_, Vinyl.Sliced.stemOf_eq (Vinyl.Sliced.isBmp_basenameOf hpath hname)⟩

end File

/-! ## `parse_int64` -/

/-- The digit that a slice is. -/
def partDigit (part : String) : Option Int :=
  match part.toList with
  | [c] => int64Digit c
  | _ => none

/-- The loop of `parse_int64`, for `n` more indices. -/
def parseInt64From (value : String) (result : Int) (index : Nat) : Nat → Option (Option Int)
  | 0 => some (some result)
  | n + 1 => do
      let part ← slice value index (index + 1)
      match partDigit part with
      | some digit => parseInt64From value ((result * 10 + digit).bmod (2 ^ 64)) (index + 1) n
      | none => some none

def parseInt64 (value : String) : Option (Option Int) :=
  if value = "" then some none else parseInt64From value 0 0 (unitLength value)

theorem parseInt64From_eq (h : IsBmp value) {result : Int} {index n : Nat}
    (hn : index + n = value.toList.length) :
    parseInt64From value result index n =
      Stream.parseInt64From result (value.toList.drop index) := by
  induction n generalizing result index with
  | zero =>
      rw [parseInt64From, List.drop_eq_nil_of_le (by omega)]
      rfl
  | succ n ih =>
      have hindex : index < value.toList.length := by omega
      have hbmp : ¬ 0xFFFF < value.toList[index].toNat :=
        Nat.not_lt.mpr (h _ (List.getElem_mem hindex))
      rw [parseInt64From, h.slice_one hindex, List.drop_eq_getElem_cons hindex,
        Stream.parseInt64From, if_neg hbmp]
      simp only [Option.bind_eq_bind, Option.bind_some, partDigit, String.toList_ofList]
      cases int64Digit value.toList[index] with
      | none => rfl
      | some digit => exact ih (by omega)

theorem parseInt64_eq (h : IsBmp value) : parseInt64 value = Stream.parseInt64 value := by
  rw [parseInt64, Stream.parseInt64, h.unitLength, parseInt64From_eq h (Nat.zero_add _),
    List.drop_zero]

theorem exists_parseInt64 (h : IsBmp value) : ∃ result, parseInt64 value = some result := by
  have hcuts : cutsCharacter value.toList = false := by
    rw [cutsCharacter]
    split
    · rename_i c hc
      exact decide_eq_false (Nat.not_lt.mpr (h c (List.mem_of_find?_eq_some hc)))
    · rfl
  rw [parseInt64_eq h, Stream.parseInt64_eq, hcuts]
  exact ⟨_, rfl⟩

end Mulp.Stream.Sliced
