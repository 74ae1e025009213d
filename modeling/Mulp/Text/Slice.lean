import Mathlib.Tactic.ByContra
import Mathlib.Tactic.Push
import Mulp.Lib.Utf16
import Mulp.Text.Path

/-! Strings as code units, and slices of them.

A slice `value[i:j]` aborts if its ends are out of order or out of bounds, or if
one of them is between the two halves of a pair. -/
namespace Mulp.Text

/-- A string, by its code units. -/
abbrev Units := List UInt16

def units (text : String) : Units := Utf16.encode text.toList

/-- A slice may begin or end at the index: no second half of a pair is there. -/
def isBoundary (value : Units) (i : Nat) : Bool :=
  match value[i]? with
  | some u => ¬ Utf16.Low u
  | none => true

/-- `value[i:j]`, unless it aborts. -/
def sub (value : Units) (i j : Nat) : Option Units :=
  if i ≤ j && j ≤ value.length && isBoundary value i && isBoundary value j then
    some ((value.take j).drop i)
  else none

theorem sub_eq_some_iff {value part : Units} {i j : Nat} :
    sub value i j = some part ↔
      (i ≤ j ∧ j ≤ value.length ∧ isBoundary value i = true ∧ isBoundary value j = true) ∧
        (value.take j).drop i = part := by
  rw [sub, Option.ite_none_right_eq_some, Option.some.injEq]
  simp only [Bool.and_eq_true, decide_eq_true_eq, and_assoc]

/-- The loop over the slices `value[index:index + 1]`, for `n` more indices. -/
def slicesFrom (value : Units) (index : Nat) : Nat → Option (List Units)
  | 0 => some []
  | n + 1 =>
      match sub value index (index + 1) with
      | none => none
      | some part => (slicesFrom value (index + 1) n).map (part :: ·)

def slices (value : Units) : Option (List Units) := slicesFrom value 0 value.length

/-- `value.has_prefix(start)`. -/
def startsWith (value start : Units) : Bool := start.isPrefixOf value

/-- The code unit of `/`. -/
def slash : UInt16 := 0x2F

/-- `parts.join(separator)`. -/
def join (separator : Units) (parts : List Units) : Units := separator.intercalate parts

theorem nil_intercalate {α : Type*} (parts : List (List α)) :
    [].intercalate parts = parts.flatten := by
  induction parts with
  | nil => rfl
  | cons part parts ih =>
      cases parts with
      | nil => simp
      | cons next parts => rw [List.intercalate_cons_cons, List.append_nil, ih, ← List.flatten_cons]

/-- Joining does not add what the separator has none of. -/
theorem countP_join {q : UInt16 → Bool} {separator : Units} (h : separator.countP q = 0)
    (parts : List Units) : (join separator parts).countP q = parts.flatten.countP q := by
  rw [join]
  induction parts with
  | nil => rfl
  | cons part parts ih =>
      cases parts with
      | nil => simp
      | cons next parts =>
          rw [List.intercalate_cons_cons, List.countP_append, List.countP_append, h, ih,
            Nat.add_zero, ← List.countP_append, ← List.flatten_cons]

/-! ## Texts without pairs -/

/-- No character takes two code units. Then indices of units are those of characters, and no slice
can cut one. -/
def IsBmp (text : String) : Prop := ∀ c ∈ text.toList, c.toNat ≤ 0xFFFF

instance (text : String) : Decidable (IsBmp text) := List.decidableBAll _ _

/-- No unit is the second half of a pair. -/
def Plain (value : Units) : Prop := ∀ u ∈ value, ¬ Utf16.Low u

instance (value : Units) : Decidable (Plain value) := List.decidableBAll _ _

/-- The code unit of a character that takes one. -/
def unitOf (c : Char) : UInt16 := .ofNat c.toNat

theorem toNat_unitOf {c : Char} (h : c.toNat ≤ 0xFFFF) : (unitOf c).toNat = c.toNat := by
  rw [unitOf, UInt16.toNat_ofNat']
  omega

theorem encodeChar_bmp {c : Char} (h : c.toNat ≤ 0xFFFF) : Utf16.encodeChar c = [unitOf c] := by
  rw [Utf16.encodeChar, if_pos (by omega), unitOf]

/-- The second half of a character that takes two units. -/
theorem low_encodeChar {c : Char} (h : ¬ c.toNat ≤ 0xFFFF) :
    ∃ u ∈ Utf16.encodeChar c, Utf16.Low u := by
  rw [Utf16.encodeChar, if_neg (by omega)]
  refine ⟨_, List.mem_cons_of_mem _ List.mem_cons_self, ?_⟩
  rw [Utf16.Low, UInt16.toNat_ofNat']
  omega

theorem not_low_unitOf {c : Char} (h : c.toNat ≤ 0xFFFF) : ¬ Utf16.Low (unitOf c) := by
  have hvalid : c.toNat.isValidChar := c.valid
  rw [Utf16.Low, toNat_unitOf h]
  rw [Nat.isValidChar] at hvalid
  omega

theorem units_eq_map {text : String} (h : IsBmp text) : units text = text.toList.map unitOf := by
  rw [units, Utf16.encode, List.flatMap_congr fun c hc => encodeChar_bmp (h c hc)]
  exact List.map_eq_flatMap.symm

theorem plain_units_iff {text : String} : Plain (units text) ↔ IsBmp text := by
  constructor
  · intro h c hc
    by_contra hlarge
    obtain ⟨u, hu, hlow⟩ := low_encodeChar hlarge
    exact h u (List.mem_flatMap.mpr ⟨c, hc, hu⟩) hlow
  · intro h u hu
    rw [units_eq_map h] at hu
    obtain ⟨c, hc, rfl⟩ := List.mem_map.mp hu
    exact not_low_unitOf (h c hc)

namespace Plain

variable {value : Units} {i j : Nat}

theorem isBoundary (h : Plain value) (i : Nat) : isBoundary value i = true := by
  rw [Text.isBoundary]
  split
  · rename_i u hu
    exact decide_eq_true (h u (List.mem_of_getElem? hu))
  · rfl

/-- A slice within bounds does not abort. -/
theorem sub (h : Plain value) (hij : i ≤ j) (hj : j ≤ value.length) :
    sub value i j = some ((value.take j).drop i) := by
  rw [Text.sub, if_pos]
  simp [hij, hj, h.isBoundary]

theorem sub_one (h : Plain value) (hi : i < value.length) :
    Text.sub value i (i + 1) = some [value[i]] := by
  have htake : value.take (i + 1) = value.take i ++ [value[i]] := (List.take_append_getElem hi).symm
  have hlength : (value.take i).length = i := List.length_take_of_le (Nat.le_of_lt hi)
  rw [h.sub (Nat.le_succ i) hi, htake, List.drop_append_of_le_length (Nat.le_of_eq hlength.symm),
    List.drop_eq_nil_of_le (Nat.le_of_eq hlength), List.nil_append]

theorem slicesFrom (h : Plain value) {index n : Nat} (hn : index + n = value.length) :
    slicesFrom value index n = some ((value.drop index).map fun u => [u]) := by
  induction n generalizing index with
  | zero => rw [Text.slicesFrom, List.drop_eq_nil_of_le (by omega), List.map_nil]
  | succ n ih =>
      have hindex : index < value.length := by omega
      rw [Text.slicesFrom, h.sub_one hindex]
      simp only [ih (show index + 1 + n = value.length by omega), Option.map_some]
      rw [List.drop_eq_getElem_cons hindex, List.map_cons]

theorem slices (h : Plain value) : slices value = some (value.map fun u => [u]) :=
  h.slicesFrom (Nat.zero_add _)

end Plain

/-- A slice that begins at the second half of a pair aborts. -/
theorem sub_low {value : Units} {i : Nat} {u : UInt16} (hu : value[i]? = some u)
    (hlow : Utf16.Low u) (j : Nat) :
    sub value i j = none := by
  have hboundary : isBoundary value i = false := by
    rw [isBoundary, hu]
    simpa using hlow
  rw [sub, if_neg]
  simp [hboundary]

theorem slicesFrom_low {value : Units} {i : Nat} {u : UInt16} (hu : value[i]? = some u)
    (hlow : Utf16.Low u) {index n : Nat} (hindex : index ≤ i) (hi : i < index + n) :
    slicesFrom value index n = none := by
  induction n generalizing index with
  | zero => omega
  | succ n ih =>
      rw [slicesFrom]
      by_cases hsame : index = i
      · rw [hsame, sub_low hu hlow]
      · rw [ih (by omega) (by omega)]
        cases sub value index (index + 1) <;> rfl

/-- Slicing a string unit by unit aborts at a pair, and only there. -/
theorem slices_eq_some_iff {value : Units} {parts : List Units} :
    slices value = some parts ↔ Plain value ∧ value.map (fun u => [u]) = parts := by
  by_cases h : Plain value
  · rw [h.slices, Option.some.injEq, and_iff_right h]
  · refine iff_of_false (fun hparts => ?_) fun hplain => h hplain.1
    rw [Plain] at h
    push Not at h
    obtain ⟨u, hu, hlow⟩ := h
    obtain ⟨i, hi, rfl⟩ := List.mem_iff_getElem.mp hu
    have hnone := slicesFrom_low (List.getElem?_eq_getElem hi) hlow (Nat.zero_le i)
      (n := value.length) (by omega)
    rw [slices, hnone] at hparts
    cases hparts

end Mulp.Text
