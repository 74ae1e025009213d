import Mulp.Text.Substring

/-! A text without the slash at its end, as a slice and by characters.

The slice is one code unit shorter; it cannot cut a character, since what it drops is
the slash. -/
namespace Mulp.Text

theorem eq_empty_of_unitLength {value : String} (h : unitLength value = 0) : value = "" := by
  rw [← ofUnits_units value, List.eq_nil_of_length_eq_zero h]
  rfl

/-- The path without its last character, if that is a slash and not all of it. -/
def trimSlash (path : String) : String :=
  if path ≠ "/" && hasSuffix path "/" then String.ofList path.toList.dropLast else path

@[simp] theorem trimSlash_root : trimSlash "/" = "/" := rfl

theorem dropLast_slash (path : String) : String.ofList (path ++ "/").toList.dropLast = path := by
  have hlast : (path ++ "/").toList.dropLast = path.toList := by
    rw [String.toList_append]
    exact List.dropLast_concat
  rw [hlast, String.ofList_toList]

theorem trimSlash_slash {path : String} (h : path ++ "/" ≠ "/") :
    trimSlash (path ++ "/") = path := by
  have hsuffix : hasSuffix (path ++ "/") "/" = true := hasSuffix_iff.mpr ⟨path, rfl⟩
  rw [trimSlash, hsuffix, Bool.and_true, if_pos (decide_eq_true h), dropLast_slash]

theorem trimSlash_other {path : String} (h : hasSuffix path "/" = false) :
    trimSlash path = path := by
  rw [trimSlash, h, Bool.and_false, if_neg Bool.false_ne_true]

theorem eq_trimSlash (path : String) : path = trimSlash path ∨ path = trimSlash path ++ "/" := by
  by_cases hroot : path = "/"
  · rw [hroot]
    exact .inl rfl
  · by_cases hsuffix : hasSuffix path "/" = true
    · obtain ⟨start, rfl⟩ := hasSuffix_iff.mp hsuffix
      rw [trimSlash_slash hroot]
      exact .inr rfl
    · exact .inl (trimSlash_other (Bool.eq_false_iff.mpr hsuffix)).symm

/-- Slicing a last slash off never cuts a pair. -/
theorem slice_trimSlash (path : String) :
    (if path ≠ "/" && hasSuffix path "/" then slice path 0 (unitLength path - 1) else some path) =
      some (trimSlash path) := by
  rw [trimSlash]
  split_ifs with h
  · rw [Bool.and_eq_true] at h
    obtain ⟨start, rfl⟩ := hasSuffix_iff.mp h.2
    have hlength : unitLength (start ++ "/") - 1 = unitLength start := by
      rw [unitLength_append]
      rfl
    rw [dropLast_slash, hlength]
    exact slice_eq_some_iff.mpr ⟨"", "/", by simp, rfl, by simp⟩
  · rfl

end Mulp.Text
