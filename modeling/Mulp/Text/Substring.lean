import Mulp.Text.Slice

/-! Lengths and slices of strings.

Both count code units. For a text without pairs they count characters as well. -/
namespace Mulp.Text

/-- A computation that may abort goes on after a part of it that does not. -/
theorem exists_bind {α β : Type} {x : Option α} {f : α → Option β} {a : α} (hx : x = some a)
    (h : ∃ b, f a = some b) : ∃ b, (x >>= f) = some b := by
  rw [hx]
  exact h

/-- The text of code units. -/
def ofUnits (value : Units) : String := String.ofList ((Utf16.decode value).getD [])

/-- `value.length()`. -/
def unitLength (value : String) : Nat := (units value).length

/-- `value[i:j].to_owned()`, unless it aborts. -/
def slice (value : String) (i j : Nat) : Option String := (sub (units value) i j).map ofUnits

theorem ofUnits_units (value : String) : ofUnits (units value) = value := by
  rw [ofUnits, units, Utf16.decode_encode, Option.getD_some, String.ofList_toList]

theorem units_append (first second : String) :
    units (first ++ second) = units first ++ units second := by
  rw [units, String.toList_append, Utf16.encode_append]
  rfl

theorem unitLength_append (first second : String) :
    unitLength (first ++ second) = unitLength first + unitLength second := by
  rw [unitLength, units_append, List.length_append]
  rfl

theorem unitLength_eq_zero {value : String} : unitLength value = 0 ↔ value = "" := by
  rw [unitLength, List.length_eq_zero_iff]
  constructor
  · intro h
    rw [← ofUnits_units value, h]
    rfl
  · rintro rfl
    rfl

/-! ## What a slice is -/

/-- A character has one unit, or two of which the second is the half of a pair. -/
theorem encodeChar_units (c : Char) :
    ∃ u, ¬ Utf16.Low u ∧
      (Utf16.encodeChar c = [u] ∨ ∃ v, Utf16.Low v ∧ Utf16.encodeChar c = [u, v]) := by
  by_cases h : c.toNat ≤ 0xFFFF
  · exact ⟨unitOf c, not_low_unitOf h, .inl (encodeChar_bmp h)⟩
  · have hvalid : c.toNat.isValidChar := c.valid
    rw [Nat.isValidChar] at hvalid
    rw [Utf16.encodeChar, if_neg (by omega)]
    refine ⟨_, ?_, .inr ⟨_, ?_, rfl⟩⟩
    · rw [Utf16.Low, UInt16.toNat_ofNat']
      omega
    · rw [Utf16.Low, UInt16.toNat_ofNat']
      omega

/-- Before a character is a boundary. -/
theorem isBoundary_append (value : Units) (text : String) :
    isBoundary (value ++ units text) value.length = true := by
  rw [isBoundary, List.getElem?_append_right (Nat.le_refl _), Nat.sub_self, units]
  cases text.toList with
  | nil => rfl
  | cons c rest =>
      obtain ⟨u, hu, hunit | ⟨v, -, hpair⟩⟩ := encodeChar_units c
      · simp [Utf16.encode, hunit, hu]
      · simp [Utf16.encode, hpair, hu]

/-- A boundary is between two texts. -/
theorem exists_cut {chars : List Char} {i : Nat} (hi : i ≤ (Utf16.encode chars).length)
    (hboundary : isBoundary (Utf16.encode chars) i = true) :
    ∃ before after, chars = before ++ after ∧ (Utf16.encode before).length = i := by
  induction chars generalizing i with
  | nil => exact ⟨[], [], rfl, (Nat.le_zero.mp hi).symm⟩
  | cons c chars ih =>
      rcases Nat.eq_zero_or_pos i with rfl | hpos
      · exact ⟨[], c :: chars, rfl, rfl⟩
      have hencode : Utf16.encode (c :: chars) = Utf16.encodeChar c ++ Utf16.encode chars := rfl
      rw [hencode] at hi hboundary
      by_cases hlt : i < (Utf16.encodeChar c).length
      · -- inside the character is its second unit
        obtain ⟨u, -, hunit | ⟨v, hv, hpair⟩⟩ := encodeChar_units c
        · rw [hunit, List.length_singleton] at hlt
          omega
        · rw [hpair, List.length_cons, List.length_singleton] at hlt
          obtain rfl : i = 1 := by omega
          rw [isBoundary, hpair] at hboundary
          exact absurd hv (of_decide_eq_true hboundary)
      · rw [List.length_append] at hi
        have hrest : isBoundary (Utf16.encode chars) (i - (Utf16.encodeChar c).length) = true := by
          rwa [isBoundary, List.getElem?_append_right (Nat.le_of_not_lt hlt)] at hboundary
        obtain ⟨before, after, rfl, hlength⟩ := ih (by omega) hrest
        refine ⟨c :: before, after, rfl, ?_⟩
        have hcons : Utf16.encode (c :: before) = Utf16.encodeChar c ++ Utf16.encode before := rfl
        rw [hcons, List.length_append, hlength]
        omega

/-- A slice is what stands between two texts of the lengths. -/
theorem slice_eq_some_iff {value part : String} {i j : Nat} :
    slice value i j = some part ↔
      ∃ before after, value = before ++ part ++ after ∧ unitLength before = i ∧
        unitLength (before ++ part) = j := by
  rw [slice, Option.map_eq_some_iff]
  constructor
  · rintro ⟨_, hsub, rfl⟩
    obtain ⟨⟨hij, hj, hboundaryi, hboundaryj⟩, rfl⟩ := sub_eq_some_iff.mp hsub
    obtain ⟨upto, after, hvalue, rfl⟩ := exists_cut hj hboundaryj
    have htake : (units value).take (Utf16.encode upto).length = Utf16.encode upto := by
      rw [units, hvalue, Utf16.encode_append, List.take_left]
    -- the first end is a boundary of what is left of the second
    have hboundary : isBoundary (Utf16.encode upto) i = true := by
      rcases Nat.lt_or_eq_of_le hij with hlt | rfl
      · rwa [isBoundary, units, hvalue, Utf16.encode_append,
          List.getElem?_append_left hlt] at hboundaryi
      · rw [isBoundary, List.getElem?_eq_none (Nat.le_refl _)]
    obtain ⟨before, part, rfl, rfl⟩ := exists_cut hij hboundary
    have hpart : ofUnits (((units value).take (Utf16.encode (before ++ part)).length).drop
        (Utf16.encode before).length) = String.ofList part := by
      rw [htake, Utf16.encode_append, List.drop_left, ofUnits, Utf16.decode_encode,
        Option.getD_some]
    rw [hpart]
    refine ⟨String.ofList before, String.ofList after, ?_, ?_, ?_⟩
    · rw [← String.toList_inj, hvalue]
      simp
    · rw [unitLength, units, String.toList_ofList]
    · rw [unitLength, units, String.toList_append, String.toList_ofList, String.toList_ofList]
  · rintro ⟨before, after, rfl, rfl, rfl⟩
    have hsub : sub (units (before ++ part ++ after)) (unitLength before)
        (unitLength (before ++ part)) =
        some (units part) := by
      refine sub_eq_some_iff.mpr ⟨⟨?_, ?_, ?_, ?_⟩, ?_⟩
      · simp [unitLength, units_append]
      · simp [unitLength, units_append]
      · rw [String.append_assoc, units_append]
        exact isBoundary_append (units before) (part ++ after)
      · rw [units_append]
        exact isBoundary_append (units (before ++ part)) after
      · rw [units_append _ after, unitLength, unitLength, List.take_left, units_append,
          List.drop_left]
    exact ⟨_, hsub, ofUnits_units part⟩

/-- A text of one unit is a character. -/
theorem exists_char_of_unitLength {value : String} (h : unitLength value = 1) :
    ∃ c, value = String.ofList [c] := by
  cases hchars : value.toList with
  | nil =>
      rw [String.toList_eq_nil_iff.mp hchars] at h
      cases h
  | cons c rest =>
      have hvalue : value = String.ofList [c] ++ String.ofList rest := by
        rw [← String.ofList_append, List.singleton_append, ← hchars, String.ofList_toList]
      have hfirst : unitLength (String.ofList [c]) ≠ 0 := by
        rw [ne_eq, unitLength_eq_zero, ← String.toList_inj, String.toList_ofList]
        exact List.cons_ne_nil c []
      rw [hvalue, unitLength_append] at h
      have hrest : String.ofList rest = "" := unitLength_eq_zero.mp (by omega)
      exact ⟨c, by rw [hvalue, hrest, String.append_empty]⟩

/-- A slice ends in the value. -/
theorem le_unitLength {value part : String} {i j : Nat} (h : slice value i j = some part) :
    j ≤ unitLength value := by
  obtain ⟨before, after, rfl, -, rfl⟩ := slice_eq_some_iff.mp h
  rw [unitLength_append (before ++ part)]
  exact Nat.le_add_right _ _

/-! ## Texts without pairs -/

namespace IsBmp

variable {value other : String} {i j : Nat}

theorem of_subset (h : IsBmp value) (hsubset : other.toList ⊆ value.toList) : IsBmp other :=
  fun c hc => h c (hsubset hc)

theorem append (h : IsBmp value) (hother : IsBmp other) : IsBmp (value ++ other) := by
  intro c hc
  rw [String.toList_append] at hc
  exact (List.mem_append.mp hc).elim (h c) (hother c)

/-- A part of the value between separators. -/
theorem of_mem_splitOn (h : IsBmp value) {separator : Char} {part : List Char}
    (hpart : part ∈ value.toList.splitOn separator) : IsBmp (String.ofList part) := by
  refine h.of_subset ?_
  rw [String.toList_ofList]
  exact subset_of_mem_splitOn hpart

theorem of_mem_splitSlash (h : IsBmp value) (hother : other ∈ splitSlash value) : IsBmp other := by
  obtain ⟨part, hpart, rfl⟩ := List.mem_map.mp hother
  exact h.of_mem_splitOn hpart

theorem joinSlash {parts : List String} (h : ∀ part ∈ parts, IsBmp part) :
    IsBmp (joinSlash parts) := by
  intro c hc
  rcases mem_joinSlash hc with rfl | ⟨part, hpart, hmem⟩
  · decide
  · exact h part hpart c hmem

theorem unitLength (h : IsBmp value) : unitLength value = value.toList.length := by
  rw [Text.unitLength, units_eq_map h, List.length_map]

end IsBmp

/-! ### Before the first pair -/

section Take

variable {value : String} {i j : Nat}

/-- A slice before the first pair does not abort. -/
theorem slice_take (h : IsBmp (String.ofList (value.toList.take j))) (hij : i ≤ j)
    (hj : j ≤ value.toList.length) :
    slice value i j = some (String.ofList ((value.toList.take j).drop i)) := by
  have hcut : value.toList = (value.toList.take j).take i ++ (value.toList.take j).drop i ++
      value.toList.drop j := by
    rw [List.take_append_drop, List.take_append_drop]
  have hbefore : IsBmp (String.ofList ((value.toList.take j).take i)) := h.of_subset (by
    rw [String.toList_ofList, String.toList_ofList]
    exact List.take_subset i _)
  refine slice_eq_some_iff.mpr ⟨.ofList ((value.toList.take j).take i),
    .ofList (value.toList.drop j), ?_, ?_, ?_⟩
  · rw [← String.toList_inj, String.toList_append, String.toList_append]
    simpa only [String.toList_ofList] using hcut
  · rw [hbefore.unitLength, String.toList_ofList, List.take_take, List.length_take]
    omega
  · rw [← String.ofList_append, List.take_append_drop, h.unitLength, String.toList_ofList,
      List.length_take_of_le hj]

/-- A character of two units is cut in half. -/
theorem slice_pair (h : IsBmp (String.ofList (value.toList.take i))) (hi : i < value.toList.length)
    (hc : ¬ value.toList[i].toNat ≤ 0xFFFF) : slice value i (i + 1) = none := by
  have hfront : (units (.ofList (value.toList.take i))).length = i := by
    have hlength := h.unitLength
    rwa [String.toList_ofList, List.length_take_of_le (Nat.le_of_lt hi)] at hlength
  have hvalue : units value = units (.ofList (value.toList.take i)) ++
      (Utf16.encodeChar value.toList[i] ++ Utf16.encode (value.toList.drop (i + 1))) := by
    have hencode : ∀ (c : Char) (rest : List Char),
        Utf16.encodeChar c ++ Utf16.encode rest = Utf16.encode (c :: rest) := fun _ _ => rfl
    rw [units, units, String.toList_ofList, hencode, ← List.drop_eq_getElem_cons hi,
      ← Utf16.encode_append, List.take_append_drop]
  have hlow : isBoundary (units value) (i + 1) = false := by
    obtain ⟨u, hu, hunit | ⟨v, hv, hpair⟩⟩ := encodeChar_units value.toList[i]
    · obtain ⟨w, hw, hlow⟩ := low_encodeChar hc
      rw [hunit, List.mem_singleton] at hw
      exact absurd (hw ▸ hlow) hu
    · rw [isBoundary, hvalue, List.getElem?_append_right (by omega), hfront, hpair,
        Nat.add_sub_cancel_left]
      exact decide_eq_false (not_not_intro hv)
  rw [slice, sub, if_neg, Option.map_none]
  simp [hlow]

end Take

namespace IsBmp

variable {value other : String} {i j : Nat}

/-- A slice within bounds does not abort. -/
theorem slice (h : IsBmp value) (hij : i ≤ j) (hj : j ≤ value.toList.length) :
    slice value i j = some (String.ofList ((value.toList.take j).drop i)) :=
  slice_take (h.of_subset (by
    rw [String.toList_ofList]
    exact List.take_subset j _)) hij hj

theorem slice_one (h : IsBmp value) (hi : i < value.toList.length) :
    Text.slice value i (i + 1) = some (String.ofList [value.toList[i]]) := by
  have htake : value.toList.take (i + 1) = value.toList.take i ++ [value.toList[i]] :=
    (List.take_append_getElem hi).symm
  rw [h.slice (Nat.le_succ i) hi, htake, List.drop_left' (List.length_take_of_le (Nat.le_of_lt hi))]

theorem of_slice (h : IsBmp value) (hslice : Text.slice value i j = some other) : IsBmp other := by
  obtain ⟨before, after, rfl, -, -⟩ := slice_eq_some_iff.mp hslice
  refine h.of_subset fun c hc => ?_
  rw [String.toList_append, String.toList_append]
  exact List.mem_append_left _ (List.mem_append_right _ hc)

theorem exists_slice (h : IsBmp value) (hij : i ≤ j) (hj : j ≤ Text.unitLength value) :
    ∃ part, Text.slice value i j = some part ∧ IsBmp part := by
  rw [h.unitLength] at hj
  exact ⟨_, h.slice hij hj, h.of_slice (h.slice hij hj)⟩

end IsBmp

end Mulp.Text
