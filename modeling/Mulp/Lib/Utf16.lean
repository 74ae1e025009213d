import Mathlib.Data.List.Basic
import Mathlib.Tactic.SplitIfs

/-! Texts as UTF-16 code units, and what decoding makes of units.

A character beyond the basic plane is a pair of units, of which the first is high and
the second low. A unit of either kind alone is no text. -/
namespace Utf16

/-- The code units of a character. -/
def encodeChar (c : Char) : List UInt16 :=
  if c.toNat < 0x10000 then [.ofNat c.toNat]
  else [.ofNat (0xD800 + (c.toNat - 0x10000) / 0x400), .ofNat (0xDC00 + (c.toNat - 0x10000) % 0x400)]

def encode (chars : List Char) : List UInt16 := chars.flatMap encodeChar

theorem encode_append (first second : List Char) :
    encode (first ++ second) = encode first ++ encode second := List.flatMap_append

/-- The unit is the first half of a pair. -/
def High (u : UInt16) : Prop := 0xD800 ≤ u.toNat ∧ u.toNat < 0xDC00

/-- The unit is the second half of a pair. -/
def Low (u : UInt16) : Prop := 0xDC00 ≤ u.toNat ∧ u.toNat < 0xE000

instance (u : UInt16) : Decidable (High u) := inferInstanceAs (Decidable (_ ∧ _))
instance (u : UInt16) : Decidable (Low u) := inferInstanceAs (Decidable (_ ∧ _))

/-- The character of a pair. -/
def pair (u v : UInt16) : Char :=
  .ofNat (0x10000 + (u.toNat - 0xD800) * 0x400 + (v.toNat - 0xDC00))

/-- The characters of a text; there are none if half a pair stands alone. -/
def decode : List UInt16 → Option (List Char)
  | [] => some []
  | u :: rest =>
      if High u then
        match rest with
        | [] => none
        | v :: rest => if Low v then (decode rest).map (pair u v :: ·) else none
      else if Low u then none
      else (decode rest).map (.ofNat u.toNat :: ·)

theorem decode_encodeChar (c : Char) (rest : List UInt16) :
    decode (encodeChar c ++ rest) = (decode rest).map (c :: ·) := by
  have hvalid : c.toNat.isValidChar := c.valid
  have hchar {n : Nat} (h : n = c.toNat) : Char.ofNat n = c := by rw [h, Char.ofNat_toNat]
  simp only [Nat.isValidChar] at hvalid
  rw [encodeChar]
  split_ifs with h
  · rw [List.singleton_append, decode.eq_def]
    dsimp only
    rw [if_neg, if_neg, hchar]
    · rw [UInt16.toNat_ofNat']
      omega
    · simp only [Low, UInt16.toNat_ofNat']
      omega
    · simp only [High, UInt16.toNat_ofNat']
      omega
  · simp only [List.cons_append, List.nil_append, decode, High, Low, pair, UInt16.toNat_ofNat']
    rw [if_pos (by omega), if_pos (by omega), hchar (by omega)]

/-- The mark at the start of a file is a character of its own. -/
theorem decode_mark (units : List UInt16) :
    decode (0xFEFF :: units) = (decode units).map ('\uFEFF' :: ·) :=
      decode_encodeChar '\uFEFF' units

theorem decode_encode (chars : List Char) : decode (encode chars) = some chars := by
  induction chars with
  | nil => rfl
  | cons c rest ih =>
      rw [encode, List.flatMap_cons, decode_encodeChar, ← encode, ih]
      rfl

theorem encodeChar_pair {u v : UInt16} (hu : High u) (hv : Low v) :
    encodeChar (pair u v) = [u, v] := by
  obtain ⟨hu₁, hu₂⟩ := hu
  obtain ⟨hv₁, hv₂⟩ := hv
  have hvalid : (0x10000 + (u.toNat - 0xD800) * 0x400 + (v.toNat - 0xDC00)).isValidChar :=
    .inr ⟨by omega, by omega⟩
  have hval : (pair u v).toNat = 0x10000 + (u.toNat - 0xD800) * 0x400 + (v.toNat - 0xDC00) := by
    rw [pair, Char.ofNat, dif_pos hvalid]
    rfl
  rw [encodeChar, hval, if_neg (by omega)]
  simp only [List.cons.injEq, ← UInt16.toNat_inj, UInt16.toNat_ofNat', and_true]
  omega

theorem encodeChar_single {u : UInt16} (hu : ¬ High u) (hv : ¬ Low u) :
    encodeChar (.ofNat u.toNat) = [u] := by
  simp only [High, Low] at hu hv
  have hlt := u.toNat_lt
  have hvalid : u.toNat.isValidChar := by
    simp only [Nat.isValidChar]
    omega
  have hval : (Char.ofNat u.toNat).toNat = u.toNat := by
    rw [Char.ofNat, dif_pos hvalid]
    rfl
  rw [encodeChar, hval, if_pos (by omega), UInt16.ofNat_toNat]

/-- A text has the units it is decoded from. -/
theorem encode_decode {units : List UInt16} {chars : List Char} (h : decode units = some chars) :
    encode chars = units := by
  fun_induction decode units generalizing chars with
  | case1 =>
      cases h
      rfl
  | case2 u hu => cases h
  | case3 u hu v rest hv ih =>
      obtain ⟨chars, hrest, rfl⟩ := Option.map_eq_some_iff.mp h
      rw [encode, List.flatMap_cons, encodeChar_pair hu hv, ← encode, ih hrest]
      rfl
  | case4 u hu v rest hv => cases h
  | case5 u rest hu hv => cases h
  | case6 u rest hu hv ih =>
      obtain ⟨chars, hrest, rfl⟩ := Option.map_eq_some_iff.mp h
      rw [encode, List.flatMap_cons, encodeChar_single hu hv, ← encode, ih hrest]
      rfl

/-! ## Texts without pairs -/

/-- A character is one unit, or two. -/
theorem length_encodeChar (c : Char) :
    (encodeChar c).length = if c.toNat < 0x10000 then 1 else 2 := by
  rw [encodeChar]
  split_ifs
  · rfl
  · rfl

theorem length_le_encode (chars : List Char) : chars.length ≤ (encode chars).length := by
  induction chars with
  | nil => exact Nat.le_refl 0
  | cons c rest ih =>
      rw [encode, List.flatMap_cons, ← encode, List.length_append, length_encodeChar,
        List.length_cons]
      split_ifs
      · omega
      · omega

/-- A text has as many units as characters if it has no character above `U+FFFF`. -/
theorem length_encode_eq_iff {chars : List Char} :
    (encode chars).length = chars.length ↔ ∀ c ∈ chars, c.toNat < 0x10000 := by
  induction chars with
  | nil => simp [encode]
  | cons c rest ih =>
      have hle := length_le_encode rest
      rw [List.forall_mem_cons, ← ih, encode, List.flatMap_cons, ← encode, List.length_append,
        length_encodeChar, List.length_cons]
      split_ifs with hc
      · rw [and_iff_right hc]
        omega
      · rw [iff_false_right (fun h => hc h.1)]
        omega

/-- The code points, cut to one unit each, are the units of a text without pairs only. -/
theorem map_eq_encode_iff {chars : List Char} :
    chars.map (fun c => .ofNat c.toNat) = encode chars ↔ ∀ c ∈ chars, c.toNat < 0x10000 := by
  constructor
  · intro h
    have hlength := congrArg List.length h
    rw [List.length_map] at hlength
    exact length_encode_eq_iff.mp hlength.symm
  · intro h
    rw [encode, ← List.flatMap_pure_eq_map]
    refine List.flatMap_congr fun c hc => ?_
    rw [encodeChar, if_pos (h c hc)]
    rfl

theorem high_encodeChar {c : Char} : (∀ u ∈ encodeChar c, ¬ High u) ↔ c.toNat < 0x10000 := by
  have hvalid : c.toNat.isValidChar := c.valid
  simp only [Nat.isValidChar] at hvalid
  rw [encodeChar]
  split_ifs with hc
  · simp only [List.mem_singleton, forall_eq, High, UInt16.toNat_ofNat']
    omega
  · rw [iff_false_right hc]
    intro h
    refine h _ List.mem_cons_self ?_
    simp only [High, UInt16.toNat_ofNat']
    omega

/-- The first halves of pairs are those of characters above `U+FFFF`. -/
theorem high_encode {chars : List Char} :
    (∀ u ∈ encode chars, ¬ High u) ↔ ∀ c ∈ chars, c.toNat < 0x10000 := by
  simp only [encode, List.mem_flatMap, forall_exists_index, and_imp]
  constructor
  · intro h c hc
    exact high_encodeChar.mp fun u hu => h u c hc hu
  · intro h u c hc hu
    exact high_encodeChar.mpr (h c hc) u hu

/-! ## Units as bytes -/

/-- An order of the two bytes of a unit. -/
structure ByteOrder where
  bytes : UInt16 → List UInt8
  /-- The units of a file; what is left of one at the end does not count. -/
  units : List UInt8 → List UInt16
  length_bytes : ∀ u, (bytes u).length = 2
  units_short : ∀ rest, rest.length < 2 → units rest = []
  units_bytes : ∀ u rest, units (bytes u ++ rest) = u :: units rest
  bytes_surjective : ∀ b₀ b₁, ∃ u, bytes u = [b₀, b₁]

namespace ByteOrder

variable (order : ByteOrder)

theorem length_flatMap (us : List UInt16) : (us.flatMap order.bytes).length = 2 * us.length := by
  induction us with
  | nil => rfl
  | cons u rest ih =>
      rw [List.flatMap_cons, List.length_append, ih, order.length_bytes, List.length_cons]
      omega

theorem units_flatMap (us : List UInt16) : order.units (us.flatMap order.bytes) = us := by
  induction us with
  | nil => exact order.units_short [] Nat.two_pos
  | cons u rest ih => rw [List.flatMap_cons, order.units_bytes, ih]

/-- A file of even length is the bytes of its units. -/
theorem flatMap_units {file : List UInt8} (h : file.length % 2 = 0) :
    (order.units file).flatMap order.bytes = file := by
  match file with
  | [] => rw [order.units_short [] Nat.two_pos, List.flatMap_nil]
  | [b] => cases h
  | b₀ :: b₁ :: rest =>
      obtain ⟨u, hu⟩ := order.bytes_surjective b₀ b₁
      have hrest : rest.length % 2 = 0 := by
        simp only [List.length_cons] at h
        omega
      have hfile : b₀ :: b₁ :: rest = order.bytes u ++ rest := by
        rw [hu]
        rfl
      rw [hfile, order.units_bytes, List.flatMap_cons, flatMap_units hrest]

theorem flatMap_injective {us vs : List UInt16}
    (h : us.flatMap order.bytes = vs.flatMap order.bytes) :
    us = vs := by
  rw [← order.units_flatMap us, h, order.units_flatMap]

/-- A file has a unit for any two bytes. -/
theorem length_units (file : List UInt8) : (order.units file).length = file.length / 2 := by
  match file with
  | [] =>
      rw [order.units_short [] Nat.two_pos]
      rfl
  | [b] =>
      rw [order.units_short [b] Nat.one_lt_two]
      show 0 = 1 / 2
      rfl
  | b₀ :: b₁ :: rest =>
      obtain ⟨u, hu⟩ := order.bytes_surjective b₀ b₁
      have hfile : b₀ :: b₁ :: rest = order.bytes u ++ rest := by
        rw [hu]
        rfl
      rw [hfile, order.units_bytes, List.length_cons, length_units rest, List.length_append,
        order.length_bytes]
      omega

/-- The byte order mark, that of the character `U+FEFF`. -/
def mark : List UInt8 := order.bytes 0xFEFF

/-- UTF-16 in this order. -/
def write (chars : List Char) : List UInt8 := (encode chars).flatMap order.bytes

/-- One unit a character, whatever the character. -/
def narrow (chars : List Char) : List UInt8 := chars.flatMap fun c => order.bytes (.ofNat c.toNat)

theorem narrow_eq (chars : List Char) :
    order.narrow chars = (chars.map fun c => UInt16.ofNat c.toNat).flatMap order.bytes := by
  rw [narrow, List.flatMap_map]

theorem narrow_eq_write_iff {chars : List Char} :
    order.narrow chars = order.write chars ↔ ∀ c ∈ chars, c.toNat < 0x10000 := by
  rw [← map_eq_encode_iff, narrow_eq, write]
  constructor
  · intro h
    exact order.flatMap_injective h
  · intro h
    rw [h]

end ByteOrder

end Utf16
