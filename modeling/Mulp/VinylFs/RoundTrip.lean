import Mathlib.Data.List.Infix
import Mulp.VinylFs.Fixed

/-! Reading and writing in one charset (`vinyl_fs/codecs.mbt`).

UTF-16 is read unit by unit and written character by character. A character of two units
is written as its two low bytes, so what holds of a round trip is about texts and files
without such characters. -/
namespace Mulp.VinylFs

open Mulp.Stream Utf16

/-! ## The two orders of UTF-16 -/

def littleEndian : ByteOrder where
  bytes := leBytes
  units := unitsLe
  length_bytes _ := rfl
  units_short rest h := by
    match rest with
    | [] => rfl
    | [b] => rfl
    | b₀ :: b₁ :: rest =>
        simp only [List.length_cons] at h
        omega
  units_bytes u rest := by
    have hlt := u.toNat_lt
    show UInt16.ofNat _ :: unitsLe rest = u :: unitsLe rest
    rw [List.cons.injEq, ← UInt16.toNat_inj, UInt16.toNat_ofNat', toByte_toNat, toByte_toNat]
    refine ⟨?_, rfl⟩
    omega
  bytes_surjective b₀ b₁ := ⟨_, unit_bytes b₀ b₁⟩

def bigEndian : ByteOrder where
  bytes := beBytes
  units := unitsBe
  length_bytes _ := rfl
  units_short rest h := by
    match rest with
    | [] => rfl
    | [b] => rfl
    | b₀ :: b₁ :: rest =>
        simp only [List.length_cons] at h
        omega
  units_bytes u rest := by
    have hlt := u.toNat_lt
    show UInt16.ofNat _ :: unitsBe rest = u :: unitsBe rest
    rw [List.cons.injEq, ← UInt16.toNat_inj, UInt16.toNat_ofNat', toByte_toNat, toByte_toNat]
    refine ⟨?_, rfl⟩
    omega
  bytes_surjective b₀ b₁ := ⟨_, congrArg List.reverse (unit_bytes b₁ b₀)⟩

/-- A file without the byte order mark it may start with. -/
def withoutMark (mark bytes : Bytes) : Bytes :=
  if mark <+: bytes then bytes.drop mark.length else bytes

theorem withoutMark_append (mark rest : Bytes) : withoutMark mark (mark ++ rest) = rest := by
  rw [withoutMark, if_pos (List.prefix_append mark rest), List.drop_left]

theorem utf16leToUtf8_eq (bytes : Bytes) :
    utf16leToUtf8 bytes = unitsLe (withoutMark littleEndian.mark bytes) := by
  fun_cases utf16leToUtf8 bytes with
  | case1 rest => exact congrArg unitsLe (withoutMark_append littleEndian.mark rest).symm
  | case2 bytes h =>
      rw [withoutMark, if_neg]
      rintro ⟨rest, rfl⟩
      exact h rest rfl

theorem utf16beToUtf8_eq (bytes : Bytes) :
    utf16beToUtf8 bytes = unitsBe (withoutMark bigEndian.mark bytes) := by
  fun_cases utf16beToUtf8 bytes with
  | case1 rest => exact congrArg unitsBe (withoutMark_append bigEndian.mark rest).symm
  | case2 bytes h =>
      rw [withoutMark, if_neg]
      rintro ⟨rest, rfl⟩
      exact h rest rfl

theorem utf8ToUtf16le_narrow (text : List Char) :
    utf8ToUtf16le text = littleEndian.narrow text := by
  refine List.flatMap_congr fun c _ => ?_
  show unitBytes c = leBytes _
  simp only [unitBytes, leBytes, List.cons.injEq, ← UInt8.toNat_inj, toByte_toNat,
    UInt16.toNat_ofNat', and_true]
  omega

theorem utf8ToUtf16be_narrow (text : List Char) : utf8ToUtf16be text = bigEndian.narrow text := by
  refine List.flatMap_congr fun c _ => ?_
  show [toByte (c.toNat / 256), toByte (c.toNat % 256)] = beBytes _
  simp only [beBytes, List.cons.injEq, ← UInt8.toNat_inj, toByte_toNat, UInt16.toNat_ofNat',
    and_true]
  omega

section Order

variable (order : ByteOrder) {text : List Char} {bytes : Bytes}

/-- The text of a file in UTF-16, after its mark. -/
theorem exists_text (heven : bytes.length % 2 = 0) (h : (decode (order.units bytes)).isSome) :
    ∃ text, withoutMark order.mark bytes = order.write text ∧
      ((∀ u ∈ order.units bytes, ¬ High u) ↔ ∀ c ∈ text, c.toNat < 0x10000) := by
  obtain ⟨chars, hchars⟩ := Option.isSome_iff_exists.mp h
  have hunits := encode_decode hchars
  rw [withoutMark]
  split_ifs with hmark
  · obtain ⟨rest, rfl⟩ := hmark
    have hlength : rest.length % 2 = 0 := by
      rw [List.length_append, ByteOrder.mark, order.length_bytes] at heven
      omega
    rw [ByteOrder.mark, order.units_bytes, decode_mark] at hchars
    obtain ⟨text, hrest, rfl⟩ := Option.map_eq_some_iff.mp hchars
    have hrest := encode_decode hrest
    refine ⟨text, ?_, ?_⟩
    · rw [List.drop_left, ByteOrder.write, hrest, order.flatMap_units hlength]
    · -- the mark itself is no half of a pair
      rw [ByteOrder.mark, order.units_bytes, ← high_encode, hrest, List.forall_mem_cons,
        and_iff_right]
      decide
  · refine ⟨chars, ?_, ?_⟩
    · rw [ByteOrder.write, hunits, order.flatMap_units heven]
    · rw [← high_encode, hunits]

/-- A text that does not start with a mark is written without one. -/
theorem withoutMark_write (h : text.head? ≠ some '\uFEFF') :
    withoutMark order.mark (order.write text) = order.write text := by
  rw [withoutMark, if_neg]
  rintro ⟨rest, hrest⟩
  have hunits := congrArg order.units hrest
  rw [ByteOrder.mark, order.units_bytes, ByteOrder.write, order.units_flatMap] at hunits
  have hdecode := decode_encode text
  rw [← hunits, decode_mark] at hdecode
  obtain ⟨tail, -, rfl⟩ := Option.map_eq_some_iff.mp hdecode
  exact h rfl

/-- What is read back from one unit a character is the text, if it has no pairs. -/
theorem units_narrow_iff (h : text.head? ≠ some '\uFEFF') :
    order.units (withoutMark order.mark (order.narrow text)) = encode text ↔
      ∀ c ∈ text, c.toNat < 0x10000 := by
  constructor
  · intro hread
    have hle : (withoutMark order.mark (order.narrow text)).length ≤ 2 * text.length := by
      have htotal : (order.narrow text).length = 2 * text.length := by
        rw [order.narrow_eq, order.length_flatMap, List.length_map]
      rw [withoutMark]
      split_ifs
      · rw [List.length_drop]
        omega
      · exact htotal.le
    have hlength := congrArg List.length hread
    have hunits := length_le_encode text
    rw [order.length_units] at hlength
    apply length_encode_eq_iff.mp
    omega
  · intro hbmp
    rw [order.narrow_eq_write_iff.mpr hbmp, withoutMark_write order h, ByteOrder.write,
      order.units_flatMap]

end Order

/-! ## The charsets -/

namespace Charset

def mark : Charset → Bytes
  | .utf16le => littleEndian.mark
  | .utf16be => bigEndian.mark
  | .other => [0xef, 0xbb, 0xbf]

/-- The bytes of a text in the charset, as another program would write it: a character beyond the
basic plane takes four of them in UTF-16. -/
def write : Charset → List Char → Bytes
  | .utf16le => littleEndian.write
  | .utf16be => bigEndian.write
  | .other => Utf8.encode

/-- A file in the charset: an even length and no half of a pair alone in UTF-16. -/
def WellFormed (charset : Charset) (bytes : Bytes) : Prop :=
  match charset with
  | .utf16le => bytes.length % 2 = 0 ∧ (decode (unitsLe bytes)).isSome
  | .utf16be => bytes.length % 2 = 0 ∧ (decode (unitsBe bytes)).isSome
  | .other => Utf8.Valid bytes

/-- The text has no character that takes two units in the charset. -/
def Narrow (charset : Charset) (text : List Char) : Prop :=
  charset = .other ∨ ∀ c ∈ text, c.toNat < 0x10000

/-- The file has no surrogate pair. -/
def NoPairs (charset : Charset) (bytes : Bytes) : Prop :=
  match charset with
  | .utf16le => ∀ u ∈ unitsLe bytes, ¬ High u
  | .utf16be => ∀ u ∈ unitsBe bytes, ¬ High u
  | .other => True

end Charset

theorem stripBom_eq (bytes : Bytes) : stripBom bytes = withoutMark Charset.other.mark bytes := by
  cases h : hasUtf8Bom bytes with
  | true =>
      obtain ⟨rest, rfl⟩ := hasUtf8Bom_iff.mp h
      exact (withoutMark_append Charset.other.mark rest).symm
  | false =>
      rw [stripBom_of_not h, withoutMark, if_neg]
      rintro ⟨rest, rfl⟩
      cases h

theorem hasUtf8Bom_encode {text : List Char} (h : hasUtf8Bom (Utf8.encode text) = true) :
    ∃ rest, text = '\uFEFF' :: rest := by
  obtain ⟨rest, hrest⟩ := hasUtf8Bom_iff.mp h
  have hdecode := congrArg Utf8.decodeLossy hrest
  rw [Utf8.decodeLossy_encode, Utf8.encode_cons, Utf8.encode_nil, List.append_nil, Utf8.decodeLossy,
    Utf8.pieces_encode_cons, List.map_cons] at hdecode
  exact ⟨_, hdecode⟩

variable (name : String) {text : List Char} {bytes : Bytes}

/-- `encode_text` writes the charset for the texts that fit one unit a character. -/
theorem encodeText_eq_write_iff :
    encodeText text name = (charsetNamed name).write text ↔ (charsetNamed name).Narrow text := by
  rw [encodeText, Charset.Narrow]
  cases charsetNamed name with
  | utf16le =>
      rw [utf8ToUtf16le_narrow, or_iff_right (by decide)]
      exact littleEndian.narrow_eq_write_iff
  | utf16be =>
      rw [utf8ToUtf16be_narrow, or_iff_right (by decide)]
      exact bigEndian.narrow_eq_write_iff
  | other => exact iff_of_true rfl (.inl rfl)

/-- `decode_text` reads every file in the charset. -/
theorem exists_decodeText (h : (charsetNamed name).WellFormed bytes) :
    ∃ text, withoutMark (charsetNamed name).mark bytes = (charsetNamed name).write text ∧
      decodeText bytes name = encode text ∧
      ((charsetNamed name).NoPairs bytes ↔ (charsetNamed name).Narrow text) := by
  rw [decodeText]
  cases hname : charsetNamed name with
  | utf16le =>
      rw [hname] at h
      obtain ⟨text, hwrite, hpairs⟩ := exists_text littleEndian h.1 h.2
      refine ⟨text, hwrite, ?_, ?_⟩
      · dsimp only
        rw [utf16leToUtf8_eq, hwrite]
        exact littleEndian.units_flatMap _
      · rw [Charset.Narrow, or_iff_right (by decide)]
        exact hpairs
  | utf16be =>
      rw [hname] at h
      obtain ⟨text, hwrite, hpairs⟩ := exists_text bigEndian h.1 h.2
      refine ⟨text, hwrite, ?_, ?_⟩
      · dsimp only
        rw [utf16beToUtf8_eq, hwrite]
        exact bigEndian.units_flatMap _
      · rw [Charset.Narrow, or_iff_right (by decide)]
        exact hpairs
  | other =>
      rw [hname] at h
      have hstrip : Utf8.Valid (stripBom bytes) := by
        obtain ⟨chars, rfl⟩ := h
        cases hbom : hasUtf8Bom (Utf8.encode chars) with
        | false =>
            rw [stripBom_of_not hbom]
            exact ⟨chars, rfl⟩
        | true =>
            obtain ⟨rest, rfl⟩ := hasUtf8Bom_encode hbom
            exact ⟨rest, rfl⟩
      refine ⟨Utf8.decodeLossy (stripBom bytes), ?_, rfl, iff_of_true trivial (.inl rfl)⟩
      rw [← stripBom_eq]
      exact (Utf8.encode_decodeLossy.mpr hstrip).symm

/-- A text that does not start with a mark is read back if it has no pairs, and only then. -/
theorem decodeText_encodeText_iff (h : text.head? ≠ some '\uFEFF') :
    decodeText (encodeText text name) name = encode text ↔ (charsetNamed name).Narrow text := by
  rw [decodeText, encodeText, Charset.Narrow]
  cases charsetNamed name with
  | utf16le =>
      dsimp only
      rw [utf8ToUtf16le_narrow, utf16leToUtf8_eq, or_iff_right (by decide)]
      exact units_narrow_iff littleEndian h
  | utf16be =>
      dsimp only
      rw [utf8ToUtf16be_narrow, utf16beToUtf8_eq, or_iff_right (by decide)]
      exact units_narrow_iff bigEndian h
  | other =>
      refine iff_of_true ?_ (.inl rfl)
      dsimp only
      rw [stripBom_of_not, Utf8.decodeLossy_encode]
      rw [Bool.eq_false_iff]
      intro hbom
      obtain ⟨rest, rfl⟩ := hasUtf8Bom_encode hbom
      exact h rfl

/-- `encode_text` after `decode_text`, unless the string has half a pair. -/
def recode (bytes : Bytes) (name : String) : Option Bytes :=
  (decode (decodeText bytes name)).map (encodeText · name)

theorem recode_iff (h : (charsetNamed name).WellFormed bytes) :
    recode bytes name = some (withoutMark (charsetNamed name).mark bytes) ↔
      (charsetNamed name).NoPairs bytes := by
  obtain ⟨text, hwrite, hread, hpairs⟩ := exists_decodeText name h
  rw [recode, hread, decode_encode, hwrite, hpairs, ← encodeText_eq_write_iff, Option.map_some,
    Option.some.injEq]

/-- `src` and `dest` go from `decode_text` to `encode_text` through UTF-8. -/
theorem encodeDestBytes_decodeSrcBytes (removeBom : Bool) :
    (decodeSrcBytes bytes (.charset name) removeBom).map (encodeDestBytes · (.charset name)) =
      recode bytes name := by
  rw [decodeSrcBytes, encodeUnits, recode, Option.map_map]
  refine Option.map_congr fun chars _ => ?_
  show encodeText (Utf8.decodeLossy (Utf8.encode chars)) name = encodeText chars name
  rw [Utf8.decodeLossy_encode]

theorem charset_roundTrip_iff (name : String) :
    (∀ text : List Char, text.head? ≠ some '\uFEFF' →
      (decodeText (encodeText text name) name = encode text ↔ (charsetNamed name).Narrow text)) ∧
    ∀ bytes, (charsetNamed name).WellFormed bytes →
      (recode bytes name = some (withoutMark (charsetNamed name).mark bytes) ↔
        (charsetNamed name).NoPairs bytes) ∧
      ∀ removeBom,
        ((decodeSrcBytes bytes (.charset name) removeBom).map (encodeDestBytes · (.charset name)) =
          some (withoutMark (charsetNamed name).mark bytes) ↔
            (charsetNamed name).NoPairs bytes) := by
  refine ⟨fun text h => decodeText_encodeText_iff name h, fun bytes h => ⟨recode_iff name h, ?_⟩⟩
  intro removeBom
  rw [encodeDestBytes_decodeSrcBytes]
  exact recode_iff name h

/-- A text with a pair, in the order of bytes that has no pair for it. -/
theorem charset_roundTrip_pair :
    decodeText (encodeText ['a', '😀'] "utf16le") "utf16le" ≠ encode ['a', '😀'] ∧
      recode (littleEndian.write ['a', '😀']) "utf16le" ≠ some (littleEndian.write ['a', '😀']) := by
  decide +kernel

theorem charset_roundTrip_bmp :
    decodeText (encodeText ['a', 'é'] "ucs2") "ucs2" = encode ['a', 'é'] ∧
      recode [0xfe, 0xff, 0x00, 0x61] "utf16be" = some [0x00, 0x61] := by
  refine ⟨((charset_roundTrip_iff "ucs2").1 ['a', 'é'] (by decide)).mpr (.inr ?_), ?_⟩
  · rw [List.forall_mem_cons, List.forall_mem_singleton]
    decide +kernel
  · have hunits : unitsBe [0xfe, 0xff, 0x00, 0x61] = [0xfeff, 0x0061] := by decide +kernel
    refine (((charset_roundTrip_iff "utf16be").2 [0xfe, 0xff, 0x00, 0x61] ⟨rfl, rfl⟩).1).mpr ?_
    show ∀ u ∈ unitsBe _, ¬ High u
    rw [hunits, List.forall_mem_cons, List.forall_mem_singleton]
    decide +kernel

end Mulp.VinylFs
