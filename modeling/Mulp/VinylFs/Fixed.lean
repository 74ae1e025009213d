import Mathlib.Data.List.Perm.Basic
import Mulp.VinylFs.Codecs

/-! The bytes that the codecs leave as they are (`vinyl_fs/codecs.mbt`).

A stream is neither encoded nor decoded. So the two ways to read or write a file agree
on just these bytes. -/
namespace Mulp.VinylFs

open Mulp.Stream Utf8

/-! ## Writing -/

/-- `encode_dest_bytes` keeps a text in its own encoding, and the empty one. -/
def EncodingKeeps (encoding : DestEncoding) (bytes : Bytes) : Prop :=
  match encoding with
  | .utf8 => True
  | .raw => True
  | .charset name =>
      match charsetNamed name with
      | .utf16le => bytes = []
      | .utf16be => bytes = []
      | .other => Valid bytes

section Units

/-- The two bytes that `utf8_to_utf16le` writes for a character. -/
def unitBytes (ch : Char) : Bytes := [toByte (ch.toNat % 256), toByte (ch.toNat / 256)]

theorem utf8ToUtf16le_eq (text : List Char) : utf8ToUtf16le text = text.flatMap unitBytes := rfl

theorem utf8ToUtf16be_perm (text : List Char) :
    (utf8ToUtf16be text).Perm (text.flatMap unitBytes) := by
  induction text with
  | nil => exact .refl []
  | cons ch rest ih => exact (List.Perm.swap _ _ []).append ih

variable {piece : Piece}

theorem toByte_toNat (n : Nat) : (toByte n).toNat = n % 256 := UInt8.toNat_ofNat'

/-- A piece has no more zero bytes than its unit, and fewer if it is ASCII. -/
theorem count_zero_le (h : piece.Sound) :
    piece.bytes.countP (· = 0) + (if piece.char.toNat < 0x80 then 1 else 0) ≤
      (unitBytes piece.char).countP (· = 0) := by
  split_ifs with hchar
  · have hhigh : toByte (piece.char.toNat / 256) = 0 := by
      rw [← UInt8.toNat_inj, toByte_toNat, Nat.div_eq_of_lt (by omega)]
      rfl
    rw [h.ascii hchar, unitBytes, hhigh, Nat.mod_eq_of_lt (by omega : piece.char.toNat < 256)]
    simp only [List.countP_cons, List.countP_nil, toByte, decide_true, if_true, Nat.zero_add,
      Nat.add_comm, Nat.le_refl]
  · rw [List.countP_eq_zero.mpr]
    · omega
    · intro b hb
      have hb := h.high (by omega) b hb
      have hzero : (0 : UInt8).toNat = 0 := rfl
      rw [decide_eq_true_eq, ← UInt8.toNat_inj, hzero]
      omega

/-- A piece has no more bytes from F5 on than its unit, and fewer if it is none of
a character of its own. -/
theorem count_high_le (h : piece.Sound) :
    piece.bytes.countP (0xF5 ≤ ·.toNat) + (if piece.char = replacement then 1 else 0) ≤
      (unitBytes piece.char).countP (0xF5 ≤ ·.toNat) := by
  have hreplacement : (unitBytes replacement).countP (0xF5 ≤ ·.toNat) = 2 := by decide
  have hnone {bytes : Bytes} (h : ∀ b ∈ bytes, b.toNat < 0xF5) :
      bytes.countP (0xF5 ≤ ·.toNat) = 0 := by
    refine List.countP_eq_zero.mpr fun b hb => ?_
    have := h b hb
    rw [decide_eq_true_eq]
    omega
  -- well-formed sequences have no such byte, a stray one is one, and a broken start none
  cases h with
  | valid c =>
      dsimp only
      have hlow : ∀ b ∈ String.utf8EncodeChar c, b.toNat < 0xF5 := by
        intro b hb
        by_cases hc : c.toNat < 0x80
        · rw [utf8EncodeChar_ascii hc, List.mem_singleton] at hb
          rw [hb, UInt8.toNat_ofNat']
          omega
        · exact (mem_utf8EncodeChar (by omega) hb).2
      rw [hnone hlow]
      split_ifs with hc
      · rw [hc, hreplacement]
        omega
      · omega
  | stray b hb =>
      have hle := List.countP_le_length (p := fun b : UInt8 => decide (0xF5 ≤ b.toNat)) (l := [b])
      rw [List.length_singleton] at hle
      rw [if_pos rfl, hreplacement]
      exact Nat.add_le_add_right hle 1
  | broken b conts hlead hconts _ =>
      rw [hnone, if_pos rfl, hreplacement]
      · omega
      · intro c hc
        rcases List.mem_cons.mp hc with rfl | hc
        · exact hlead.2
        · have := (hconts c hc).2
          omega

/-- No bytes are those of the units of the text they decode to. -/
theorem eq_nil_of_perm_units {bytes : Bytes}
    (h : bytes.Perm ((decodeLossy bytes).flatMap unitBytes)) :
    bytes = [] := by
  have hperm : ((pieces bytes).flatMap Piece.bytes).Perm
      ((pieces bytes).flatMap fun piece => unitBytes piece.char) := by
    rw [flatMap_pieces]
    rwa [decodeLossy, List.flatMap_map] at h
  have hsound {piece : Piece} (hpiece : piece ∈ pieces bytes) := sound_of_mem_pieces hpiece
  have hchar : ∀ piece ∈ pieces bytes, 0x80 ≤ piece.char.toNat := by
    intro piece hpiece
    have heq := countP_eq_of_flatMap
      (fun piece hpiece => Nat.le_of_add_right_le (count_zero_le (hsound hpiece)))
      (hperm.countP_eq (· = 0)) piece hpiece
    have hlt := count_zero_le (hsound hpiece)
    split_ifs at hlt <;> omega
  have hown : ∀ piece ∈ pieces bytes, piece.char ≠ replacement := by
    intro piece hpiece
    have heq := countP_eq_of_flatMap
      (fun piece hpiece => Nat.le_of_add_right_le (count_high_le (hsound hpiece)))
      (hperm.countP_eq (0xF5 ≤ ·.toNat)) piece hpiece
    have hlt := count_high_le (hsound hpiece)
    split_ifs at hlt <;> omega
  have hvalid : ∀ piece ∈ pieces bytes, piece.bytes = String.utf8EncodeChar piece.char := by
    intro piece hpiece
    cases hsound hpiece with
    | valid c => rfl
    | stray b h => exact absurd rfl (hown _ hpiece)
    | broken b conts hlead hconts _ => exact absurd rfl (hown _ hpiece)
  -- what is left are sequences of at least two bytes for units of two
  have hlength : ∀ piece ∈ pieces bytes, piece.char.toNat < 0x800 := by
    intro piece hpiece
    have hunit (piece : Piece) : (unitBytes piece.char).countP (fun _ => true) = 2 := rfl
    have hbytes : ∀ piece ∈ pieces bytes,
        piece.bytes.countP (fun _ => true) =
          if piece.char.toNat < 0x800 then 2 else if piece.char.toNat < 0x10000 then 3 else 4 := by
      intro piece hpiece
      have := hchar piece hpiece
      rw [List.countP_true, hvalid piece hpiece, length_utf8EncodeChar, if_neg (by omega)]
    have heq := countP_eq_of_flatMap (fun piece hpiece => by
        rw [hunit, hbytes piece hpiece]
        split_ifs <;> omega)
      (hperm.symm.countP_eq fun _ => true) piece hpiece
    rw [hunit, hbytes piece hpiece] at heq
    split_ifs at heq with hlt
    · exact hlt
    · omega
    · omega
  -- whose second byte is ASCII
  have hnone : ∀ piece ∈ pieces bytes, piece.bytes.countP (·.toNat < 0x80) = 0 := by
    intro piece hpiece
    refine List.countP_eq_zero.mpr fun b hb => ?_
    have := (hsound hpiece).high (hchar piece hpiece) b hb
    rw [decide_eq_true_eq]
    omega
  have hempty : pieces bytes = [] := by
    refine List.eq_nil_iff_forall_not_mem.mpr fun piece hpiece => ?_
    have heq := countP_eq_of_flatMap (fun piece hpiece => by rw [hnone piece hpiece]; omega)
      (hperm.countP_eq (·.toNat < 0x80)) piece hpiece
    rw [hnone piece hpiece] at heq
    have hsecond := List.countP_eq_zero.mp heq.symm (toByte (piece.char.toNat / 256))
      (by simp [unitBytes])
    have hlt := hlength piece hpiece
    rw [decide_eq_true_eq, toByte_toNat] at hsecond
    omega
  rw [← flatMap_pieces bytes, hempty]
  rfl

end Units

theorem encodeDestBytes_eq_iff (bytes : Bytes) (encoding : DestEncoding) :
    encodeDestBytes bytes encoding = bytes ↔ EncodingKeeps encoding bytes := by
  cases encoding with
  | utf8 => exact iff_of_true rfl trivial
  | raw => exact iff_of_true rfl trivial
  | charset name =>
      rw [encodeDestBytes, encodeText, EncodingKeeps]
      cases charsetNamed name with
      | utf16le =>
          refine ⟨fun h => eq_nil_of_perm_units ?_, fun h => by rw [h]; rfl⟩
          rw [← utf8ToUtf16le_eq]
          exact .of_eq h.symm
      | utf16be =>
          refine ⟨fun h => eq_nil_of_perm_units ?_, fun h => by rw [h]; rfl⟩
          exact (List.Perm.of_eq h.symm).trans (utf8ToUtf16be_perm _)
      | other => exact encode_decodeLossy

/-! ## Reading -/

/-- `decode_src_bytes` keeps a text in its own encoding without a byte order mark, and few others.
The few are bytes of UTF-16 that happen to come out as themselves when they have been decoded and
encoded as UTF-8. -/
def DecodingKeeps (encoding : SrcEncoding) (removeBom : Bool) (bytes : Bytes) : Prop :=
  match encoding with
  | .raw => True
  | .utf8 => removeBom = false ∨ hasUtf8Bom bytes = false
  | .charset name =>
      match charsetNamed name with
      | .utf16le => bytes = [] ∨ bytes = [0xEB, 0xBF, 0xAB]
      | .utf16be => bytes = [] ∨ bytes = [0xEE, 0xBA, 0xBA]
      | .other => Valid bytes ∧ hasUtf8Bom bytes = false

section Bom

theorem stripBom_of_not {bytes : Bytes} (h : hasUtf8Bom bytes = false) :
    stripBom bytes = bytes := by
  rw [stripBom, h]
  rfl

theorem hasUtf8Bom_iff {bytes : Bytes} :
    hasUtf8Bom bytes = true ↔ ∃ rest, bytes = encode ['\uFEFF'] ++ rest := by
  constructor
  · intro h
    rcases bytes with _ | ⟨b₀, _ | ⟨b₁, _ | ⟨b₂, rest⟩⟩⟩
    · cases h
    · cases h
    · cases h
    · simp only [hasUtf8Bom, Bool.and_eq_true, decide_eq_true_eq] at h
      obtain ⟨⟨rfl, rfl⟩, rfl⟩ := h
      exact ⟨rest, rfl⟩
  · rintro ⟨rest, rfl⟩
    rfl

/-- A byte order mark that is left out does not come back. -/
theorem encode_decodeLossy_stripBom {bytes : Bytes} :
    encode (decodeLossy (stripBom bytes)) = bytes ↔ Valid bytes ∧ hasUtf8Bom bytes = false := by
  cases hbom : hasUtf8Bom bytes with
  | false => rw [stripBom_of_not hbom, encode_decodeLossy, and_iff_left rfl]
  | true =>
      obtain ⟨rest, rfl⟩ := hasUtf8Bom_iff.mp hbom
      refine iff_of_false (fun h => ?_) (by simp)
      have hrest : stripBom (encode ['\uFEFF'] ++ rest) = rest := rfl
      have hdecode : decodeLossy (encode ['\uFEFF'] ++ rest) = '\uFEFF' :: decodeLossy rest := by
        rw [encode_cons, encode_nil, List.append_nil, decodeLossy, pieces_encode_cons,
          List.map_cons, ← decodeLossy]
      rw [hrest] at h
      have hlength := congrArg List.length (congrArg decodeLossy h)
      rw [decodeLossy_encode, hdecode, List.length_cons] at hlength
      omega

end Bom

section Read

/-- The bytes of a unit, the low one first. -/
def leBytes (u : UInt16) : Bytes := [toByte (u.toNat % 256), toByte (u.toNat / 256)]

def beBytes (u : UInt16) : Bytes := [toByte (u.toNat / 256), toByte (u.toNat % 256)]

theorem unit_bytes (low high : UInt8) :
    leBytes (.ofNat (high.toNat * 256 + low.toNat)) = [low, high] := by
  have hlow := low.toNat_lt
  have hhigh := high.toNat_lt
  simp only [leBytes, List.cons.injEq, ← UInt8.toNat_inj, toByte_toNat, UInt16.toNat_ofNat',
    and_true]
  omega

theorem unitsLe_bytes (bytes : Bytes) :
    ∃ tail, tail.length ≤ 1 ∧ bytes = (unitsLe bytes).flatMap leBytes ++ tail := by
  fun_induction unitsLe bytes with
  | case1 low high rest ih =>
      obtain ⟨tail, htail, hrest⟩ := ih
      refine ⟨tail, htail, ?_⟩
      rw [List.flatMap_cons, unit_bytes, List.append_assoc, ← hrest]
      rfl
  | case2 bytes h =>
      refine ⟨bytes, ?_, rfl⟩
      rcases bytes with _ | ⟨low, _ | ⟨high, rest⟩⟩
      · exact Nat.zero_le 1
      · exact Nat.le_refl 1
      · exact absurd rfl (h low high rest)

theorem unitsBe_bytes (bytes : Bytes) :
    ∃ tail, tail.length ≤ 1 ∧ bytes = (unitsBe bytes).flatMap beBytes ++ tail := by
  fun_induction unitsBe bytes with
  | case1 high low rest ih =>
      obtain ⟨tail, htail, hrest⟩ := ih
      refine ⟨tail, htail, ?_⟩
      have hunit : beBytes (.ofNat (high.toNat * 256 + low.toNat)) = [high, low] :=
        congrArg List.reverse (unit_bytes low high)
      rw [List.flatMap_cons, hunit, List.append_assoc, ← hrest]
      rfl
  | case2 bytes h =>
      refine ⟨bytes, ?_, rfl⟩
      rcases bytes with _ | ⟨high, _ | ⟨low, rest⟩⟩
      · exact Nat.zero_le 1
      · exact Nat.le_refl 1
      · exact absurd rfl (h high low rest)

/-- A character has no more zero bytes in UTF-8 than in UTF-16, and fewer if it is
ASCII. -/
theorem count_zero_utf8_le (c : Char) :
    (String.utf8EncodeChar c).countP (· = 0) + (if c.toNat < 0x80 then 1 else 0) ≤
      ((Utf16.encodeChar c).flatMap leBytes).countP (· = 0) := by
  split_ifs with hc
  · have hunit : (Utf16.encodeChar c).flatMap leBytes = unitBytes c := by
      have hmod : c.toNat % 2 ^ 16 = c.toNat := Nat.mod_eq_of_lt (by omega)
      rw [Utf16.encodeChar, if_pos (by omega), List.flatMap_singleton, leBytes,
        UInt16.toNat_ofNat', hmod]
      rfl
    have hle := count_zero_le (.valid c)
    rw [if_pos hc] at hle
    rw [hunit]
    exact hle
  · rw [List.countP_eq_zero.mpr]
    · omega
    · intro b hb
      have hb := (mem_utf8EncodeChar (by omega) hb).1
      have hzero : (0 : UInt8).toNat = 0 := rfl
      rw [decide_eq_true_eq, ← UInt8.toNat_inj, hzero]
      omega

variable {chars : List Char} {bom tail : Bytes} {order : UInt16 → Bytes}

/-- Characters of three bytes in UTF-8 take one unit in UTF-16. -/
theorem length_three (hthree : ∀ c ∈ chars, 0x800 ≤ c.toNat)
    (hbmp : ∀ c ∈ chars, c.toNat < 0x10000) :
    (encode chars).length = 3 * chars.length ∧
      (chars.flatMap fun c => (Utf16.encodeChar c).flatMap leBytes).length = 2 * chars.length := by
  induction chars with
  | nil => exact ⟨rfl, rfl⟩
  | cons c rest ih =>
      have hrest := ih (fun d hd => hthree d (List.mem_cons_of_mem c hd))
        fun d hd => hbmp d (List.mem_cons_of_mem c hd)
      have hc := hthree c List.mem_cons_self
      have hutf8 : (String.utf8EncodeChar c).length = 3 := by
        rw [length_utf8EncodeChar, if_neg (by omega), if_neg (by omega),
          if_pos (hbmp c List.mem_cons_self)]
      have hutf16 : ((Utf16.encodeChar c).flatMap leBytes).length = 2 := by
        rw [Utf16.encodeChar, if_pos (hbmp c List.mem_cons_self)]
        rfl
      rw [encode_cons, List.flatMap_cons, List.length_append, List.length_append, hutf8, hutf16,
        hrest.1, hrest.2, List.length_cons]
      omega

/-- A text with the same bytes in UTF-8 and in UTF-16 has at most one character,
and this takes the byte that is left over. -/
theorem units_kept (horder : ∀ u, (order u).Perm (leBytes u)) (hbom : bom = [] ∨ 0xFF ∈ bom)
    (h : encode chars = bom ++ ((Utf16.encode chars).flatMap order ++ tail)) :
    bom = [] ∧ chars.length = tail.length ∧ ∀ c ∈ chars, c.toNat < 0x10000 := by
  have hperm : ((Utf16.encode chars).flatMap order).Perm
      (chars.flatMap fun c => (Utf16.encodeChar c).flatMap leBytes) := by
    rw [Utf16.encode, List.flatMap_assoc]
    exact List.Perm.flatMap_left _ fun c _ => List.Perm.flatMap_left _ fun u _ => horder u
  have hchar : ∀ c ∈ chars, 0x80 ≤ c.toNat := by
    intro c hc
    have hle : ∀ c ∈ chars, (String.utf8EncodeChar c).countP (· = 0) ≤
        ((Utf16.encodeChar c).flatMap leBytes).countP (· = 0) :=
      fun c _ => Nat.le_of_add_right_le (count_zero_utf8_le c)
    have hcount := congrArg (List.countP (· = 0)) h
    rw [List.countP_append, List.countP_append, hperm.countP_eq] at hcount
    have htotal := countP_flatMap_le hle
    rw [← encode] at htotal
    have heq := countP_eq_of_flatMap hle (by rw [← encode]; omega) c hc
    have hlt := count_zero_utf8_le c
    split_ifs at hlt <;> omega
  have hbytes : ∀ b ∈ encode chars, 0x80 ≤ b.toNat ∧ b.toNat < 0xF5 := by
    intro b hb
    obtain ⟨c, hc, hb⟩ := List.mem_flatMap.mp hb
    exact mem_utf8EncodeChar (hchar c hc) hb
  have hnone : bom = [] := by
    refine hbom.resolve_right fun hmem => ?_
    have hlt := (hbytes 0xFF (by rw [h]; exact List.mem_append_left _ hmem)).2
    exact absurd hlt (by decide)
  -- the bytes of the units are among those of the text
  have hunits {c : Char} (hc : c ∈ chars) {u : UInt16} (hu : u ∈ Utf16.encodeChar c) {b : UInt8}
      (hb : b ∈ leBytes u) : b ∈ encode chars := by
    have hmem : b ∈ (Utf16.encode chars).flatMap order :=
      List.mem_flatMap.mpr ⟨u, List.mem_flatMap.mpr ⟨c, hc, hu⟩, (horder u).mem_iff.mpr hb⟩
    rw [h]
    exact List.mem_append_right _ (List.mem_append_left _ hmem)
  have hhigh (u : UInt16) : (toByte (u.toNat / 256)) ∈ leBytes u := by simp [leBytes]
  have hthree : ∀ c ∈ chars, 0x800 ≤ c.toNat := by
    intro c hc
    by_cases hbmp : c.toNat < 0x10000
    · have hu : UInt16.ofNat c.toNat ∈ Utf16.encodeChar c := by simp [Utf16.encodeChar, hbmp]
      have hle := (hbytes _ (hunits hc hu (hhigh _))).1
      rw [toByte_toNat, UInt16.toNat_ofNat'] at hle
      omega
    · omega
  have hbmp : ∀ c ∈ chars, c.toNat < 0x10000 := by
    intro c hc
    by_contra hbmp
    have hvalid : c.toNat.isValidChar := c.valid
    simp only [Nat.isValidChar] at hvalid
    have hu : UInt16.ofNat (0xD800 + (c.toNat - 0x10000) / 0x400) ∈ Utf16.encodeChar c := by
      simp [Utf16.encodeChar, hbmp]
    have hmem := hunits hc hu (hhigh _)
    obtain ⟨d, hd, hmem⟩ := List.mem_flatMap.mp hmem
    have hne := mem_utf8EncodeChar_three (hthree d hd) hmem
    rw [toByte_toNat, UInt16.toNat_ofNat'] at hne
    omega
  have hlength := length_three hthree hbmp
  rw [← hperm.length_eq] at hlength
  refine ⟨hnone, ?_, hbmp⟩
  have htotal := congrArg List.length h
  rw [hnone, List.nil_append, List.length_append, hlength.1, hlength.2] at htotal
  omega

/-- The digits of a unit that the two encodings are made of. -/
theorem unit_digits {n : Nat} (hn : n < 0x10000) :
    ∃ a q r c, a < 16 ∧ q < 16 ∧ r < 4 ∧ c < 64 ∧ n = 4096 * a + 256 * q + 64 * r + c :=
  ⟨n / 4096, n / 256 % 16, n / 64 % 4, n % 64, by omega, by omega, by omega, by omega, by omega⟩

theorem le_digits {a q r c : Nat} (ha : a < 16) (hq : q < 16) (hr : r < 4) (hc : c < 64)
    (h₀ : a + 224 = 64 * r + c) (h₁ : 4 * q + r + 128 = 16 * a + q) :
    4096 * a + 256 * q + 64 * r + c = 0xBFEB := by
  have ha : a = 11 := by omega
  omega

theorem be_digits {a q r c : Nat} (hq : q < 16) (hc : c < 64) (h₀ : a + 224 = 16 * a + q)
    (h₁ : 4 * q + r + 128 = 64 * r + c) : 4096 * a + 256 * q + 64 * r + c = 0xEEBA := by
  have ha : a = 14 := by omega
  omega

/-- The characters that have their UTF-16 bytes at the start of their UTF-8 ones. -/
theorem kept_char {c : Char} {t : UInt8} (hc : c.toNat < 0x10000) :
    (String.utf8EncodeChar c = leBytes (.ofNat c.toNat) ++ [t] →
      String.utf8EncodeChar c = [0xEB, 0xBF, 0xAB]) ∧
    (String.utf8EncodeChar c = beBytes (.ofNat c.toNat) ++ [t] →
      String.utf8EncodeChar c = [0xEE, 0xBA, 0xBA]) := by
  rw [utf8EncodeChar_eq]
  generalize c.toNat = n at hc
  have hthree {order : UInt16 → Bytes} (hlength : ∀ u, (order u).length = 2)
      (h : encodeNat n = order (.ofNat n) ++ [t]) : encodeNat n =
        [.ofNat (n / 4096 % 16 + 224), .ofNat (n / 64 % 64 + 128), .ofNat (n % 64 + 128)] := by
    have htotal := congrArg List.length h
    rw [List.length_append, hlength, encodeNat] at htotal
    rw [encodeNat]
    split_ifs at htotal ⊢
    · cases htotal
    · cases htotal
    · rfl
    · cases htotal
  have hunit : (UInt16.ofNat n).toNat = n := by
    rw [UInt16.toNat_ofNat']
    exact Nat.mod_eq_of_lt hc
  -- the digits of the code point that both encodings cut it into
  obtain ⟨a, q, r, c, ha, hq, hr, hlow, hn⟩ := unit_digits hc
  have hlead : n / 4096 % 16 = a := by omega
  have hmiddle : n / 64 % 64 = 4 * q + r := by omega
  have hdiv : n / 256 = 16 * a + q := by omega
  have hmod : n % 256 = 64 * r + c := by omega
  constructor
  · intro h
    have hthree := hthree (fun _ => rfl) h
    have hbytes := hthree.symm.trans h
    simp only [leBytes, List.cons_append, List.nil_append, List.cons.injEq, ← UInt8.toNat_inj,
      toByte_toNat, UInt8.toNat_ofNat', hunit, hlead, hmiddle, hdiv, hmod] at hbytes
    simp (disch := omega) only [Nat.mod_eq_of_lt] at hbytes
    have hn : n = 0xBFEB := hn.trans (le_digits ha hq hr hlow hbytes.1 hbytes.2.1)
    rw [hthree, hn]
    rfl
  · intro h
    have hthree := hthree (fun _ => rfl) h
    have hbytes := hthree.symm.trans h
    simp only [beBytes, List.cons_append, List.nil_append, List.cons.injEq, ← UInt8.toNat_inj,
      toByte_toNat, UInt8.toNat_ofNat', hunit, hlead, hmiddle, hdiv, hmod] at hbytes
    simp (disch := omega) only [Nat.mod_eq_of_lt] at hbytes
    have hn : n = 0xEEBA := hn.trans (be_digits hq hlow hbytes.1 hbytes.2.1)
    rw [hthree, hn]
    rfl

/-- A text with the same bytes in UTF-8 and in UTF-16. -/
theorem kept_text (horder : ∀ u, (order u).Perm (leBytes u)) (hbom : bom = [] ∨ 0xFF ∈ bom)
    (htail : tail.length ≤ 1)
    (h : encode chars = bom ++ ((Utf16.encode chars).flatMap order ++ tail)) :
    encode chars = [] ∨ ∃ c t, c.toNat < 0x10000 ∧ encode chars = String.utf8EncodeChar c ∧
      String.utf8EncodeChar c = order (.ofNat c.toNat) ++ [t] := by
  obtain ⟨rfl, hlength, hbmp⟩ := units_kept horder hbom h
  rcases chars with _ | ⟨c, _ | ⟨d, rest⟩⟩
  · exact .inl rfl
  · right
    obtain ⟨t, rfl⟩ := List.length_eq_one_iff.mp hlength.symm
    have hc := hbmp c List.mem_cons_self
    have hencode : encode [c] = String.utf8EncodeChar c := by
      rw [encode_cons, encode_nil, List.append_nil]
    have hunits : Utf16.encode [c] = [.ofNat c.toNat] := by
      simp [Utf16.encode, Utf16.encodeChar, hc]
    refine ⟨c, t, hc, hencode, ?_⟩
    rw [← hencode, h, hunits]
    simp
  · simp only [List.length_cons] at hlength
    omega

theorem utf16leToUtf8_bytes (bytes : Bytes) :
    ∃ bom tail, (bom = [] ∨ 0xFF ∈ bom) ∧ tail.length ≤ 1 ∧
      bytes = bom ++ ((utf16leToUtf8 bytes).flatMap leBytes ++ tail) := by
  fun_cases utf16leToUtf8 bytes with
  | case1 rest =>
      obtain ⟨tail, htail, hrest⟩ := unitsLe_bytes rest
      exact ⟨[0xff, 0xfe], tail, .inr (by simp), htail, congrArg (0xff :: 0xfe :: ·) hrest⟩
  | case2 bytes =>
      obtain ⟨tail, htail, hbytes⟩ := unitsLe_bytes bytes
      exact ⟨[], tail, .inl rfl, htail, hbytes⟩

theorem utf16beToUtf8_bytes (bytes : Bytes) :
    ∃ bom tail, (bom = [] ∨ 0xFF ∈ bom) ∧ tail.length ≤ 1 ∧
      bytes = bom ++ ((utf16beToUtf8 bytes).flatMap beBytes ++ tail) := by
  fun_cases utf16beToUtf8 bytes with
  | case1 rest =>
      obtain ⟨tail, htail, hrest⟩ := unitsBe_bytes rest
      exact ⟨[0xfe, 0xff], tail, .inr (by simp), htail, congrArg (0xfe :: 0xff :: ·) hrest⟩
  | case2 bytes =>
      obtain ⟨tail, htail, hbytes⟩ := unitsBe_bytes bytes
      exact ⟨[], tail, .inl rfl, htail, hbytes⟩

theorem encodeUnits_eq_some {units : List UInt16} {bytes : Bytes}
    (h : encodeUnits units = some bytes) :
    ∃ chars, Utf16.encode chars = units ∧ encode chars = bytes := by
  obtain ⟨chars, hdecode, hencode⟩ := Option.map_eq_some_iff.mp h
  exact ⟨chars, Utf16.encode_decode hdecode, hencode⟩

theorem decodeSrcBytes_eq_iff (bytes : Bytes) (encoding : SrcEncoding) (removeBom : Bool) :
    decodeSrcBytes bytes encoding removeBom = some bytes ↔
      DecodingKeeps encoding removeBom bytes := by
  cases encoding with
  | raw => exact iff_of_true rfl trivial
  | utf8 =>
      rw [decodeSrcBytes, DecodingKeeps, Option.some.injEq]
      cases removeBom with
      | false => exact iff_of_true rfl (.inl rfl)
      | true =>
          rw [if_pos rfl]
          cases hbom : hasUtf8Bom bytes with
          | false => exact iff_of_true (stripBom_of_not hbom) (.inr rfl)
          | true =>
              obtain ⟨rest, rfl⟩ := hasUtf8Bom_iff.mp hbom
              refine iff_of_false (fun h => ?_) (by simp)
              have hlength : rest.length = rest.length + 3 := congrArg List.length h
              omega
  | charset name =>
      rw [decodeSrcBytes, decodeText, DecodingKeeps]
      cases charsetNamed name with
      | utf16le =>
          refine ⟨fun h => ?_, fun h => by rcases h with rfl | rfl <;> decide +kernel⟩
          obtain ⟨chars, hunits, rfl⟩ := encodeUnits_eq_some h
          obtain ⟨bom, tail, hbom, htail, hbytes⟩ := utf16leToUtf8_bytes (encode chars)
          dsimp only at hunits
          rw [← hunits] at hbytes
          rcases kept_text (fun u => .refl _) hbom htail hbytes with hnil | ⟨c, t, hc, hchars, hkept⟩
          · exact .inl hnil
          · exact .inr (hchars.trans ((kept_char hc).1 hkept))
      | utf16be =>
          refine ⟨fun h => ?_, fun h => by rcases h with rfl | rfl <;> decide +kernel⟩
          obtain ⟨chars, hunits, rfl⟩ := encodeUnits_eq_some h
          obtain ⟨bom, tail, hbom, htail, hbytes⟩ := utf16beToUtf8_bytes (encode chars)
          dsimp only at hunits
          rw [← hunits] at hbytes
          rcases kept_text (fun u => .swap _ _ []) hbom htail hbytes with hnil | ⟨c, t, hc, hchars, hkept⟩
          · exact .inl hnil
          · exact .inr (hchars.trans ((kept_char hc).2 hkept))
      | other =>
          have hdecode : encodeUnits (Utf16.encode (decodeLossy (stripBom bytes))) =
              some (encode (decodeLossy (stripBom bytes))) := by
            rw [encodeUnits, Utf16.decode_encode]
            rfl
          dsimp only
          rw [hdecode, Option.some.injEq, encode_decodeLossy_stripBom]

end Read

end Mulp.VinylFs
