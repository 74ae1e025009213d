import Mathlib.Data.List.Basic
import Mathlib.Tactic.SplitIfs

/-! UTF-8 with a lossy decoder.

The decoder cuts its input into pieces. A piece is a well-formed sequence, or the
longest start of one that the input breaks off, or a byte that starts none; the
last two decode to U+FFFD. -/
namespace Utf8

def encode (chars : List Char) : List UInt8 := chars.flatMap String.utf8EncodeChar

@[simp] theorem encode_nil : encode [] = [] := rfl

@[simp] theorem encode_cons (c : Char) (chars : List Char) :
    encode (c :: chars) = String.utf8EncodeChar c ++ encode chars := List.flatMap_cons

theorem encode_append (first second : List Char) :
    encode (first ++ second) = encode first ++ encode second := List.flatMap_append

/-- A byte sequence that is the encoding of a text. -/
def Valid (bytes : List UInt8) : Prop := ∃ chars, encode chars = bytes

def replacement : Char := '\uFFFD'

structure Piece where
  bytes : List UInt8
  char : Char

/-- The byte may follow in a sequence. -/
def Cont (b : UInt8) : Prop := 0x80 ≤ b.toNat ∧ b.toNat ≤ 0xBF

/-- The byte starts a sequence of two. -/
def Lead2 (b : UInt8) : Prop := 0xC2 ≤ b.toNat ∧ b.toNat ≤ 0xDF

/-- The bytes start a sequence of three. -/
def Start3 (b₀ b₁ : UInt8) : Prop :=
  b₀.toNat = 0xE0 ∧ 0xA0 ≤ b₁.toNat ∧ b₁.toNat ≤ 0xBF ∨
  (0xE1 ≤ b₀.toNat ∧ b₀.toNat ≤ 0xEC ∨ 0xEE ≤ b₀.toNat ∧ b₀.toNat ≤ 0xEF) ∧ Cont b₁ ∨
  b₀.toNat = 0xED ∧ 0x80 ≤ b₁.toNat ∧ b₁.toNat ≤ 0x9F

/-- The bytes start a sequence of four. -/
def Start4 (b₀ b₁ : UInt8) : Prop :=
  b₀.toNat = 0xF0 ∧ 0x90 ≤ b₁.toNat ∧ b₁.toNat ≤ 0xBF ∨
  0xF1 ≤ b₀.toNat ∧ b₀.toNat ≤ 0xF3 ∧ Cont b₁ ∨
  b₀.toNat = 0xF4 ∧ 0x80 ≤ b₁.toNat ∧ b₁.toNat ≤ 0x8F

instance (b : UInt8) : Decidable (Cont b) := inferInstanceAs (Decidable (_ ∧ _))
instance (b : UInt8) : Decidable (Lead2 b) := inferInstanceAs (Decidable (_ ∧ _))
instance (b₀ b₁ : UInt8) : Decidable (Start3 b₀ b₁) := inferInstanceAs (Decidable (_ ∨ _))
instance (b₀ b₁ : UInt8) : Decidable (Start4 b₀ b₁) := inferInstanceAs (Decidable (_ ∨ _))

/-- The payload of a byte that follows. -/
def low (b : UInt8) : Nat := b.toNat % 64

/-- The first piece of an input that is not empty. -/
def cut (b₀ : UInt8) (rest : List UInt8) : Piece :=
  if b₀.toNat < 0x80 then ⟨[b₀], .ofNat b₀.toNat⟩
  else
    match rest with
    | [] => ⟨[b₀], replacement⟩
    | b₁ :: rest =>
        if Lead2 b₀ ∧ Cont b₁ then ⟨[b₀, b₁], .ofNat (b₀.toNat % 32 * 64 + low b₁)⟩
        else if Start3 b₀ b₁ then
          match rest with
          | [] => ⟨[b₀, b₁], replacement⟩
          | b₂ :: _ =>
              if Cont b₂ then
                ⟨[b₀, b₁, b₂], .ofNat (b₀.toNat % 16 * 4096 + low b₁ * 64 + low b₂)⟩
              else ⟨[b₀, b₁], replacement⟩
        else if Start4 b₀ b₁ then
          match rest with
          | [] => ⟨[b₀, b₁], replacement⟩
          | [b₂] => if Cont b₂ then ⟨[b₀, b₁, b₂], replacement⟩ else ⟨[b₀, b₁], replacement⟩
          | b₂ :: b₃ :: _ =>
              if Cont b₂ then
                if Cont b₃ then
                  ⟨[b₀, b₁, b₂, b₃],
                    .ofNat (b₀.toNat % 8 * 262144 + low b₁ * 4096 + low b₂ * 64 + low b₃)⟩
                else ⟨[b₀, b₁, b₂], replacement⟩
              else ⟨[b₀, b₁], replacement⟩
        else ⟨[b₀], replacement⟩

/-- The pieces of the input after its first bytes, which are in a piece already. -/
def piecesAfter : Nat → List UInt8 → List Piece
  | _, [] => []
  | k + 1, _ :: rest => piecesAfter k rest
  | 0, b :: rest => cut b rest :: piecesAfter ((cut b rest).bytes.length - 1) rest

def pieces (bytes : List UInt8) : List Piece := piecesAfter 0 bytes

def decodeLossy (bytes : List UInt8) : List Char := (pieces bytes).map Piece.char

/-- What a piece can be. -/
inductive Piece.Sound : Piece → Prop where
  | valid (c : Char) : Sound ⟨String.utf8EncodeChar c, c⟩
  | stray (b : UInt8) (h : 0x80 ≤ b.toNat) : Sound ⟨[b], replacement⟩
  | broken (b : UInt8) (conts : List UInt8) (hlead : 0x80 ≤ b.toNat ∧ b.toNat < 0xF5)
      (hconts : ∀ c ∈ conts, Cont c) (hlength : conts.length ≤ 2) : Sound ⟨b :: conts, replacement⟩

theorem piecesAfter_eq (k : Nat) (bytes : List UInt8) :
    piecesAfter k bytes = pieces (bytes.drop k) := by
  induction bytes generalizing k with
  | nil => simp [pieces, piecesAfter]
  | cons b rest ih =>
      cases k with
      | zero => rfl
      | succ k => exact ih k

theorem pieces_cons (b : UInt8) (rest : List UInt8) :
    pieces (b :: rest) = cut b rest :: pieces (rest.drop ((cut b rest).bytes.length - 1)) := by
  rw [pieces, piecesAfter, piecesAfter_eq]

/-- The first piece is a start of the input. -/
theorem cut_prefix (b : UInt8) (rest : List UInt8) :
    b :: rest = (cut b rest).bytes ++ rest.drop ((cut b rest).bytes.length - 1) := by
  unfold cut
  split_ifs
  · rfl
  · rcases rest with _ | ⟨b₁, rest⟩
    · rfl
    · dsimp only
      split_ifs
      · rfl
      · rcases rest with _ | ⟨b₂, rest⟩
        · rfl
        · dsimp only
          split_ifs <;> rfl
      · rcases rest with _ | ⟨b₂, _ | ⟨b₃, rest⟩⟩
        · rfl
        · dsimp only
          split_ifs <;> rfl
        · dsimp only
          split_ifs <;> rfl
      · rfl

/-! ## Well-formed sequences -/

theorem val_ofNat {n : Nat} (h : n.isValidChar) : (Char.ofNat n).val.toNat = n := by
  rw [Char.ofNat, dif_pos h]
  rfl

/-- The encoding of a code point. -/
def encodeNat (n : Nat) : List UInt8 :=
  if n ≤ 127 then [.ofNat n]
  else if n ≤ 2047 then [.ofNat (n / 64 % 32 + 192), .ofNat (n % 64 + 128)]
  else if n ≤ 65535 then
    [.ofNat (n / 4096 % 16 + 224), .ofNat (n / 64 % 64 + 128), .ofNat (n % 64 + 128)]
  else
    [.ofNat (n / 262144 % 8 + 240), .ofNat (n / 4096 % 64 + 128), .ofNat (n / 64 % 64 + 128),
      .ofNat (n % 64 + 128)]

theorem utf8EncodeChar_eq (c : Char) : String.utf8EncodeChar c = encodeNat c.toNat := rfl

theorem utf8EncodeChar_ofNat {n : Nat} (h : n.isValidChar) :
    String.utf8EncodeChar (.ofNat n) = encodeNat n := by
  rw [utf8EncodeChar_eq, Char.toNat, val_ofNat h]

/-! ### Bytes and what they carry -/

theorem low_lt (b : UInt8) : low b < 64 := Nat.mod_lt _ (by decide)

theorem Cont.toNat_eq {b : UInt8} (h : Cont b) : b.toNat = low b + 128 := by
  simp only [Cont, low] at *
  omega

theorem Start3.cont {b₀ b₁ : UInt8} (h : Start3 b₀ b₁) :
    b₀.toNat = b₀.toNat % 16 + 224 ∧ Cont b₁ := by
  simp only [Start3, Cont] at h ⊢
  omega

/-- No encoding that is too long, and none of a surrogate. -/
theorem Start3.range {b₀ b₁ : UInt8} (h : Start3 b₀ b₁) :
    2048 ≤ b₀.toNat % 16 * 4096 + low b₁ * 64 ∧
      (b₀.toNat % 16 * 4096 + low b₁ * 64 + 64 ≤ 0xD800 ∨
        0xE000 ≤ b₀.toNat % 16 * 4096 + low b₁ * 64) := by
  simp only [Start3, Cont, low] at *
  omega

theorem Start4.cont {b₀ b₁ : UInt8} (h : Start4 b₀ b₁) :
    b₀.toNat = b₀.toNat % 8 + 240 ∧ Cont b₁ := by
  simp only [Start4, Cont] at h ⊢
  omega

theorem Start4.range {b₀ b₁ : UInt8} (h : Start4 b₀ b₁) :
    65536 ≤ b₀.toNat % 8 * 262144 + low b₁ * 4096 ∧
      b₀.toNat % 8 * 262144 + low b₁ * 4096 + 4096 ≤ 0x110000 := by
  simp only [Start4, Cont, low] at *
  omega

/-! ### The bytes come back -/

theorem encode_two {b₀ b₁ : UInt8} (h : Lead2 b₀ ∧ Cont b₁) :
    String.utf8EncodeChar (.ofNat (b₀.toNat % 32 * 64 + low b₁)) = [b₀, b₁] := by
  obtain ⟨⟨h₀, h₀'⟩, h₁⟩ := h
  have hb₀ : b₀.toNat = b₀.toNat % 32 + 192 := by omega
  have hb₁ := h₁.toNat_eq
  have hlow₁ := low_lt b₁
  have htop : b₀.toNat % 32 < 32 := Nat.mod_lt _ (by decide)
  generalize b₀.toNat % 32 = x, low b₁ = y at *
  have hvalid : (x * 64 + y).isValidChar := .inl (by omega)
  rw [utf8EncodeChar_ofNat hvalid, encodeNat, if_neg (by omega), if_pos (by omega)]
  simp only [List.cons.injEq, ← UInt8.toNat_inj, UInt8.toNat_ofNat', and_true]
  omega

theorem encode_three {b₀ b₁ b₂ : UInt8} (h : Start3 b₀ b₁) (hcont : Cont b₂) :
    String.utf8EncodeChar (.ofNat (b₀.toNat % 16 * 4096 + low b₁ * 64 + low b₂)) =
      [b₀, b₁, b₂] := by
  obtain ⟨hb₀, h₁⟩ := h.cont
  obtain ⟨hlong, hsurrogate⟩ := h.range
  have hb₁ := h₁.toNat_eq
  have hb₂ := hcont.toNat_eq
  have hlow₁ := low_lt b₁
  have hlow₂ := low_lt b₂
  have htop : b₀.toNat % 16 < 16 := Nat.mod_lt _ (by decide)
  generalize b₀.toNat % 16 = x, low b₁ = y, low b₂ = z at *
  have hvalid : (x * 4096 + y * 64 + z).isValidChar := by
    simp only [Nat.isValidChar]
    omega
  rw [utf8EncodeChar_ofNat hvalid, encodeNat, if_neg (by omega), if_neg (by omega),
    if_pos (by omega)]
  simp only [List.cons.injEq, ← UInt8.toNat_inj, UInt8.toNat_ofNat', and_true]
  omega

theorem encode_four {b₀ b₁ b₂ b₃ : UInt8} (h : Start4 b₀ b₁) (h₂ : Cont b₂) (h₃ : Cont b₃) :
    String.utf8EncodeChar
        (.ofNat (b₀.toNat % 8 * 262144 + low b₁ * 4096 + low b₂ * 64 + low b₃)) =
      [b₀, b₁, b₂, b₃] := by
  obtain ⟨hb₀, h₁⟩ := h.cont
  obtain ⟨hlong, hlast⟩ := h.range
  have hb₁ := h₁.toNat_eq
  have hb₂ := h₂.toNat_eq
  have hb₃ := h₃.toNat_eq
  have hlow₁ := low_lt b₁
  have hlow₂ := low_lt b₂
  have hlow₃ := low_lt b₃
  have htop : b₀.toNat % 8 < 8 := Nat.mod_lt _ (by decide)
  generalize b₀.toNat % 8 = x, low b₁ = y, low b₂ = z, low b₃ = t at *
  have hvalid : (x * 262144 + y * 4096 + z * 64 + t).isValidChar := .inr ⟨by omega, by omega⟩
  rw [utf8EncodeChar_ofNat hvalid, encodeNat, if_neg (by omega), if_neg (by omega),
    if_neg (by omega)]
  simp only [List.cons.injEq, ← UInt8.toNat_inj, UInt8.toNat_ofNat', and_true]
  omega

theorem encode_one {b : UInt8} (h : b.toNat < 0x80) :
    String.utf8EncodeChar (.ofNat b.toNat) = [b] := by
  rw [utf8EncodeChar_ofNat (.inl (by omega)), encodeNat, if_pos (by omega), UInt8.ofNat_toNat]

theorem Start3.broken {b₀ b₁ : UInt8} (h : Start3 b₀ b₁) :
    (0x80 ≤ b₀.toNat ∧ b₀.toNat < 0xF5) ∧ Cont b₁ := by
  have hcont := h.cont
  exact ⟨by omega, hcont.2⟩

theorem Start4.broken {b₀ b₁ : UInt8} (h : Start4 b₀ b₁) :
    (0x80 ≤ b₀.toNat ∧ b₀.toNat < 0xF5) ∧ Cont b₁ := by
  simp only [Start4, Cont] at h ⊢
  omega

theorem cut_sound (b₀ : UInt8) (rest : List UInt8) : (cut b₀ rest).Sound := by
  have hbroken {b₁ : UInt8} (h : (0x80 ≤ b₀.toNat ∧ b₀.toNat < 0xF5) ∧ Cont b₁) :
      Piece.Sound ⟨[b₀, b₁], replacement⟩ :=
    .broken b₀ [b₁] h.1 (by simpa using h.2) (by simp)
  -- the cases are those of `cut`, from the first byte on
  unfold cut
  split_ifs with hascii
  · rw [← encode_one hascii]
    exact .valid _
  · have hstray : Piece.Sound ⟨[b₀], replacement⟩ := .stray b₀ (by omega)
    rcases rest with _ | ⟨b₁, rest⟩
    · exact hstray
    · dsimp only
      split_ifs with htwo hthree hfour
      · rw [← encode_two htwo]
        exact .valid _
      · rcases rest with _ | ⟨b₂, rest⟩
        · exact hbroken hthree.broken
        · dsimp only
          split_ifs with h₂
          · rw [← encode_three hthree h₂]
            exact .valid _
          · exact hbroken hthree.broken
      · have hbroken₂ {b₂ : UInt8} (h₂ : Cont b₂) : Piece.Sound ⟨[b₀, b₁, b₂], replacement⟩ :=
          .broken b₀ [b₁, b₂] hfour.broken.1 (by simpa using ⟨hfour.broken.2, h₂⟩) (by simp)
        rcases rest with _ | ⟨b₂, _ | ⟨b₃, rest⟩⟩
        · exact hbroken hfour.broken
        · dsimp only
          split_ifs with h₂
          · exact hbroken₂ h₂
          · exact hbroken hfour.broken
        · dsimp only
          split_ifs with h₂ h₃
          · rw [← encode_four hfour h₂ h₃]
            exact .valid _
          · exact hbroken₂ h₂
          · exact hbroken hfour.broken
      · exact hstray

/-- A byte with a mark before its payload. -/
theorem toNat_marked {k mark : Nat} (h : k + mark < 256) :
    (UInt8.ofNat (k + mark)).toNat = k + mark := by
  rw [UInt8.toNat_ofNat', Nat.mod_eq_of_lt h]

theorem cont_marked {k : Nat} (h : k < 64) : Cont (.ofNat (k + 128)) := by
  rw [Cont, toNat_marked (by omega)]
  omega

theorem low_marked {k : Nat} (h : k < 64) : low (.ofNat (k + 128)) = k := by
  rw [low, toNat_marked (by omega)]
  omega

/-- An encoded character is the first piece of an input it starts. -/
theorem cut_utf8EncodeChar (c : Char) (rest : List UInt8) :
    ∃ b tail, String.utf8EncodeChar c = b :: tail ∧
      cut b (tail ++ rest) = ⟨String.utf8EncodeChar c, c⟩ := by
  have hvalid : c.toNat.isValidChar := c.valid
  simp only [Nat.isValidChar] at hvalid
  have hchar {n : Nat} (h : c.toNat = n) : Char.ofNat n = c := by rw [← h, Char.ofNat_toNat]
  have hlast : c.toNat % 64 < 64 := Nat.mod_lt _ (by decide)
  have hmiddle : c.toNat / 64 % 64 < 64 := Nat.mod_lt _ (by decide)
  rw [utf8EncodeChar_eq, encodeNat]
  split_ifs with h₁ h₂ h₃
  · refine ⟨_, [], rfl, ?_⟩
    unfold cut
    rw [if_pos (by rw [UInt8.toNat_ofNat']; omega), hchar (by rw [UInt8.toNat_ofNat']; omega)]
  · refine ⟨_, [_], rfl, ?_⟩
    have hdigits : c.toNat = c.toNat / 64 % 32 * 64 + c.toNat % 64 := by omega
    generalize c.toNat / 64 % 32 = x, c.toNat % 64 = z at *
    have hx : (UInt8.ofNat (x + 192)).toNat = x + 192 := toNat_marked (by omega)
    have hlead : Lead2 (.ofNat (x + 192)) ∧ Cont (.ofNat (z + 128)) := by
      refine ⟨?_, cont_marked hlast⟩
      rw [Lead2, hx]
      omega
    have hpayload : (x + 192) % 32 = x := by omega
    simp only [List.singleton_append, cut]
    rw [if_neg (by omega), if_pos hlead, low_marked hlast, hx, hpayload, hchar hdigits]
  · refine ⟨_, [_, _], rfl, ?_⟩
    have hdigits : c.toNat =
        c.toNat / 4096 % 16 * 4096 + c.toNat / 64 % 64 * 64 + c.toNat % 64 := by omega
    have htop : c.toNat / 4096 % 16 < 16 := Nat.mod_lt _ (by decide)
    generalize c.toNat / 4096 % 16 = x, c.toNat / 64 % 64 = y, c.toNat % 64 = z at *
    have hx : (UInt8.ofNat (x + 224)).toNat = x + 224 := toNat_marked (by omega)
    have hy : (UInt8.ofNat (y + 128)).toNat = y + 128 := toNat_marked (by omega)
    have hlead : ¬ (Lead2 (.ofNat (x + 224)) ∧ Cont (.ofNat (y + 128))) := by
      rw [Lead2, hx]
      omega
    have hstart : Start3 (.ofNat (x + 224)) (.ofNat (y + 128)) := by
      simp only [Start3, Cont, hx, hy]
      omega
    have hpayload : (x + 224) % 16 = x := by omega
    simp only [List.cons_append, List.nil_append, cut]
    rw [if_neg (by omega), if_neg hlead, if_pos hstart, if_pos (cont_marked hlast),
      low_marked hmiddle, low_marked hlast, hx, hpayload, hchar hdigits]
  · refine ⟨_, [_, _, _], rfl, ?_⟩
    have hdigits : c.toNat = c.toNat / 262144 % 8 * 262144 + c.toNat / 4096 % 64 * 4096 +
        c.toNat / 64 % 64 * 64 + c.toNat % 64 := by omega
    have htop : c.toNat / 262144 % 8 < 8 := Nat.mod_lt _ (by decide)
    have hnext : c.toNat / 4096 % 64 < 64 := Nat.mod_lt _ (by decide)
    generalize c.toNat / 262144 % 8 = x, c.toNat / 4096 % 64 = y, c.toNat / 64 % 64 = z,
      c.toNat % 64 = t at *
    have hx : (UInt8.ofNat (x + 240)).toNat = x + 240 := toNat_marked (by omega)
    have hy : (UInt8.ofNat (y + 128)).toNat = y + 128 := toNat_marked (by omega)
    have hlead : ¬ (Lead2 (.ofNat (x + 240)) ∧ Cont (.ofNat (y + 128))) := by
      rw [Lead2, hx]
      omega
    have hthree : ¬ Start3 (.ofNat (x + 240)) (.ofNat (y + 128)) := by
      simp only [Start3, hx]
      omega
    have hstart : Start4 (.ofNat (x + 240)) (.ofNat (y + 128)) := by
      simp only [Start4, Cont, hx, hy]
      omega
    have hpayload : (x + 240) % 8 = x := by omega
    simp only [List.cons_append, List.nil_append, cut]
    rw [if_neg (by omega), if_neg hlead, if_neg hthree, if_pos hstart,
      if_pos (cont_marked hmiddle), if_pos (cont_marked hlast), low_marked hnext,
      low_marked hmiddle, low_marked hlast, hx, hpayload, hchar hdigits]

/-- The pieces make up the input. -/
theorem flatMap_pieces (bytes : List UInt8) : (pieces bytes).flatMap Piece.bytes = bytes := by
  induction h : bytes.length using Nat.strongRecOn generalizing bytes with
  | ind n ih =>
      cases bytes with
      | nil => rfl
      | cons b rest =>
          have hlt : (rest.drop ((cut b rest).bytes.length - 1)).length < n := by
            rw [← h, List.length_drop, List.length_cons]
            omega
          rw [pieces_cons, List.flatMap_cons, ih _ hlt _ rfl, ← cut_prefix]

theorem sound_of_mem_pieces {bytes : List UInt8} {piece : Piece} (h : piece ∈ pieces bytes) :
    piece.Sound := by
  induction hlength : bytes.length using Nat.strongRecOn generalizing bytes with
  | ind n ih =>
      cases bytes with
      | nil => cases h
      | cons b rest =>
          rw [pieces_cons] at h
          rcases List.mem_cons.mp h with rfl | h
          · exact cut_sound b rest
          · have hlt : (rest.drop ((cut b rest).bytes.length - 1)).length < n := by
              rw [← hlength, List.length_drop, List.length_cons]
              omega
            exact ih _ hlt h rfl

theorem pieces_encode_cons (c : Char) (rest : List UInt8) :
    pieces (String.utf8EncodeChar c ++ rest) = ⟨String.utf8EncodeChar c, c⟩ :: pieces rest := by
  obtain ⟨b, tail, hbytes, hcut⟩ := cut_utf8EncodeChar c rest
  have hlength : (String.utf8EncodeChar c).length - 1 = tail.length := by simp [hbytes]
  rw [hbytes, List.cons_append, pieces_cons, hcut, hlength, List.drop_left, hbytes]

/-- A decoder gives a text back. -/
@[simp] theorem decodeLossy_encode (chars : List Char) : decodeLossy (encode chars) = chars := by
  induction chars with
  | nil => rfl
  | cons c rest ih =>
      rw [encode_cons, decodeLossy, pieces_encode_cons, List.map_cons, ← decodeLossy, ih]

theorem encode_injective {first second : List Char} (h : encode first = encode second) :
    first = second := by
  rw [← decodeLossy_encode first, h, decodeLossy_encode]

/-- Decoding loses nothing exactly from a well-formed input. -/
theorem encode_decodeLossy {bytes : List UInt8} :
    encode (decodeLossy bytes) = bytes ↔ Valid bytes := by
  constructor
  · exact fun h => ⟨_, h⟩
  · rintro ⟨chars, rfl⟩
    rw [decodeLossy_encode]

/-! ## The bytes of a character -/

theorem utf8EncodeChar_ascii {c : Char} (h : c.toNat < 0x80) :
    String.utf8EncodeChar c = [.ofNat c.toNat] := by
  rw [utf8EncodeChar_eq, encodeNat, if_pos (by omega)]

/-- The encodings of other characters have none of the bytes of these. -/
theorem mem_utf8EncodeChar {c : Char} {b : UInt8} (h : 0x80 ≤ c.toNat)
    (hb : b ∈ String.utf8EncodeChar c) : 0x80 ≤ b.toNat ∧ b.toNat < 0xF5 := by
  have hvalid : c.toNat.isValidChar := c.valid
  simp only [Nat.isValidChar] at hvalid
  rw [utf8EncodeChar_eq, encodeNat] at hb
  split_ifs at hb
  · omega
  all_goals
    simp only [List.mem_cons, List.not_mem_nil, or_false] at hb
    rcases hb with rfl | rfl | rfl | rfl <;> rw [UInt8.toNat_ofNat'] <;> omega

/-- Only sequences of two begin with a byte from C0 to DF. -/
theorem mem_utf8EncodeChar_three {c : Char} {b : UInt8} (h : 0x800 ≤ c.toNat)
    (hb : b ∈ String.utf8EncodeChar c) : b.toNat < 0xC0 ∨ 0xE0 ≤ b.toNat := by
  rw [utf8EncodeChar_eq, encodeNat] at hb
  split_ifs at hb
  · omega
  · omega
  all_goals
    simp only [List.mem_cons, List.not_mem_nil, or_false] at hb
    rcases hb with rfl | rfl | rfl | rfl <;> rw [UInt8.toNat_ofNat'] <;> omega

theorem length_utf8EncodeChar (c : Char) :
    (String.utf8EncodeChar c).length =
      if c.toNat < 0x80 then 1 else if c.toNat < 0x800 then 2 else if c.toNat < 0x10000 then 3 else 4 := by
  rw [utf8EncodeChar_eq, encodeNat]
  split_ifs <;> first | rfl | omega

/-- The bytes of a piece with a character that is not ASCII are not ASCII. -/
theorem Piece.Sound.high {piece : Piece} (h : piece.Sound) (hchar : 0x80 ≤ piece.char.toNat) :
    ∀ b ∈ piece.bytes, 0x80 ≤ b.toNat := by
  cases h with
  | valid c => exact fun b hb => (mem_utf8EncodeChar hchar hb).1
  | stray b h => simpa using h
  | broken b conts hlead hconts _ =>
      intro c hc
      rcases List.mem_cons.mp hc with rfl | hc
      · exact hlead.1
      · exact (hconts c hc).1

theorem Piece.Sound.ascii {piece : Piece} (h : piece.Sound) (hchar : piece.char.toNat < 0x80) :
    piece.bytes = [.ofNat piece.char.toNat] := by
  have hreplacement : ¬ replacement.toNat < 0x80 := by decide
  cases h with
  | valid c => exact utf8EncodeChar_ascii hchar
  | stray b h => exact absurd hchar hreplacement
  | broken b conts hlead hconts _ => exact absurd hchar hreplacement

/-! ## Counting bytes -/

section Count

variable {α β : Type} {l : List α} {f g : α → List β} {q : β → Bool}

theorem countP_flatMap_le (h : ∀ x ∈ l, (f x).countP q ≤ (g x).countP q) :
    (l.flatMap f).countP q ≤ (l.flatMap g).countP q := by
  induction l with
  | nil => exact Nat.le_refl 0
  | cons x rest ih =>
      have hx := h x List.mem_cons_self
      have hrest := ih fun y hy => h y (List.mem_cons_of_mem x hy)
      simp only [List.flatMap_cons, List.countP_append]
      omega

/-- If no part has more of the bytes, and all have as many, then each has as many. -/
theorem countP_eq_of_flatMap (h : ∀ x ∈ l, (f x).countP q ≤ (g x).countP q)
    (heq : (l.flatMap f).countP q = (l.flatMap g).countP q) :
    ∀ x ∈ l, (f x).countP q = (g x).countP q := by
  induction l with
  | nil => simp
  | cons x rest ih =>
      have hx := h x List.mem_cons_self
      have htail := fun y hy => h y (List.mem_cons_of_mem x hy)
      have hrest := countP_flatMap_le htail
      simp only [List.flatMap_cons, List.countP_append] at heq
      intro y hy
      rcases List.mem_cons.mp hy with rfl | hy
      · omega
      · exact ih htail (by omega) y hy

end Count

end Utf8
