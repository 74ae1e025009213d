import Mathlib.Algebra.Group.Nat.Defs
import Mathlib.Data.List.Basic

/-! Base64 (RFC 4648, section 4): a group of three bytes is four digits of six bits.
A group that is not full is padded, and the bits that are left over are zero. -/
namespace Base64

/-- The alphabet of table 1. -/
def alphabet : List Char :=
  "ABCDEFGHIJKLMNOPQRSTUVWXYZabcdefghijklmnopqrstuvwxyz0123456789+/".toList

/-- The value of a digit. -/
def value (c : Char) : Option Nat := alphabet.idxOf? c

/-- The bytes of a group. -/
def groupBytes (group : Nat) : List UInt8 :=
  [.ofNat (group / 2 ^ 16), .ofNat (group / 2 ^ 8), .ofNat group]

/-- The group of four digits. -/
def group (a b c d : Char) : Option Nat := do
  let a ← value a
  let b ← value b
  let c ← value c
  let d ← value d
  some (a * 2 ^ 18 + b * 2 ^ 12 + c * 2 ^ 6 + d)

/-- The bytes of a text, read in groups of four digits, of which the last one may be padded. Bits
that the padding leaves over have to be zero. -/
def decode : List Char → Option (List UInt8)
  | [] => some []
  | [a, b, '=', '='] => do
      let found ← group a b 'A' 'A'
      if found % 2 ^ 16 = 0 then some ((groupBytes found).take 1) else none
  | [a, b, c, '='] => do
      let found ← group a b c 'A'
      if found % 2 ^ 8 = 0 then some ((groupBytes found).take 2) else none
  | a :: b :: c :: d :: rest => do
      let found ← group a b c d
      let bytes ← decode rest
      some (groupBytes found ++ bytes)
  | _ => none

/-- The digit of a value. -/
def digit (v : Nat) : Char := alphabet.getD v 'A'

theorem value_digit {v : Nat} (h : v < 64) : value (digit v) = some v := by
  have hall : ∀ v < 64, value (digit v) = some v := by decide +kernel
  exact hall v h

theorem digit_ne_pad {v : Nat} (h : v < 64) : digit v ≠ '=' := by
  have hall : ∀ v < 64, digit v ≠ '=' := by decide +kernel
  exact hall v h

theorem digit_zero : digit 0 = 'A' := by decide +kernel

theorem group_digits {a b c d : Nat} (ha : a < 64) (hb : b < 64) (hc : c < 64) (hd : d < 64) :
    group (digit a) (digit b) (digit c) (digit d) =
      some (a * 2 ^ 18 + b * 2 ^ 12 + c * 2 ^ 6 + d) := by
  simp only [group, value_digit ha, value_digit hb, value_digit hc, value_digit hd]
  rfl

theorem groupBytes_eq {n : Nat} {x y z : UInt8}
    (h : n = x.toNat * 2 ^ 16 + y.toNat * 2 ^ 8 + z.toNat) :
    groupBytes n = [x, y, z] := by
  have hx := x.toNat_lt
  have hy := y.toNat_lt
  have hz := z.toNat_lt
  have hbyte {m : Nat} {b : UInt8} (hm : m % 2 ^ 8 = b.toNat) : UInt8.ofNat m = b := by
    rw [← UInt8.toNat_inj, UInt8.toNat_ofNat', hm]
  rw [groupBytes, hbyte (show n / 2 ^ 16 % 2 ^ 8 = x.toNat by omega),
    hbyte (show n / 2 ^ 8 % 2 ^ 8 = y.toNat by omega), hbyte (show n % 2 ^ 8 = z.toNat by omega)]

/-! ## Groups -/

theorem decode_one (x : UInt8) :
    decode [digit (x.toNat / 4), digit (x.toNat % 4 * 16), '=', '='] = some [x] := by
  have hx := x.toNat_lt
  have hgroup := group_digits (show x.toNat / 4 < 64 by omega) (show x.toNat % 4 * 16 < 64 by omega)
    (show 0 < 64 by omega) (show 0 < 64 by omega)
  have hbytes := @groupBytes_eq
    (x.toNat / 4 * 2 ^ 18 + x.toNat % 4 * 16 * 2 ^ 12 + 0 * 2 ^ 6 + 0) x 0 0
    (by rw [UInt8.toNat_zero]; omega)
  rw [decode, ← digit_zero, hgroup]
  rw [Option.bind_eq_bind, Option.bind_some]
  rw [if_pos (by omega), hbytes]
  rfl

theorem decode_two (x y : UInt8) :
    decode [digit (x.toNat / 4), digit (x.toNat % 4 * 16 + y.toNat / 16),
        digit (y.toNat % 16 * 4), '='] = some [x, y] := by
  have hx := x.toNat_lt
  have hy := y.toNat_lt
  have hgroup := group_digits (show x.toNat / 4 < 64 by omega)
    (show x.toNat % 4 * 16 + y.toNat / 16 < 64 by omega) (show y.toNat % 16 * 4 < 64 by omega)
    (show 0 < 64 by omega)
  have hbytes := @groupBytes_eq (x.toNat / 4 * 2 ^ 18 + (x.toNat % 4 * 16 + y.toNat / 16) * 2 ^ 12 +
    y.toNat % 16 * 4 * 2 ^ 6 + 0) x y 0 (by rw [UInt8.toNat_zero]; omega)
  -- the third digit is none of the padding
  have hpad := digit_ne_pad (show y.toNat % 16 * 4 < 64 by omega)
  rw [decode]
  · rw [← digit_zero, hgroup]
    rw [Option.bind_eq_bind, Option.bind_some]
    rw [if_pos (by omega), hbytes]
    rfl
  · exact hpad

theorem decode_three (x y z : UInt8) (rest : List Char) :
    decode (digit (x.toNat / 4) :: digit (x.toNat % 4 * 16 + y.toNat / 16) ::
        digit (y.toNat % 16 * 4 + z.toNat / 64) :: digit (z.toNat % 64) :: rest) =
      (decode rest).map ([x, y, z] ++ ·) := by
  have hx := x.toNat_lt
  have hy := y.toNat_lt
  have hz := z.toNat_lt
  have hgroup := group_digits (show x.toNat / 4 < 64 by omega)
    (show x.toNat % 4 * 16 + y.toNat / 16 < 64 by omega)
    (show y.toNat % 16 * 4 + z.toNat / 64 < 64 by omega) (show z.toNat % 64 < 64 by omega)
  have hbytes := @groupBytes_eq (x.toNat / 4 * 2 ^ 18 + (x.toNat % 4 * 16 + y.toNat / 16) * 2 ^ 12 +
    (y.toNat % 16 * 4 + z.toNat / 64) * 2 ^ 6 + z.toNat % 64) x y z (by omega)
  have hpad := digit_ne_pad (show z.toNat % 64 < 64 by omega)
  rw [decode]
  · rw [hgroup]
    rw [Option.bind_eq_bind, Option.bind_some]
    rw [hbytes]
    cases decode rest <;> rfl
  · exact fun _ hd _ => hpad hd
  · exact fun hd _ => hpad hd

end Base64
