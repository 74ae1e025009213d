import Mulp.Lib.Utf16

/-! JSON texts, by a recursive descent along the grammar of RFC 8259.

A string is its code units, since `\u` may name half a pair. A number is its text. -/
namespace Json

inductive Value where
  | null
  | bool (value : Bool)
  | number (text : List Char)
  | string (units : List UInt16)
  | array (items : List Value)
  | object (members : List (List UInt16 × Value))

/-- A string value with these characters. -/
def Value.text (text : String) : Value := .string (Utf16.encode text.toList)

/-- `ws`: space, tab, line feed and carriage return. -/
def isWs (c : Char) : Bool := c = ' ' || c = '\t' || c = '\n' || c = '\r'

def skipWs (text : List Char) : List Char := text.dropWhile isWs

/-! ## Strings -/

def hexDigit (c : Char) : Option Nat :=
  if '0' ≤ c ∧ c ≤ '9' then some (c.toNat - '0'.toNat)
  else if 'a' ≤ c ∧ c ≤ 'f' then some (c.toNat - 'a'.toNat + 10)
  else if 'A' ≤ c ∧ c ≤ 'F' then some (c.toNat - 'A'.toNat + 10)
  else none

/-- The unit of `\uXXXX`. -/
def hexUnit (a b c d : Char) : Option UInt16 := do
  let a ← hexDigit a
  let b ← hexDigit b
  let c ← hexDigit c
  let d ← hexDigit d
  some (.ofNat (a * 4096 + b * 256 + c * 16 + d))

/-- The unit of an escape of one letter. -/
def escapeUnit (c : Char) : Option UInt16 :=
  match c with
  | '"' => some 0x22
  | '\\' => some 0x5C
  | '/' => some 0x2F
  | 'b' => some 0x08
  | 'f' => some 0x0C
  | 'n' => some 0x0A
  | 'r' => some 0x0D
  | 't' => some 0x09
  | _ => none

/-- The rest of a `string` after its first quotation mark: its units, and what
comes after it. -/
def stringBody : List Char → Option (List UInt16 × List Char)
  | [] => none
  | '"' :: rest => some ([], rest)
  | '\\' :: 'u' :: a :: b :: c :: d :: rest => do
      let unit ← hexUnit a b c d
      let (units, rest) ← stringBody rest
      some (unit :: units, rest)
  | '\\' :: c :: rest => do
      let unit ← escapeUnit c
      let (units, rest) ← stringBody rest
      some (unit :: units, rest)
  | c :: rest =>
      -- `unescaped`: no quotation mark, no backslash and no control character
      if c.toNat < 0x20 ∨ c = '\\' then none
      else do
        let (units, rest) ← stringBody rest
        some (Utf16.encodeChar c ++ units, rest)

theorem stringBody_unescaped {c : Char} (hquote : c ≠ '"') (hslash : c ≠ '\\') (rest : List Char) :
    stringBody (c :: rest) =
      if c.toNat < 0x20 then none
      else (stringBody rest).map fun found => (Utf16.encodeChar c ++ found.1, found.2) := by
  rw [stringBody]
  · by_cases hc : c.toNat < 0x20
    · rw [if_pos (.inl hc), if_pos hc]
    · rw [if_neg (not_or.mpr ⟨hc, hslash⟩), if_neg hc]
      cases stringBody rest <;> rfl
  · exact hquote
  · rintro _ _ _ _ _ rfl
    exact absurd rfl hslash
  · rintro _ _ rfl
    exact absurd rfl hslash

/-! ## Numbers -/

/-- `1*DIGIT`. -/
def digits (text : List Char) : Option (List Char × List Char) :=
  if text.takeWhile Char.isDigit = [] then none
  else some (text.takeWhile Char.isDigit, text.dropWhile Char.isDigit)

def int : List Char → Option (List Char × List Char)
  | '0' :: rest => some (['0'], rest)
  | text => digits text

/-- `[ frac ]`. -/
def frac : List Char → Option (List Char × List Char)
  | '.' :: rest => do
      let (found, rest) ← digits rest
      some ('.' :: found, rest)
  | text => some ([], text)

/-- `[ minus / plus ] 1*DIGIT`. -/
def signedDigits : List Char → Option (List Char × List Char)
  | '-' :: rest => do
      let (found, rest) ← digits rest
      some ('-' :: found, rest)
  | '+' :: rest => do
      let (found, rest) ← digits rest
      some ('+' :: found, rest)
  | text => digits text

/-- `[ exp ]`. -/
def exp : List Char → Option (List Char × List Char)
  | 'e' :: rest => do
      let (found, rest) ← signedDigits rest
      some ('e' :: found, rest)
  | 'E' :: rest => do
      let (found, rest) ← signedDigits rest
      some ('E' :: found, rest)
  | text => some ([], text)

/-- `int [ frac ] [ exp ]`. -/
def unsigned (text : List Char) : Option (List Char × List Char) := do
  let (whole, rest) ← int text
  let (fraction, rest) ← frac rest
  let (exponent, rest) ← exp rest
  some (whole ++ fraction ++ exponent, rest)

def number : List Char → Option (List Char × List Char)
  | '-' :: rest => do
      let (found, rest) ← unsigned rest
      some ('-' :: found, rest)
  | text => unsigned text

/-! ## Values -/

mutual
/-- `value`, nested at most `n` deep: the value, and what comes after it. -/
def value : Nat → List Char → Option (Value × List Char)
  | 0, _ => none
  | n + 1, text =>
      match text with
      | '"' :: rest => (stringBody rest).map fun (units, rest) => (.string units, rest)
      | '[' :: rest =>
          match skipWs rest with
          | ']' :: rest => some (.array [], rest)
          | rest => (elements n rest).map fun (items, rest) => (.array items, rest)
      | '\x7b' :: rest =>
          match skipWs rest with
          | '\x7d' :: rest => some (.object [], rest)
          | rest => (members n rest).map fun (found, rest) => (.object found, rest)
      | 'n' :: 'u' :: 'l' :: 'l' :: rest => some (.null, rest)
      | 't' :: 'r' :: 'u' :: 'e' :: rest => some (.bool true, rest)
      | 'f' :: 'a' :: 'l' :: 's' :: 'e' :: rest => some (.bool false, rest)
      | text => (number text).map fun (found, rest) => (.number found, rest)

/-- The values of an `array`, up to its bracket. -/
def elements : Nat → List Char → Option (List Value × List Char)
  | 0, _ => none
  | n + 1, text => do
      let (item, rest) ← value n (skipWs text)
      match skipWs rest with
      | ',' :: rest => do
          let (items, rest) ← elements n rest
          some (item :: items, rest)
      | ']' :: rest => some ([item], rest)
      | _ => none

/-- The `member`s of an `object`, up to its brace. -/
def members : Nat → List Char → Option (List (List UInt16 × Value) × List Char)
  | 0, _ => none
  | n + 1, text =>
      match skipWs text with
      | '"' :: rest => do
          let (key, rest) ← stringBody rest
          match skipWs rest with
          | ':' :: rest => do
              let (item, rest) ← value n (skipWs rest)
              match skipWs rest with
              | ',' :: rest => do
                  let (found, rest) ← members n rest
                  some ((key, item) :: found, rest)
              | '\x7d' :: rest => some ([(key, item)], rest)
              | _ => none
          | _ => none
      | _ => none
end

/-- `JSON-text`: the text is valid and denotes the value. -/
def Denotes (text : String) (v : Value) : Prop :=
  ∃ n rest, value n (skipWs text.toList) = some (v, rest) ∧ skipWs rest = []

end Json
