import Mulp.Lib.Utf16
import Mulp.Lib.Utf8
import Mulp.Stream.ByteStream

/-! The encodings of `src` and `dest` (`vinyl_fs/codecs.mbt`).

A charset is a name, of which two are known and every other one is read and written as
UTF-8. Decoding and encoding are those of MoonBit's library, with replacement characters
for what is no text. -/
namespace Mulp.VinylFs

open Mulp.Stream

inductive SrcEncoding where
  | utf8
  | raw
  | charset (name : String)
  deriving DecidableEq

inductive DestEncoding where
  | utf8
  | raw
  | charset (name : String)
  deriving DecidableEq

def hasUtf8Bom : Bytes → Bool
  | b₀ :: b₁ :: b₂ :: _ => b₀ = 0xef && b₁ = 0xbb && b₂ = 0xbf
  | _ => false

def stripBom (bytes : Bytes) : Bytes := if hasUtf8Bom bytes then bytes.drop 3 else bytes

/-- The charsets `decode_text` and `encode_text` know by name. -/
inductive Charset where
  | utf16le
  | utf16be
  | other
  deriving DecidableEq

def charsetNamed (encoding : String) : Charset :=
  if encoding = "utf16le" ∨ encoding = "utf-16le" ∨ encoding = "ucs2" ∨ encoding = "ucs-2" then
    .utf16le
  else if encoding = "utf16be" ∨ encoding = "utf-16be" then .utf16be
  else .other

/-- The code units of the loop of `utf16le_to_utf8`; a last odd byte is left out. -/
def unitsLe : Bytes → List UInt16
  | low :: high :: rest => .ofNat (high.toNat * 256 + low.toNat) :: unitsLe rest
  | _ => []

/-- The code units of the loop of `utf16be_to_utf8`, two bytes each; a byte that is left over at the
end is dropped. -/
def unitsBe : Bytes → List UInt16
  | high :: low :: rest => .ofNat (high.toNat * 256 + low.toNat) :: unitsBe rest
  | _ => []

/-- `utf16le_to_utf8`, the code units of a string. -/
def utf16leToUtf8 : Bytes → List UInt16
  | 0xff :: 0xfe :: rest => unitsLe rest
  | bytes => unitsLe bytes

def utf16beToUtf8 : Bytes → List UInt16
  | 0xfe :: 0xff :: rest => unitsBe rest
  | bytes => unitsBe bytes

/-- `decode_text`, the code units of a string. -/
def decodeText (bytes : Bytes) (encoding : String) : List UInt16 :=
  match charsetNamed encoding with
  | .utf16le => utf16leToUtf8 bytes
  | .utf16be => utf16beToUtf8 bytes
  | .other => Utf16.encode (Utf8.decodeLossy (stripBom bytes))

/-- `@utf8.encode` on the code units of a string; it aborts on half a pair. -/
def encodeUnits (units : List UInt16) : Option Bytes := (Utf16.decode units).map Utf8.encode

/-- `decode_src_bytes`, unless it aborts. -/
def decodeSrcBytes (bytes : Bytes) (encoding : SrcEncoding) (removeBom : Bool) : Option Bytes :=
  match encoding with
  | .raw => some bytes
  | .utf8 => some (if removeBom then stripBom bytes else bytes)
  | .charset name => encodeUnits (decodeText bytes name)

/-- `to_byte` on an `Int`. -/
def toByte (n : Nat) : UInt8 := .ofNat n

def utf8ToUtf16le (text : List Char) : Bytes :=
  text.flatMap fun ch => [toByte (ch.toNat % 256), toByte (ch.toNat / 256)]

def utf8ToUtf16be (text : List Char) : Bytes :=
  text.flatMap fun ch => [toByte (ch.toNat / 256), toByte (ch.toNat % 256)]

def encodeText (text : List Char) (encoding : String) : Bytes :=
  match charsetNamed encoding with
  | .utf16le => utf8ToUtf16le text
  | .utf16be => utf8ToUtf16be text
  | .other => Utf8.encode text

def encodeDestBytes (bytes : Bytes) (encoding : DestEncoding) : Bytes :=
  match encoding with
  | .utf8 => bytes
  | .raw => bytes
  | .charset name => encodeText (Utf8.decodeLossy bytes) name

end Mulp.VinylFs
