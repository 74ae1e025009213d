import Mathlib.Data.List.Basic
import Mathlib.Tactic.SplitIfs

/-! The words and operators of a shell command, as far as single quotes,
backslashes, blanks and `&&` make them.

Other characters with a meaning to the shell are operators of their own unless
they are quoted; substitutions and comments are not followed up. -/
namespace Shell

abbrev Bytes := List UInt8

inductive Token where
  | word (bytes : Bytes)
  | andIf
  | operator (byte : UInt8)
  deriving DecidableEq

def Token.bytes : Token → Bytes
  | .word bytes => bytes
  | .andIf => []
  | .operator _ => []

/-- What the lexer has read: the word it is in, if it is in one, and whether a
quotation, a backslash or one `&` is open. -/
inductive Mode where
  | plain (word : Option Bytes)
  | quoted (word : Bytes)
  | escaped (word : Bytes)
  | ampersand
  deriving DecidableEq

def Mode.pending : Mode → Bytes
  | .plain word => word.getD []
  | .quoted word => word
  | .escaped word => word
  | .ampersand => []

def quoteByte : UInt8 := 0x27
def escapeByte : UInt8 := 0x5C
def andByte : UInt8 := 0x26
def blankByte : UInt8 := 0x20

def isBlank (b : UInt8) : Bool := b = blankByte || b = 0x09

/-- Newline, `;`, `|`, `<`, `>`, `(`, `)`, `$`, the grave accent, `"`, `#`, `*`, `?`
and `[`. -/
def isSpecial (b : UInt8) : Bool :=
  b ∈ [0x0A, 0x3B, 0x7C, 0x3C, 0x3E, 0x28, 0x29, 0x24, 0x60, 0x22, 0x23, 0x2A, 0x3F, (0x5B : UInt8)]

/-- The end of a word. -/
def flush : Option Bytes → List Token
  | none => []
  | some word => [.word word]

/-- A byte outside quotes: the tokens that are complete, and the mode after it. -/
def turnPlain (word : Option Bytes) (b : UInt8) : List Token × Mode :=
  if b = quoteByte then ([], .quoted (word.getD []))
  else if b = escapeByte then ([], .escaped (word.getD []))
  else if isBlank b then (flush word, .plain none)
  else if b = andByte then (flush word, .ampersand)
  else if isSpecial b then (flush word ++ [.operator b], .plain none)
  else ([], .plain (some (word.getD [] ++ [b])))

def turn : Mode → UInt8 → List Token × Mode
  | .plain word, b => turnPlain word b
  | .quoted word, b => if b = quoteByte then ([], .plain (some word)) else ([], .quoted (word ++ [b]))
  | .escaped word, b => ([], .plain (some (word ++ [b])))
  | .ampersand, b =>
      if b = andByte then ([.andIf], .plain none)
      else (.operator andByte :: (turnPlain none b).1, (turnPlain none b).2)

/-- The end of the text, which no quotation and no backslash may be open at. -/
def finish : Mode → Option (List Token)
  | .plain word => some (flush word)
  | .quoted _ => none
  | .escaped _ => none
  | .ampersand => some [.operator andByte]

def lexFrom (mode : Mode) : Bytes → Option (List Token)
  | [] => finish mode
  | b :: rest => (lexFrom (turn mode b).2 rest).map ((turn mode b).1 ++ ·)

/-- The tokens of a text. -/
def lex (text : Bytes) : Option (List Token) := lexFrom (.plain none) text

/-- A byte with no tokens complete. -/
theorem lexFrom_cons {mode mode' : Mode} {b : UInt8} (h : turn mode b = ([], mode'))
    (rest : Bytes) :
    lexFrom mode (b :: rest) = lexFrom mode' rest := by
  simp [lexFrom, h]

/-! ## Quoting -/

/-- A quoted byte: a quote is put outside the quotes, behind a backslash. -/
def quotedByte (b : UInt8) : Bytes :=
  if b = quoteByte then [quoteByte, escapeByte, quoteByte, quoteByte] else [b]

def quote (word : Bytes) : Bytes := [quoteByte] ++ word.flatMap quotedByte ++ [quoteByte]

theorem lexFrom_quotedByte (done : Bytes) (b : UInt8) (rest : Bytes) :
    lexFrom (.quoted done) (quotedByte b ++ rest) = lexFrom (.quoted (done ++ [b])) rest := by
  rw [quotedByte]
  split_ifs with hb
  · -- the quotation ends, the quote is escaped, and another one begins
    have hend : turn (.quoted done) quoteByte = ([], .plain (some done)) := rfl
    have hescape : turn (.plain (some done)) escapeByte = ([], .escaped done) := rfl
    have hquote : turn (.escaped done) quoteByte = ([], .plain (some (done ++ [quoteByte]))) := rfl
    have hbegin : turn (.plain (some (done ++ [quoteByte]))) quoteByte =
      ([], .quoted (done ++ [quoteByte])) := rfl
    simp only [List.cons_append, List.nil_append]
    rw [lexFrom_cons hend, lexFrom_cons hescape, lexFrom_cons hquote, lexFrom_cons hbegin, hb]
  · exact lexFrom_cons (by rw [turn, if_neg hb]) rest

theorem lexFrom_quotedBytes (done word rest : Bytes) :
    lexFrom (.quoted done) (word.flatMap quotedByte ++ rest) =
      lexFrom (.quoted (done ++ word)) rest := by
  induction word generalizing done with
  | nil => rw [List.flatMap_nil, List.nil_append, List.append_nil]
  | cons b word ih =>
      rw [List.flatMap_cons, List.append_assoc, lexFrom_quotedByte, ih, List.append_assoc,
        List.singleton_append]

/-- A quoted text is one word. -/
theorem lexFrom_quote (word rest : Bytes) :
    lexFrom (.plain none) (quote word ++ rest) = lexFrom (.plain (some word)) rest := by
  have hbegin : turn (.plain none) quoteByte = ([], .quoted []) := rfl
  have hend : turn (.quoted word) quoteByte = ([], .plain (some word)) := rfl
  rw [quote, List.append_assoc, List.append_assoc, List.singleton_append, lexFrom_cons hbegin,
    lexFrom_quotedBytes, List.nil_append, List.singleton_append, lexFrom_cons hend]

theorem lexFrom_blank (word : Option Bytes) (rest : Bytes) :
    lexFrom (.plain word) (blankByte :: rest) = (lex rest).map (flush word ++ ·) := rfl

/-- Quoted texts with blanks between them are the words. -/
theorem lex_quotes (word : Bytes) (words : List Bytes) :
    lex ([blankByte].intercalate ((word :: words).map quote)) =
      some ((word :: words).map .word) := by
  induction words generalizing word with
  | nil =>
      have hquote := lexFrom_quote word []
      rw [List.append_nil] at hquote
      rw [List.map_singleton, List.intercalate_singleton, lex, hquote]
      rfl
  | cons next words ih =>
      have hjoin : [blankByte].intercalate ((word :: next :: words).map quote) =
          quote word ++ blankByte :: [blankByte].intercalate ((next :: words).map quote) := by
        rw [List.map_cons, List.map_cons, List.intercalate_cons_cons, List.append_assoc]
        rfl
      rw [hjoin, lex, lexFrom_quote, lexFrom_blank, ih]
      rfl

/-! ## Bytes -/

variable {q : UInt8 → Bool}

theorem countP_flush (word : Option Bytes) :
    ((flush word).flatMap Token.bytes).countP q = (word.getD []).countP q := by
  cases word with
  | none => rfl
  | some word => simp [flush, Token.bytes]

theorem countP_turnPlain_le (word : Option Bytes) (b : UInt8) :
    ((turnPlain word b).1.flatMap Token.bytes).countP q + (turnPlain word b).2.pending.countP q ≤
      (word.getD []).countP q + [b].countP q := by
  rw [turnPlain]
  split_ifs <;> simp [Mode.pending, countP_flush, Token.bytes]

/-- A turn drops the byte, or keeps it in a word. -/
theorem countP_turn_le (mode : Mode) (b : UInt8) :
    ((turn mode b).1.flatMap Token.bytes).countP q + (turn mode b).2.pending.countP q ≤
      mode.pending.countP q + [b].countP q := by
  cases mode with
  | plain word => exact countP_turnPlain_le word b
  | quoted word =>
      rw [turn]
      split_ifs <;> simp [Mode.pending]
  | escaped word => simp [turn, Mode.pending]
  | ampersand =>
      rw [turn]
      split_ifs
      · simp [Mode.pending, Token.bytes]
      · exact countP_turnPlain_le none b

/-- The bytes of the tokens come from the text, each from one of its own. -/
theorem countP_lexFrom_le {mode : Mode} {text : Bytes} {tokens : List Token}
    (h : lexFrom mode text = some tokens) :
    (tokens.flatMap Token.bytes).countP q ≤ mode.pending.countP q + text.countP q := by
  induction text generalizing mode tokens with
  | nil =>
      cases mode with
      | plain word =>
          obtain rfl := Option.some.inj h
          exact Nat.le_of_eq (countP_flush word)
      | quoted word => cases h
      | escaped word => cases h
      | ampersand =>
          obtain rfl := Option.some.inj h
          exact Nat.zero_le _
  | cons b rest ih =>
      rw [lexFrom, Option.map_eq_some_iff] at h
      obtain ⟨later, hlater, rfl⟩ := h
      have hturn := @countP_turn_le q mode b
      have hrest := ih hlater
      rw [List.flatMap_append, List.countP_append]
      rw [← List.singleton_append, List.countP_append]
      omega

theorem countP_lex_le {text : Bytes} {tokens : List Token} (h : lex text = some tokens) :
    (tokens.flatMap Token.bytes).countP q ≤ text.countP q := by
  have hle := @countP_lexFrom_le q _ _ _ h
  rwa [Mode.pending, Option.getD_none, List.countP_nil, Nat.zero_add] at hle

end Shell
