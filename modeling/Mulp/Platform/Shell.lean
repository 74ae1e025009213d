import Mathlib.Data.List.TakeWhile
import Mulp.Lib.ShellLexer
import Mulp.Lib.Utf8
import Mulp.Text.Slice

/-! The shell command of a process (`platform/process.mbt`, `platform/process_stub.c`):
how its words are quoted, and what the shell reads.

The command is a text that is cut down to bytes after it has been quoted, so a character
beyond a byte may become any byte, a quote among them. The reader's side is a lexer of
the shell's own rules. -/
namespace Mulp.Platform

open Mulp.Text

structure ProcessCommand where
  program : String
  args : List String
  cwd : Option String

/-- The code unit of `'`. -/
def quoteUnit : UInt16 := 0x27

def quoteShellArg (value : Units) : Option Units :=
  (slices value).map fun chars =>
    [quoteUnit] ++ join [] (chars.map fun char => if char = [quoteUnit] then units "'\\''" else char) ++
      [quoteUnit]

def quoteShellArgs : List String → Option (List Units)
  | [] => some []
  | arg :: args =>
      match quoteShellArg (units arg) with
      | none => none
      | some part => (quoteShellArgs args).map (part :: ·)

def ProcessCommand.toShellCommand (self : ProcessCommand) : Option Units :=
  match quoteShellArgs (self.program :: self.args) with
  | none => none
  | some parts =>
      let command := join (units " ") parts
      match self.cwd with
      | some cwd =>
          (quoteShellArg (units cwd)).map fun quoted => units "cd " ++ quoted ++ units " && " ++ command
      | none => some command

/-- `bytes_from_ascii`: the low byte of each unit. It is applied to the text when it has been quoted
already. -/
def bytesFromAscii (value : Units) : List UInt8 := value.map UInt16.toUInt8

/-- The command that `run_process` hands to the shell: `mulp_run_shell` prints it
with `%s`, up to its first NUL, with the redirections around it. -/
def ProcessCommand.handed (self : ProcessCommand) : Option (List UInt8) :=
  self.toShellCommand.map fun command => (bytesFromAscii command).takeWhile (· ≠ 0)

/-! ## What the shell should read -/

/-- The UTF-8 encoding of a text. -/
def utf8 (text : String) : List UInt8 := Utf8.encode text.toList

/-- A change of directory, if there is one, and a command of the words. -/
def ProcessCommand.tokens (self : ProcessCommand) : List Shell.Token :=
  (match self.cwd with
    | some cwd => [.word (utf8 "cd"), .word (utf8 cwd), .andIf]
    | none => []) ++
  (self.program :: self.args).map fun word => .word (utf8 word)

/-- The shell reads the program and its arguments, in their directory, and nothing else: the whole
text is taken apart into these words. -/
def HandsWords (command : ProcessCommand) : Prop :=
  ∃ bytes, command.handed = some bytes ∧ Shell.lex bytes = some command.tokens

def ProcessCommand.texts (self : ProcessCommand) : List String :=
  self.cwd.toList ++ self.program :: self.args

/-- The characters of the command. -/
def ProcessCommand.chars (self : ProcessCommand) : List Char := self.texts.flatMap String.toList

/-- NUL is not among the characters. -/
def ProcessCommand.NoNul (self : ProcessCommand) : Prop := ∀ c ∈ self.chars, c.toNat ≠ 0

def ProcessCommand.Ascii (self : ProcessCommand) : Prop := ∀ c ∈ self.chars, c.toNat < 0x80

instance (command : ProcessCommand) : Decidable command.NoNul := List.decidableBAll _ _
instance (command : ProcessCommand) : Decidable command.Ascii := List.decidableBAll _ _

/-! ## The command without aborts -/

def quotedUnit (u : UInt16) : Units := if u = quoteUnit then units "'\\''" else [u]

def quoted (value : Units) : Units := [quoteUnit] ++ value.flatMap quotedUnit ++ [quoteUnit]

theorem quoteShellArg_eq_some_iff {value result : Units} :
    quoteShellArg value = some result ↔ Plain value ∧ quoted value = result := by
  have hparts : join [] ((value.map fun u => [u]).map fun char =>
      if char = [quoteUnit] then units "'\\''" else char) = value.flatMap quotedUnit := by
    rw [join, nil_intercalate, List.map_map, List.flatMap]
    congr 2
    funext u
    simp [quotedUnit]
  rw [quoteShellArg, Option.map_eq_some_iff]
  constructor
  · rintro ⟨chars, hchars, rfl⟩
    obtain ⟨hplain, rfl⟩ := slices_eq_some_iff.mp hchars
    exact ⟨hplain, by rw [hparts, quoted]⟩
  · rintro ⟨hplain, rfl⟩
    exact ⟨_, slices_eq_some_iff.mpr ⟨hplain, rfl⟩, by rw [hparts, quoted]⟩

def quotedText (text : String) : Units := quoted (units text)

theorem quoteShellArgs_eq_some_iff {args : List String} {parts : List Units} :
    quoteShellArgs args = some parts ↔ (∀ arg ∈ args, IsBmp arg) ∧ args.map quotedText = parts := by
  induction args generalizing parts with
  | nil => simp [quoteShellArgs]
  | cons arg args ih =>
      rw [quoteShellArgs, List.forall_mem_cons, List.map_cons]
      cases hpart : quoteShellArg (units arg) with
      | none =>
          refine iff_of_false nofun fun h => ?_
          have hplain := plain_units_iff.mpr h.1.1
          rw [quoteShellArg_eq_some_iff.mpr ⟨hplain, rfl⟩] at hpart
          cases hpart
      | some part =>
          obtain ⟨hplain, rfl⟩ := quoteShellArg_eq_some_iff.mp hpart
          simp only [Option.map_eq_some_iff, ih]
          constructor
          · rintro ⟨_, ⟨hargs, rfl⟩, rfl⟩
            exact ⟨⟨plain_units_iff.mp hplain, hargs⟩, rfl⟩
          · rintro ⟨⟨-, hargs⟩, rfl⟩
            exact ⟨_, ⟨hargs, rfl⟩, rfl⟩

/-- The command, each text quoted, behind a change of directory if it has one. -/
def ProcessCommand.shellText (self : ProcessCommand) : Units :=
  (match self.cwd with
    | some cwd => units "cd " ++ quotedText cwd ++ units " && "
    | none => []) ++
  join (units " ") ((self.program :: self.args).map quotedText)

theorem toShellCommand_eq_some_iff {command : ProcessCommand} {result : Units} :
    command.toShellCommand = some result ↔
      (∀ text ∈ command.texts, IsBmp text) ∧ command.shellText = result := by
  obtain ⟨program, args, cwd⟩ := command
  rw [ProcessCommand.toShellCommand, ProcessCommand.texts, List.forall_mem_append]
  cases hparts : quoteShellArgs (program :: args) with
  | none =>
      refine iff_of_false nofun fun h => ?_
      rw [quoteShellArgs_eq_some_iff.mpr ⟨h.1.2, rfl⟩] at hparts
      cases hparts
  | some parts =>
      obtain ⟨hargs, rfl⟩ := quoteShellArgs_eq_some_iff.mp hparts
      cases cwd with
      | none =>
          rw [Option.some.injEq, and_iff_right ⟨nofun, hargs⟩, ProcessCommand.shellText,
            List.nil_append]
      | some cwd =>
          simp only [Option.map_eq_some_iff, quoteShellArg_eq_some_iff, plain_units_iff,
            Option.toList_some, List.forall_mem_singleton, and_iff_left hargs]
          constructor
          · rintro ⟨_, ⟨hcwd, rfl⟩, rfl⟩
            exact ⟨hcwd, rfl⟩
          · rintro ⟨hcwd, rfl⟩
            exact ⟨_, ⟨hcwd, rfl⟩, rfl⟩

/-! ## Counting bytes -/

/-- The bytes that a command has besides those of its texts. -/
def addedBytes : List UInt8 := [0x27, 0x5C, 0x20, 0x26, 0x63, 0x64]

theorem bytesFromAscii_blank : bytesFromAscii (units " ") = [Shell.blankByte] := rfl

theorem bytesFromAscii_cd : bytesFromAscii (units "cd ") = [0x63, 0x64, Shell.blankByte] := rfl

theorem bytesFromAscii_and :
    bytesFromAscii (units " && ") =
      [Shell.blankByte, Shell.andByte, Shell.andByte, Shell.blankByte] := rfl

/-- The byte of a character that takes one unit. -/
def lowByte (c : Char) : UInt8 := (unitOf c).toUInt8

section Count

variable {q : UInt8 → Bool}

theorem countP_added (hq : ∀ b ∈ addedBytes, q b = false) {value : Units}
    (h : bytesFromAscii value ⊆ addedBytes) : (bytesFromAscii value).countP q = 0 :=
  List.countP_eq_zero.mpr fun b hb => Bool.eq_false_iff.mp (hq b (h hb))

theorem bytesFromAscii_append (first second : Units) :
    bytesFromAscii (first ++ second) = bytesFromAscii first ++ bytesFromAscii second :=
      List.map_append

theorem countP_quoted (hq : ∀ b ∈ addedBytes, q b = false) (value : Units) :
    (bytesFromAscii (quoted value)).countP q = (bytesFromAscii value).countP q := by
  have hunit (u : UInt16) : (bytesFromAscii (quotedUnit u)).countP q =
      (bytesFromAscii [u]).countP q := by
    rw [quotedUnit]
    split_ifs with hu
    · have hescaped : bytesFromAscii (units "'\\''") = [0x27, 0x5C, 0x27, 0x27] := rfl
      have hquote : bytesFromAscii [quoteUnit] = [0x27] := rfl
      rw [hu, countP_added hq (by simp [hescaped, addedBytes]),
        countP_added hq (by simp [hquote, addedBytes])]
    · rfl
  have hunits : (bytesFromAscii (value.flatMap quotedUnit)).countP q =
      (bytesFromAscii value).countP q := by
    induction value with
    | nil => rfl
    | cons u value ih =>
        rw [List.flatMap_cons, bytesFromAscii_append, List.countP_append, hunit, ih,
          ← List.countP_append, ← bytesFromAscii_append, List.singleton_append]
  have hquote : (bytesFromAscii [quoteUnit]).countP q = 0 :=
    countP_added hq (List.cons_subset_cons _ (List.nil_subset _))
  rw [quoted, bytesFromAscii_append, bytesFromAscii_append, List.countP_append,
    List.countP_append, hquote, hunits, Nat.zero_add, Nat.add_zero]

theorem countP_quotedText (hq : ∀ b ∈ addedBytes, q b = false) {text : String} (h : IsBmp text) :
    (bytesFromAscii (quotedText text)).countP q = (text.toList.map lowByte).countP q := by
  rw [quotedText, countP_quoted hq, units_eq_map h, bytesFromAscii, List.map_map]
  rfl

theorem countP_quotedTexts (hq : ∀ b ∈ addedBytes, q b = false) {texts : List String}
    (h : ∀ text ∈ texts, IsBmp text) :
    (bytesFromAscii (texts.map quotedText).flatten).countP q =
      ((texts.flatMap String.toList).map lowByte).countP q := by
  induction texts with
  | nil => rfl
  | cons text texts ih =>
      rw [List.forall_mem_cons] at h
      rw [List.map_cons, List.flatten_cons, bytesFromAscii_append, List.countP_append,
        countP_quotedText hq h.1, ih h.2, List.flatMap_cons, List.map_append, List.countP_append]

/-- Quoting and joining keep the number of any other bytes. -/
theorem countP_shellText (hq : ∀ b ∈ addedBytes, q b = false) {command : ProcessCommand}
    (h : ∀ text ∈ command.texts, IsBmp text) :
    (bytesFromAscii command.shellText).countP q = (command.chars.map lowByte).countP q := by
  have hblank : (units " ").countP (q ∘ UInt16.toUInt8) = 0 := by
    rw [← List.countP_map]
    exact countP_added hq (by simp [bytesFromAscii_blank, Shell.blankByte, addedBytes])
  have hcd : (bytesFromAscii (units "cd ")).countP q = 0 :=
    countP_added hq (by simp [bytesFromAscii_cd, Shell.blankByte, addedBytes])
  have hand : (bytesFromAscii (units " && ")).countP q = 0 :=
    countP_added hq (by simp [bytesFromAscii_and, Shell.blankByte, Shell.andByte, addedBytes])
  have hjoin (parts : List Units) : (bytesFromAscii (join (units " ") parts)).countP q =
      (bytesFromAscii parts.flatten).countP q := by
    rw [bytesFromAscii, bytesFromAscii, List.countP_map, List.countP_map, countP_join hblank]
  rw [ProcessCommand.chars, ← countP_quotedTexts hq h]
  obtain ⟨program, args, cwd⟩ := command
  rw [ProcessCommand.shellText, ProcessCommand.texts, bytesFromAscii_append,
    List.countP_append, hjoin]
  cases cwd with
  | none =>
      rw [Option.toList_none, List.nil_append]
      exact Nat.zero_add _
  | some cwd =>
      rw [bytesFromAscii_append, bytesFromAscii_append, List.countP_append, List.countP_append,
        hcd, hand, Nat.zero_add, Nat.add_zero, ← List.countP_append, ← bytesFromAscii_append,
        ← List.flatten_cons,
        ← List.map_cons, Option.toList_some, List.singleton_append]

end Count

/-! ## Necessity: one unit for a character is one byte -/

/-- The byte is not ASCII. -/
def isHighByte (b : UInt8) : Bool := 0x80 ≤ b.toNat

theorem not_isHighByte_added : ∀ b ∈ addedBytes, isHighByte b = false := by
  simp [addedBytes, isHighByte]

theorem lowByte_ascii {c : Char} (h : c.toNat < 0x80) : [lowByte c] = String.utf8EncodeChar c := by
  have hunit : (unitOf c).toNat = c.toNat := toNat_unitOf (by omega)
  have hbyte : lowByte c = .ofNat c.toNat := by
    rw [← UInt8.toNat_inj, lowByte, UInt16.toNat_toUInt8, hunit, UInt8.toNat_ofNat']
  rw [Utf8.utf8EncodeChar_ascii h, hbyte]

/-- A character that is not ASCII has two high bytes or more. -/
theorem countP_lowByte_lt {c : Char} (h : ¬ c.toNat < 0x80) :
    [lowByte c].countP isHighByte < (String.utf8EncodeChar c).countP isHighByte := by
  have hhigh : (String.utf8EncodeChar c).countP isHighByte = (String.utf8EncodeChar c).length :=
    List.countP_eq_length.mpr fun b hb =>
      decide_eq_true (Utf8.mem_utf8EncodeChar (Nat.le_of_not_lt h) hb).1
  have hone : [lowByte c].countP isHighByte ≤ 1 := List.countP_le_length
  rw [hhigh, Utf8.length_utf8EncodeChar, if_neg h]
  split_ifs <;> omega

theorem countP_lowByte_le (c : Char) :
    [lowByte c].countP isHighByte ≤ (String.utf8EncodeChar c).countP isHighByte := by
  by_cases h : c.toNat < 0x80
  · rw [lowByte_ascii h]
  · exact Nat.le_of_lt (countP_lowByte_lt h)

/-- The words among the tokens have the bytes of all texts. -/
theorem flatMap_words (words : List String) :
    (words.map fun word => Shell.Token.word (utf8 word)).flatMap Shell.Token.bytes =
      (words.flatMap String.toList).flatMap String.utf8EncodeChar := by
  rw [List.flatMap_map, List.flatMap_assoc]
  rfl

theorem countP_tokens (command : ProcessCommand) :
    (command.tokens.flatMap Shell.Token.bytes).countP isHighByte =
      (command.chars.flatMap String.utf8EncodeChar).countP isHighByte := by
  have hcd : (utf8 "cd").countP isHighByte = 0 := rfl
  obtain ⟨program, args, cwd⟩ := command
  rw [ProcessCommand.tokens, ProcessCommand.chars, ProcessCommand.texts, List.flatMap_append,
    List.flatMap_append, List.flatMap_append, flatMap_words, List.countP_append, List.countP_append]
  cases cwd with
  | none => rfl
  | some cwd =>
      have hcwd : [Shell.Token.word (utf8 "cd"), .word (utf8 cwd), .andIf].flatMap
          Shell.Token.bytes =
          utf8 "cd" ++ utf8 cwd := by simp [Shell.Token.bytes]
      rw [hcwd, List.countP_append, hcd, Nat.zero_add, Option.toList_some, List.flatMap_singleton]
      rfl

/-- A command of which some character is not ASCII is not handed over as it is. -/
theorem HandsWords.ascii {command : ProcessCommand} (h : HandsWords command) : command.Ascii := by
  obtain ⟨bytes, hbytes, hlex⟩ := h
  rw [ProcessCommand.handed, Option.map_eq_some_iff] at hbytes
  obtain ⟨text, htext, rfl⟩ := hbytes
  obtain ⟨hbmp, rfl⟩ := toShellCommand_eq_some_iff.mp htext
  -- what is read has no more high bytes than the units have
  have hread := @Shell.countP_lex_le isHighByte _ _ hlex
  have hcut := (List.takeWhile_sublist (l := bytesFromAscii command.shellText) (· ≠ 0)).countP_le
    (p := isHighByte)
  have hunits : (bytesFromAscii command.shellText).countP isHighByte =
      (command.chars.flatMap fun c => [lowByte c]).countP isHighByte := by
    rw [countP_shellText not_isHighByte_added hbmp, List.map_eq_flatMap]
  have hle := Utf8.countP_flatMap_le (q := isHighByte)
    fun c (_ : c ∈ command.chars) => countP_lowByte_le c
  rw [countP_tokens] at hread
  intro c hc
  by_contra hhigh
  have hsame := Utf8.countP_eq_of_flatMap (fun c _ => countP_lowByte_le c)
    (show (command.chars.flatMap fun c => [lowByte c]).countP isHighByte = _ by omega) c hc
  exact Nat.ne_of_lt (countP_lowByte_lt hhigh) hsame

/-! ## Sufficiency -/

theorem bytesFromAscii_join (separator : Units) (parts : List Units) :
    bytesFromAscii (join separator parts) =
      (bytesFromAscii separator).intercalate (parts.map bytesFromAscii) := by
  rw [join]
  induction parts with
  | nil => rfl
  | cons part parts ih =>
      cases parts with
      | nil => simp
      | cons next parts =>
          rw [List.intercalate_cons_cons, bytesFromAscii_append, bytesFromAscii_append, ih]
          simp only [List.map_cons, List.intercalate_cons_cons]

theorem bytesFromAscii_quotedUnit {c : Char} (h : c.toNat < 0x80) :
    bytesFromAscii (quotedUnit (unitOf c)) = Shell.quotedByte (lowByte c) := by
  have hquote : unitOf c = quoteUnit ↔ lowByte c = Shell.quoteByte := by
    rw [← UInt16.toNat_inj, ← UInt8.toNat_inj, lowByte, UInt16.toNat_toUInt8,
      toNat_unitOf (by omega)]
    show _ = 0x27 ↔ _ = 0x27
    omega
  rw [quotedUnit, Shell.quotedByte]
  simp only [hquote]
  split_ifs <;> rfl

/-- The bytes of a quoted text are its encoding, quoted. -/
theorem bytesFromAscii_quotedText {text : String} (h : ∀ c ∈ text.toList, c.toNat < 0x80) :
    bytesFromAscii (quotedText text) = Shell.quote (utf8 text) := by
  have hbmp : IsBmp text := fun c hc => Nat.le_of_lt (Nat.lt_trans (h c hc) (by decide))
  have hchars : bytesFromAscii ((text.toList.map unitOf).flatMap quotedUnit) =
      (Utf8.encode text.toList).flatMap Shell.quotedByte := by
    rw [bytesFromAscii, List.flatMap_map, List.map_flatMap, Utf8.encode, List.flatMap_assoc]
    refine List.flatMap_congr fun c hc => ?_
    rw [← lowByte_ascii (h c hc), List.flatMap_singleton]
    exact bytesFromAscii_quotedUnit (h c hc)
  rw [quotedText, quoted, bytesFromAscii_append, bytesFromAscii_append, units_eq_map hbmp, hchars]
  rfl

theorem bytesFromAscii_quotedTexts {texts : List String}
    (h : ∀ text ∈ texts, ∀ c ∈ text.toList, c.toNat < 0x80) :
    bytesFromAscii (join (units " ") (texts.map quotedText)) =
      [Shell.blankByte].intercalate ((texts.map utf8).map Shell.quote) := by
  have hparts : texts.map (bytesFromAscii ∘ quotedText) = texts.map (Shell.quote ∘ utf8) :=
    List.map_congr_left fun text htext => bytesFromAscii_quotedText (h text htext)
  rw [bytesFromAscii_join, bytesFromAscii_blank, List.map_map, hparts, List.map_map]

/-- The start of a change of directory. -/
theorem lex_cd (rest : List UInt8) :
    Shell.lex (bytesFromAscii (units "cd ") ++ rest) =
      (Shell.lex rest).map (.word (utf8 "cd") :: ·) := by
  have hword : utf8 "cd" = [0x63, 0x64] := rfl
  have hc : Shell.turn (.plain none) 0x63 = ([], .plain (some [0x63])) := by decide
  have hd : Shell.turn (.plain (some [0x63])) 0x64 = ([], .plain (some [0x63, 0x64])) := by decide
  rw [bytesFromAscii_cd, hword, Shell.lex, List.cons_append, Shell.lexFrom_cons hc,
    List.cons_append, Shell.lexFrom_cons hd, List.singleton_append, Shell.lexFrom_blank]
  rfl

/-- Between the directory and the command. -/
theorem lexFrom_andIf (word rest : List UInt8) :
    Shell.lexFrom (.plain (some word)) (bytesFromAscii (units " && ") ++ rest) =
      (Shell.lex rest).map fun tokens => .word word :: .andIf :: tokens := by
  rw [bytesFromAscii_and]
  show ((((Shell.lex rest).map _).map _).map _).map _ = _
  simp only [Option.map_map]
  rfl

/-- The shell reads a command of ASCII texts as it is. -/
theorem lex_shellText {command : ProcessCommand} (h : command.Ascii) :
    Shell.lex (bytesFromAscii command.shellText) = some command.tokens := by
  obtain ⟨program, args, cwd⟩ := command
  have htexts : ∀ text ∈ cwd.toList ++ program :: args, ∀ c ∈ text.toList, c.toNat < 0x80 :=
    fun text htext c hc => h c (List.mem_flatMap.mpr ⟨text, htext, hc⟩)
  rw [List.forall_mem_append] at htexts
  have hwords := Shell.lex_quotes (utf8 program) (args.map utf8)
  rw [← List.map_cons, ← bytesFromAscii_quotedTexts htexts.2, List.map_map] at hwords
  rw [ProcessCommand.shellText, bytesFromAscii_append, ProcessCommand.tokens]
  cases cwd with
  | none => exact hwords
  | some cwd =>
      have hcwd := bytesFromAscii_quotedText (htexts.1 cwd (Option.mem_toList.mpr rfl))
      dsimp only
      rw [bytesFromAscii_append, bytesFromAscii_append, hcwd, List.append_assoc,
        List.append_assoc, lex_cd, Shell.lex, Shell.lexFrom_quote, lexFrom_andIf, hwords]
      rfl

/-- The command has no NUL if its texts have none. -/
theorem not_mem_shellText {command : ProcessCommand} (h : command.NoNul) (hascii : command.Ascii) :
    ∀ b ∈ bytesFromAscii command.shellText, b ≠ 0 := by
  have hbmp : ∀ text ∈ command.texts, IsBmp text := fun text htext c hc =>
    Nat.le_of_lt (Nat.lt_trans (hascii c (List.mem_flatMap.mpr ⟨text, htext, hc⟩)) (by decide))
  have hadded : ∀ b ∈ addedBytes, decide (b = 0) = false := by simp [addedBytes]
  have hcount := countP_shellText hadded hbmp
  have hchars : (command.chars.map lowByte).countP (fun b => decide (b = 0)) = 0 := by
    rw [List.countP_eq_zero]
    intro b hb hzero
    obtain ⟨c, hc, rfl⟩ := List.mem_map.mp hb
    have hnat : (lowByte c).toNat = 0 := by rw [of_decide_eq_true hzero]; rfl
    have hlow : c.toNat < 0x80 := hascii c hc
    rw [lowByte, UInt16.toNat_toUInt8, toNat_unitOf (by omega)] at hnat
    exact h c hc (by omega)
  intro b hb hzero
  exact List.countP_eq_zero.mp (hcount.trans hchars) b hb (decide_eq_true hzero)

theorem ProcessCommand.Ascii.handsWords {command : ProcessCommand} (hascii : command.Ascii)
    (h : command.NoNul) : HandsWords command := by
  have hbmp : ∀ text ∈ command.texts, IsBmp text := fun text htext c hc =>
    Nat.le_of_lt (Nat.lt_trans (hascii c (List.mem_flatMap.mpr ⟨text, htext, hc⟩)) (by decide))
  have hself : (bytesFromAscii command.shellText).takeWhile (· ≠ 0) =
      bytesFromAscii command.shellText :=
    List.takeWhile_eq_self_iff.mpr fun b hb => decide_eq_true (not_mem_shellText h hascii b hb)
  refine ⟨_, ?_, lex_shellText hascii⟩
  rw [ProcessCommand.handed, toShellCommand_eq_some_iff.mpr ⟨hbmp, rfl⟩, Option.map_some, hself]

/-- What the shell reads of a command without NUL are its words, in their directory,
if and only if all its characters are ASCII. -/
theorem handsWords_iff {command : ProcessCommand} (h : command.NoNul) :
    HandsWords command ↔ command.Ascii :=
  ⟨HandsWords.ascii, fun hascii => hascii.handsWords h⟩

/-- A command with a quote and operators among its words. -/
theorem handsWords_quote :
    HandsWords ⟨"echo", ["it's; rm -rf $HOME && ls"], some "my dir"⟩ :=
  (handsWords_iff (by simp [ProcessCommand.NoNul, ProcessCommand.chars, ProcessCommand.texts])).mpr
    (by simp [ProcessCommand.Ascii, ProcessCommand.chars, ProcessCommand.texts])

/-- The low byte of `ħ` is a quote: the shell reads a second command. -/
theorem not_handsWords_injection :
    ¬ ∀ command : ProcessCommand, command.NoNul → HandsWords command := by
  intro h
  have hnul : ProcessCommand.NoNul ⟨"echo", ["ħ; ls ħ"], none⟩ := by
    simp [ProcessCommand.NoNul, ProcessCommand.chars, ProcessCommand.texts]
  obtain ⟨bytes, hbytes, hlex⟩ := h _ hnul
  have hread : (ProcessCommand.handed ⟨"echo", ["ħ; ls ħ"], none⟩).bind Shell.lex =
      some [.word (utf8 "echo"), .word [], .operator 0x3B, .word (utf8 "ls"), .word []] := rfl
  rw [hbytes, Option.bind_some, hlex] at hread
  exact absurd (congrArg (Option.map List.length) hread) (by decide)

end Mulp.Platform
