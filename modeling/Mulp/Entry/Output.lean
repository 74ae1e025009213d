import Mathlib.Tactic.SplitIfs
import Mulp.Entry.Run
import Mulp.Lib.Lines
import Mulp.Lib.Utf8
import Mulp.Text.Path

/-! What the command writes of a child's outputs (`cmd/mulp/main.mbt`).

The outputs come back as a string of which each byte is a character, lines of noise are
left out, and the string is encoded as UTF-8. So a byte above 127 becomes two. -/
namespace Mulp.Entry

open Mulp.Core Mulp.Platform Mulp.Text

/-! ## `main` -/

def ensureTrailingNewline (value : String) : String :=
  if value = "" ∨ hasSuffix value "\n" then value else value ++ "\n"

structure CommandTerminalOutput where
  stdout : String
  stderr : String

def commandTerminalOutput (result : CommandResult) : CommandTerminalOutput :=
  ⟨ensureTrailingNewline result.stdout, ensureTrailingNewline result.stderr⟩

/-- What `main` writes of a result, to the two outputs. -/
def mainWrites (logLevel : Int) (result : CommandResult) : List UInt8 × List UInt8 :=
  let output := commandTerminalOutput result
  (if output.stdout ≠ "" ∧ logLevel > 0 then Utf8.encode output.stdout.toList else [],
    if output.stderr ≠ "" then Utf8.encode output.stderr.toList else [])

/-! ## What is to be written -/

/-- A child process has run, with these outputs. -/
inductive Leaves : ShellRun → List UInt8 → List UInt8 → Prop where
  | exited (child : Exit) : Leaves (.exited child) child.stdout child.stderr
  | signalled (signal : Fin 126) (stdout stderr : List UInt8) :
      Leaves (.signalled signal stdout stderr) stdout stderr

def newline : UInt8 := 0x0A

/-- `Using cached `, in bytes. -/
def noise : List UInt8 := Utf8.encode "Using cached ".toList

/-- The lines of an output that do not tell of dependencies. -/
def keptLines (stdout : List UInt8) : List (List UInt8) :=
  (stdout.splitOn newline).filter fun line => !noise.isPrefixOf line

def withoutNoise (stdout : List UInt8) : List UInt8 := [newline].intercalate (keptLines stdout)

/-- With a line break at the end, unless it is empty. -/
def lineEnded (bytes : List UInt8) : List UInt8 :=
  if bytes = [] ∨ [newline].isSuffixOf bytes then bytes else bytes ++ [newline]

/-- `main` writes what the child has written, but for the noise: byte for byte, on the same of the
two outputs, with at most a line's end added. -/
structure PassesThrough (os : OS) (run : ShellRun) (logLevel : Int) (stdout stderr : List UInt8) : Prop where
  stdout : (mainWrites logLevel (executeMoonRunCommand os run)).1 = lineEnded (withoutNoise stdout)
  stderr : (mainWrites logLevel (executeMoonRunCommand os run)).2 = lineEnded stderr

/-! ## Bytes as characters -/

section Latin

variable {bytes : List UInt8}

/-- The character that a byte is taken for. -/
def latin (byte : UInt8) : Char := Char.ofNat byte.toNat

theorem toNat_latin (byte : UInt8) : (latin byte).toNat = byte.toNat := by
  have hlt := byte.toNat_lt
  exact Utf8.val_ofNat (.inl (by omega))

theorem latin_injective : Function.Injective latin := by
  intro first second h
  have hnat := congrArg Char.toNat h
  rw [toNat_latin, toNat_latin] at hnat
  exact UInt8.toNat_inj.mp hnat

/-- A text with one character for each byte, which is what `ascii_from_bytes` makes of an output,
whatever its bytes are. -/
def latinText (bytes : List UInt8) : String := String.ofList (bytes.map latin)

theorem latinText_eq_empty : latinText bytes = "" ↔ bytes = [] := by
  rw [latinText, ← String.toList_eq_nil_iff, String.toList_ofList, List.map_eq_nil_iff]

theorem latin_newline : latin newline = '\n' := by decide

theorem noise_map : noise.map latin = "Using cached ".toList := by decide

/-- Lines and their beginnings are the same for bytes and for characters. -/
theorem strip_latinText (stdout : List UInt8) :
    stripMoonDependencyNoise (latinText stdout) = latinText (withoutNoise stdout) := by
  have hstarts (line : List UInt8) :
      (latinText line).startsWith "Using cached " = noise.isPrefixOf line := by
    refine Bool.eq_iff_iff.mpr (String.startsWith_string_iff.trans ?_)
    have hline : (latinText line).toList = line.map latin := String.toList_ofList
    rw [hline, List.isPrefixOf_iff_prefix, ← List.prefix_map_iff_of_injective latin_injective,
      noise_map]
  have hlines : (latinText stdout).splitOn "\n" = (stdout.splitOn newline).map latinText := by
    rw [Lines.splitOn_newline, latinText, String.toList_ofList, ← latin_newline,
      Lines.splitOn_map latin_injective, List.map_map]
    rfl
  have hkept : ((stdout.splitOn newline).map latinText).filter
      (fun line => !line.startsWith "Using cached ") =
      (keptLines stdout).map latinText := by
    rw [List.filter_map, keptLines]
    congr 2
    funext line
    exact congrArg not (hstarts line)
  have hsingle : [latin newline] = [newline].map latin := rfl
  have hparts : (keptLines stdout).map (String.toList ∘ latinText) =
      (keptLines stdout).map (List.map latin) :=
    List.map_congr_left fun line _ => String.toList_ofList
  rw [stripMoonDependencyNoise, hlines, hkept, ← String.toList_inj, String.toList_intercalate,
    List.map_map, hparts, withoutNoise, latinText, ← Lines.intercalate_map, ← hsingle,
    latin_newline]
  exact String.toList_ofList.symm

theorem ensureTrailingNewline_latinText (bytes : List UInt8) :
    ensureTrailingNewline (latinText bytes) = latinText (lineEnded bytes) := by
  have hends : hasSuffix (latinText bytes) "\n" = [newline].isSuffixOf bytes := by
    have hline : (latinText bytes).toList = bytes.map latin := String.toList_ofList
    have hnewline : "\n".toList = [newline].map latin := by decide
    rw [hasSuffix, hline, hnewline, Bool.eq_iff_iff, List.isSuffixOf_iff_suffix,
      List.isSuffixOf_iff_suffix, List.suffix_map_iff_of_injective latin_injective]
  have hcond : latinText bytes = "" ∨ hasSuffix (latinText bytes) "\n" ↔
      bytes = [] ∨ [newline].isSuffixOf bytes := by
    rw [latinText_eq_empty, hends]
  rw [ensureTrailingNewline, lineEnded]
  by_cases hended : bytes = [] ∨ [newline].isSuffixOf bytes
  · rw [if_pos hended, if_pos (hcond.mpr hended)]
  · rw [if_neg hended, if_neg (mt hcond.mp hended), ← String.toList_inj, latinText, latinText,
      String.toList_append, String.toList_ofList, List.map_append, List.map_singleton,
      latin_newline]
    exact String.toList_ofList.symm

/-- As many bytes or more are written. -/
theorem length_le_encode_latin (bytes : List UInt8) :
    bytes.length ≤ (Utf8.encode (bytes.map latin)).length := by
  induction bytes with
  | nil => exact Nat.le_refl 0
  | cons byte rest ih =>
      have hlength := Utf8.length_utf8EncodeChar (latin byte)
      rw [List.map_cons, Utf8.encode_cons, List.length_append, List.length_cons, hlength]
      split_ifs <;> omega

/-- Bytes that are taken for characters come out the same only if they are ASCII. -/
theorem encode_latin_iff :
    Utf8.encode (bytes.map latin) = bytes ↔ ∀ byte ∈ bytes, byte.toNat < 0x80 := by
  induction bytes with
  | nil => exact iff_of_true rfl (by nofun)
  | cons byte rest ih =>
      rw [List.map_cons, Utf8.encode_cons, List.forall_mem_cons, ← ih]
      by_cases hascii : byte.toNat < 0x80
      · have hbyte : String.utf8EncodeChar (latin byte) = [byte] := by
          rw [Utf8.utf8EncodeChar_ascii (by rwa [toNat_latin]), toNat_latin]
          exact congrArg (fun byte => [byte]) (UInt8.ofNat_toNat)
        rw [hbyte, List.singleton_append, List.cons_inj_right, and_iff_right hascii]
      · refine iff_of_false (fun heq => ?_) fun h => hascii h.1
        have hlength := congrArg List.length heq
        have hrest := length_le_encode_latin rest
        have hbyte : 2 ≤ (String.utf8EncodeChar (latin byte)).length := by
          rw [Utf8.length_utf8EncodeChar, toNat_latin, if_neg hascii]
          split_ifs <;> omega
        rw [List.length_append, List.length_cons] at hlength
        omega

theorem forall_mem_lineEnded {p : UInt8 → Prop} (hp : p newline) :
    (∀ byte ∈ lineEnded bytes, p byte) ↔ ∀ byte ∈ bytes, p byte := by
  rw [lineEnded]
  split_ifs with hended
  · rfl
  · rw [List.forall_mem_append, List.forall_mem_singleton, and_iff_left hp]

end Latin

/-! ## From the child to the terminal -/

section Pass

variable {os : OS} {run : ShellRun} {stdout stderr : List UInt8}

theorem runProcess_leaves (h : Leaves run stdout stderr) : ∃ code : Nat, runProcess os run =
    .ok ⟨code, asciiFromBytes stdout, asciiFromBytes stderr, asciiFromBytes stdout⟩ := by
  cases h with
  | exited child => exact ⟨child.status.toNat, runProcess_exited os child⟩
  | signalled signal =>
      obtain ⟨code, hcode⟩ : ∃ code : Nat, (ShellRun.signalled signal stdout stderr).exitCode os =
        code := by
        have hlt := signal.isLt
        cases os with
        | windows => exact ⟨signal.val + 1, rfl⟩
        | posix =>
            refine ⟨128, ?_⟩
            show mulpExitCode .posix (signal.val + 1) = 128
            rw [mulpExitCode, if_neg (by omega), if_neg (by omega)]
      refine ⟨code, ?_⟩
      rw [runProcess, mulpRunShell, hcode]
      exact congrArg Except.ok (parseProcessResult_encode code stdout stderr)

/-- The outputs of the child, as the command has them. -/
theorem executeMoonRunCommand_leaves (h : Leaves run stdout stderr) :
    (executeMoonRunCommand os run).stdout = latinText (withoutNoise stdout) ∧
      (executeMoonRunCommand os run).stderr = latinText stderr := by
  obtain ⟨code, hrun⟩ := @runProcess_leaves os run stdout stderr h
  rw [executeMoonRunCommand, hrun]
  exact ⟨strip_latinText stdout, rfl⟩

theorem encode_latinText {p : Prop} [Decidable p] (hp : p) (bytes : List UInt8) :
    (if latinText bytes ≠ "" ∧ p then Utf8.encode (latinText bytes).toList else []) =
      Utf8.encode (bytes.map latin) := by
  rw [latinText, String.toList_ofList]
  by_cases hempty : bytes = []
  · subst hempty
    exact if_neg fun h => h.1 rfl
  · exact if_pos ⟨mt latinText_eq_empty.mp hempty, hp⟩

/-- What `main` writes: the bytes that are to be written, each taken for a character. -/
theorem mainWrites_leaves (h : Leaves run stdout stderr) {logLevel : Int} (hlevel : logLevel > 0) :
    mainWrites logLevel (executeMoonRunCommand os run) =
      (Utf8.encode ((lineEnded (withoutNoise stdout)).map latin),
        Utf8.encode ((lineEnded stderr).map latin)) := by
  obtain ⟨hstdout, hstderr⟩ := @executeMoonRunCommand_leaves os run stdout stderr h
  rw [mainWrites, commandTerminalOutput, hstdout, hstderr, ensureTrailingNewline_latinText,
    ensureTrailingNewline_latinText]
  refine Prod.ext (encode_latinText hlevel _) ?_
  have hwrite := encode_latinText trivial (lineEnded stderr)
  rw [← hwrite]
  exact if_congr (and_iff_left trivial).symm rfl rfl

/-- The outputs pass through exactly if they are ASCII, apart from the lines that are
left out. -/
theorem output_passes_iff (os : OS) (h : Leaves run stdout stderr) {logLevel : Int} (hlevel : logLevel > 0) :
    PassesThrough os run logLevel stdout stderr ↔
      (∀ line ∈ keptLines stdout, ∀ byte ∈ line, byte.toNat < 0x80) ∧ ∀ byte ∈ stderr, byte.toNat < 0x80 := by
  have hnewline : newline.toNat < 0x80 := by decide
  have hwrites := @mainWrites_leaves os run stdout stderr h logLevel hlevel
  have hout : Utf8.encode ((lineEnded (withoutNoise stdout)).map latin) =
      lineEnded (withoutNoise stdout) ↔
      ∀ line ∈ keptLines stdout, ∀ byte ∈ line, byte.toNat < 0x80 := by
    rw [encode_latin_iff, @forall_mem_lineEnded _ (fun byte => byte.toNat < 0x80) hnewline,
      withoutNoise,
      @Lines.forall_mem_intercalate _ (fun byte : UInt8 => byte.toNat < 0x80) newline hnewline]
  have herr : Utf8.encode ((lineEnded stderr).map latin) = lineEnded stderr ↔
      ∀ byte ∈ stderr, byte.toNat < 0x80 := by
    rw [encode_latin_iff, @forall_mem_lineEnded _ (fun byte => byte.toNat < 0x80) hnewline]
  rw [← hout, ← herr]
  constructor
  · rintro ⟨hstdout, hstderr⟩
    rw [hwrites] at hstdout hstderr
    exact ⟨hstdout, hstderr⟩
  · rintro ⟨hstdout, hstderr⟩
    constructor
    · rw [hwrites]
      exact hstdout
    · rw [hwrites]
      exact hstderr

end Pass

/-- A child that writes `ok` and a line break. -/
def okChild : Exit := ⟨0, [0x6F, 0x6B, 0x0A], []⟩

theorem output_passes_ok : PassesThrough .posix (.exited okChild) 2 okChild.stdout okChild.stderr ↔
    (∀ line ∈ keptLines okChild.stdout, ∀ byte ∈ line, byte.toNat < 0x80) ∧
      ∀ byte ∈ okChild.stderr, byte.toNat < 0x80 :=
  output_passes_iff .posix (.exited okChild) (by decide)

/-- A child that writes `é` and a line break. -/
def accentChild : Exit := ⟨0, [0xC3, 0xA9, 0x0A], []⟩

/-- Each of its two bytes is written as a character of its own. -/
theorem output_not_passes : Utf8.Valid accentChild.stdout ∧
    mainWrites 2 (executeMoonRunCommand .posix (.exited accentChild)) = ([0xC3, 0x83, 0xC2, 0xA9, 0x0A], []) ∧
      ¬ PassesThrough .posix (.exited accentChild) 2 accentChild.stdout accentChild.stderr := by
  have hwrites : mainWrites 2 (executeMoonRunCommand .posix (.exited accentChild)) =
      ([0xC3, 0x83, 0xC2, 0xA9, 0x0A], []) := by
    rw [mainWrites_leaves (.exited accentChild) (by decide)]
    decide
  refine ⟨⟨['é', '\n'], by decide⟩, hwrites, fun h => ?_⟩
  have hstdout := h.stdout
  rw [hwrites] at hstdout
  exact absurd hstdout (by decide)

end Mulp.Entry
