import Mathlib.Data.List.TakeWhile
import Mulp.Core.Error

/-! Running a command through the shell (`platform/process.mbt`,
`platform/process_stub.c`).

The C function writes the exit code and the two outputs into one byte string,
which the other side takes apart again. Strings are lists of characters here, one
for each byte, and numbers have no bound. The source has 32 bits: `OutputBuffer` is
about what the C function can hold, an output of at most `2^30` bytes, and `Framing`
reads the same results as here from every frame that is not too long for 32 bits. -/
namespace Mulp.Platform

open Mulp.Core

/-- The two branches of the C preprocessor: on Windows `system` returns the exit code itself,
elsewhere a wait status. -/
inductive OS where
  | windows
  | posix

/-- What a process leaves behind that has ended by itself. -/
structure Exit where
  status : UInt8
  stdout : List UInt8
  stderr : List UInt8

/-- What comes of the shell: it is not called for want of a temporary file or of
memory, it cannot be started, or the command ends by itself or by a signal. -/
inductive ShellRun where
  | unavailable
  | failed
  | exited (child : Exit)
  | signalled (signal : Fin 126) (stdout stderr : List UInt8)

/-- The value of `system`. -/
def ShellRun.waitStatus (os : OS) : ShellRun → Int
  | .unavailable => -1
  | .failed => -1
  | .exited child =>
      match os with
      | .windows => child.status.toNat
      | .posix => child.status.toNat * 256
  | .signalled signal _ _ => signal.val + 1

def mulpExitCode (os : OS) (status : Int) : Int :=
  match os with
  | .windows => status
  | .posix =>
      if status = -1 then 127
      -- `WIFEXITED` and `WEXITSTATUS`
      else if status % 128 = 0 then status / 256 % 256
      else 128

def ShellRun.exitCode (os : OS) : ShellRun → Int
  | .unavailable => 127
  | run => mulpExitCode os (run.waitStatus os)

def ShellRun.outputs : ShellRun → List UInt8 × List UInt8
  | .unavailable => ([], [])
  | .failed => ([], [])
  | .exited child => (child.stdout, child.stderr)
  | .signalled _ stdout stderr => (stdout, stderr)

/-- A line of `snprintf("%d\n")`. -/
def numberLine (value : Int) : List UInt8 :=
  (toString value ++ "\n").toList.map fun c => c.toNat.toUInt8

/-- `mulp_run_shell`, from what came of the shell. -/
def mulpRunShell (os : OS) (run : ShellRun) : List UInt8 :=
  let (stdout, stderr) := run.outputs
  numberLine (run.exitCode os) ++ numberLine stdout.length ++ numberLine stderr.length ++
    stdout ++ stderr

structure ProcessResult where
  exitCode : Int
  stdout : List Char
  stderr : List Char
  output : List Char

def asciiFromBytes (value : List UInt8) : List Char := value.map fun byte => Char.ofNat byte.toNat

def parseNumber (value : List Char) : Int :=
  value.foldl (fun code c => code * 10 + ((c.toNat : Int) - '0'.toNat)) 0

/-- `parse_number_line`: the number from `start` to the next line break, and where
the next line starts. -/
def parseNumberLine (encoded : List Char) (start : Nat) : Int × Nat :=
  let line := (encoded.drop start).takeWhile (· ≠ '\n')
  (parseNumber line, start + line.length + 1)

def parseProcessResult (encoded : List Char) : ProcessResult :=
  let (exitCode, afterExit) := parseNumberLine encoded 0
  let (stdoutLength, afterStdoutLength) := parseNumberLine encoded afterExit
  let (stderrLength, afterStderrLength) := parseNumberLine encoded afterStdoutLength
  let stdout := (encoded.drop afterStderrLength).take stdoutLength.toNat
  let stderr := (encoded.drop (afterStderrLength + stdoutLength.toNat)).take stderrLength.toNat
  { exitCode, stdout, stderr, output := stdout }

/-- `run_process`, which never fails. -/
def runProcess (os : OS) (run : ShellRun) : Except MulpError ProcessResult :=
  .ok (parseProcessResult (asciiFromBytes (mulpRunShell os run)))

/-! ## The round trip -/

theorem asciiFromBytes_append (xs ys : List UInt8) :
    asciiFromBytes (xs ++ ys) = asciiFromBytes xs ++ asciiFromBytes ys := List.map_append

theorem char_of_byte {c : Char} (h : c.toNat < 256) : Char.ofNat c.toNat.toUInt8.toNat = c := by
  have hbyte : c.toNat.toUInt8.toNat = c.toNat := Nat.mod_eq_of_lt h
  rw [hbyte, Char.ofNat_toNat]

theorem digit_bounds {n : Nat} {c : Char} (h : c ∈ Nat.toDigits 10 n) :
    48 ≤ c.toNat ∧ c.toNat ≤ 57 := by
  have hdigit := Nat.isDigit_of_mem_toDigits (by decide) (by decide) h
  rw [Char.isDigit_iff_toNat] at hdigit
  exact hdigit

/-- A line with the number `n`. -/
def digitLine (n : Nat) : List Char := Nat.toDigits 10 n ++ ['\n']

/-- The digits of a number and the line break survive the two conversions. -/
theorem ascii_numberLine (n : Nat) : asciiFromBytes (numberLine n) = digitLine n := by
  have hline : (toString (n : Int) ++ "\n").toList = digitLine n := by
    show (n.repr ++ "\n").toList = _
    rw [String.toList_append, Nat.toList_repr]
    rfl
  have hbyte : ∀ c ∈ digitLine n, Char.ofNat c.toNat.toUInt8.toNat = c := by
    intro c hc
    rcases List.mem_append.mp hc with hc | hc
    · have hbounds := digit_bounds hc
      exact char_of_byte (by omega)
    · rw [List.mem_singleton.mp hc]
      rfl
  rw [numberLine, hline, asciiFromBytes, List.map_map]
  exact (List.map_congr_left hbyte).trans (List.map_id _)

theorem parseNumber_fold (digits : List Char) (h : ∀ c ∈ digits, 48 ≤ c.toNat) (init : Nat) :
    digits.foldl (fun (code : Int) c => code * 10 + ((c.toNat : Int) - '0'.toNat)) init =
      (Nat.ofDigitChars 10 digits init : Nat) := by
  induction digits generalizing init with
  | nil => rfl
  | cons c digits ih =>
      have hc := h c (by simp)
      have hstep : (init : Int) * 10 + ((c.toNat : Int) - '0'.toNat) =
          ((10 * init + (c.toNat - '0'.toNat) : Nat) : Int) := by
        show (init : Int) * 10 + ((c.toNat : Int) - (48 : Nat)) =
          ((10 * init + (c.toNat - 48) : Nat) : Int)
        omega
      rw [List.foldl_cons, Nat.ofDigitChars_cons, hstep]
      exact ih (fun d hd => h d (by simp [hd])) _

theorem parseNumber_toDigits (n : Nat) : parseNumber (Nat.toDigits 10 n) = n := by
  have hfold := parseNumber_fold (Nat.toDigits 10 n) (fun c hc => (digit_bounds hc).1) 0
  rw [Nat.ofDigitChars_ten_toDigits] at hfold
  exact hfold

/-- A line is parsed up to its end, wherever it stands. -/
theorem parseNumberLine_spec (before rest : List Char) (n : Nat) :
    parseNumberLine (before ++ (digitLine n ++ rest)) before.length =
      ((n : Int), (before ++ digitLine n).length) := by
  have hline : (digitLine n ++ rest).takeWhile (· ≠ '\n') = Nat.toDigits 10 n := by
    rw [digitLine, List.append_assoc, List.takeWhile_append_of_pos, List.singleton_append,
      List.takeWhile_cons_of_neg (by simp), List.append_nil]
    intro c hc
    have hbounds := digit_bounds hc
    have hne : c ≠ '\n' := by
      intro heq
      rw [heq] at hbounds
      revert hbounds
      decide
    simpa using hne
  simp only [parseNumberLine, List.drop_left, hline, parseNumber_toDigits]
  simp [digitLine, Nat.add_assoc]

/-- What the shell's function writes is read back. -/
theorem parseProcessResult_encode (code : Nat) (stdout stderr : List UInt8) :
    parseProcessResult (asciiFromBytes (numberLine code ++ numberLine stdout.length ++
        numberLine stderr.length ++ stdout ++ stderr)) =
      ⟨code, asciiFromBytes stdout, asciiFromBytes stderr, asciiFromBytes stdout⟩ := by
  generalize hout : asciiFromBytes stdout = out
  generalize herr : asciiFromBytes stderr = err
  have houtLength : out.length = stdout.length := by rw [← hout, asciiFromBytes, List.length_map]
  have herrLength : err.length = stderr.length := by rw [← herr, asciiFromBytes, List.length_map]
  have hencoded : asciiFromBytes (numberLine code ++ numberLine stdout.length ++
      numberLine stderr.length ++ stdout ++ stderr) =
      digitLine code ++ (digitLine out.length ++ (digitLine err.length ++ (out ++ err))) := by
    simp only [asciiFromBytes_append, ascii_numberLine, List.append_assoc, hout, herr, houtLength,
      herrLength]
  -- the three lines, each where the one before it ends
  have hexit := parseNumberLine_spec []
    (digitLine out.length ++ (digitLine err.length ++ (out ++ err)))
    code
  have hstdout := parseNumberLine_spec (digitLine code) (digitLine err.length ++ (out ++ err))
    out.length
  have hstderr := parseNumberLine_spec (digitLine code ++ digitLine out.length)
    (out ++ err) err.length
  rw [List.nil_append, List.nil_append, List.length_nil] at hexit
  rw [List.append_assoc] at hstderr
  have hafter : digitLine code ++ (digitLine out.length ++ (digitLine err.length ++ (out ++ err))) =
      (digitLine code ++ digitLine out.length ++ digitLine err.length) ++ (out ++ err) := by
    simp only [List.append_assoc]
  have hlast (header : List Char) :
      (header ++ (out ++ err)).drop (header.length + out.length) = err := by
    rw [← List.append_assoc, ← List.length_append, List.drop_left]
  rw [hencoded, parseProcessResult]
  simp only [hexit, hstdout, hstderr, Int.toNat_natCast]
  rw [hafter, hlast, List.drop_left, List.take_left, List.take_length]

/-- The exit status of a command that ended by itself comes through. -/
theorem exitCode_exited (os : OS) (child : Exit) :
    (ShellRun.exited child).exitCode os = child.status.toNat := by
  have hlt := child.status.toNat_lt
  cases os with
  | windows => rfl
  | posix =>
      show mulpExitCode .posix (child.status.toNat * 256) = child.status.toNat
      rw [mulpExitCode, if_neg (by omega), if_pos (by omega)]
      omega

theorem runProcess_exited (os : OS) (child : Exit) :
    runProcess os (.exited child) = .ok ⟨child.status.toNat, asciiFromBytes child.stdout,
      asciiFromBytes child.stderr, asciiFromBytes child.stdout⟩ := by
  rw [runProcess, mulpRunShell, exitCode_exited]
  exact congrArg Except.ok (parseProcessResult_encode _ _ _)

end Mulp.Platform
