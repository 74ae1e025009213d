import Mulp.Platform.OutputBuffer
import Mulp.Text.Substring

/-! The exit code and the outputs in one string, taken apart with slices of code units
and sums of 32 bits (`platform/process.mbt`, `platform/process_stub.c`).

A slice out of bounds and a sum that would wrap are faults. -/
namespace Mulp.Platform.Framing

open Mulp.Text

/-- The frame of `mulp_run_shell`. -/
def frame (exit : Nat) (stdout stderr : List UInt8) : List UInt8 :=
  numberLine exit ++ numberLine stdout.length ++ numberLine stderr.length ++ stdout ++ stderr

theorem mulpRunShell_eq (os : OS) (child : Exit) :
    mulpRunShell os (.exited child) = frame child.status.toNat child.stdout child.stderr := by
  rw [mulpRunShell, exitCode_exited]
  rfl

theorem length_numberLine {n k : Nat} (hk : 0 < k) (h : n < 10 ^ k) :
    (numberLine n).length ≤ k + 1 := by
  have hdigits := (Nat.length_toDigits_le_iff (by decide) hk).mpr h
  have hline : (numberLine n).length = (asciiFromBytes (numberLine n)).length := by
    rw [asciiFromBytes, List.length_map]
  rw [hline, ascii_numberLine, digitLine, List.length_append, List.length_singleton]
  omega

/-- The lines fit the 32 bytes that `snprintf` gets, with the null character after them. -/
theorem lines_fit {exit stdoutLength stderrLength : Nat} (hexit : exit < 10 ^ 8)
    (hstdout : stdoutLength < 2 ^ 31) (hstderr : stderrLength < 2 ^ 31) :
    (numberLine exit ++ numberLine stdoutLength ++ numberLine stderrLength).length < 32 := by
  have hlines := length_numberLine (by decide) hexit
  have hout := length_numberLine (n := stdoutLength) (k := 10) (by decide) (by omega)
  have herr := length_numberLine (n := stderrLength) (k := 10) (by decide) (by omega)
  rw [List.length_append, List.length_append]
  omega

/-- `ascii_from_bytes`, the code units of the string. -/
def asciiUnits (value : List UInt8) : Units := units (String.ofList (asciiFromBytes value))

/-- The code unit of a byte. -/
def byteUnit (byte : UInt8) : UInt16 := .ofNat byte.toNat

/-- `encoded[i:j]`. A negative index is a fault here, where the source counts it from the end; no
frame leads to one. -/
def slice (encoded : Units) (i j : Int) : Except Fault Units :=
  if 0 ≤ i ∧ 0 ≤ j then
    match sub encoded i.toNat j.toNat with
    | some part => .ok part
    | none => .error .outOfBounds
  else .error .outOfBounds

/-- A turn of the loop of `parse_number`. -/
def parseDigit (code : Int) (unit : UInt16) : Except Fault Int := do
  let tens ← signed (code * 10)
  let digit ← signed ((unit.toNat : Int) - 48)
  signed (tens + digit)

def parseNumber (value : Units) : Except Fault Int := value.foldlM parseDigit 0

def newline : UInt16 := 10

/-- The loop of `parse_number_line`, for `n` more indices. -/
def lineEnd (encoded : Units) (index : Int) : Nat → Except Fault Int
  | 0 => .ok encoded.length
  | n + 1 => do
      let next ← signed (index + 1)
      let part ← slice encoded index next
      if part = [newline] then .ok index else lineEnd encoded next n

def parseNumberLine (encoded : Units) (start : Int) : Except Fault (Int × Int) := do
  let splitAt ← lineEnd encoded start (encoded.length - start).toNat
  let line ← slice encoded start splitAt
  let number ← parseNumber line
  let next ← signed (splitAt + 1)
  .ok (number, next)

structure UnitsResult where
  exitCode : Int
  stdout : Units
  stderr : Units
  output : Units

def parseProcessResult (encoded : Units) : Except Fault UnitsResult := do
  let (exitCode, afterExit) ← parseNumberLine encoded 0
  let (stdoutLength, afterStdoutLength) ← parseNumberLine encoded afterExit
  let (stderrLength, afterStderrLength) ← parseNumberLine encoded afterStdoutLength
  let stdoutEnd ← signed (afterStderrLength + stdoutLength)
  let stderrEnd ← signed (stdoutEnd + stderrLength)
  let stdout ← slice encoded afterStderrLength stdoutEnd
  let stderr ← slice encoded stdoutEnd stderrEnd
  .ok { exitCode, stdout, stderr, output := stdout }

/-! ## Units -/

section Units

theorem toNat_asciiFromBytes {bytes : List UInt8} {c : Char} (h : c ∈ asciiFromBytes bytes) :
    c.toNat < 256 := by
  obtain ⟨byte, -, rfl⟩ := List.mem_map.mp h
  have hlt := byte.toNat_lt
  have hvalid : byte.toNat.isValidChar := .inl (by omega)
  have hval : (Char.ofNat byte.toNat).toNat = byte.toNat := by
    rw [Char.ofNat, dif_pos hvalid]
    rfl
  rw [hval]
  exact hlt

theorem asciiUnits_eq (bytes : List UInt8) :
    asciiUnits bytes = (asciiFromBytes bytes).map unitOf := by
  have hbmp : IsBmp (String.ofList (asciiFromBytes bytes)) := by
    intro c hc
    rw [String.toList_ofList] at hc
    have hlt := toNat_asciiFromBytes hc
    omega
  rw [asciiUnits, units_eq_map hbmp, String.toList_ofList]

/-- A byte is one code unit. -/
theorem asciiUnits_bytes (bytes : List UInt8) : asciiUnits bytes = bytes.map byteUnit := by
  rw [asciiUnits_eq, asciiFromBytes, List.map_map]
  refine List.map_congr_left fun byte _ => ?_
  have hlt := byte.toNat_lt
  have hvalid : byte.toNat.isValidChar := .inl (by omega)
  show UInt16.ofNat (Char.ofNat byte.toNat).toNat = _
  rw [Char.ofNat, dif_pos hvalid]
  rfl

theorem asciiUnits_append (first second : List UInt8) :
    asciiUnits (first ++ second) = asciiUnits first ++ asciiUnits second := by
  simp only [asciiUnits_bytes, List.map_append]

theorem plain_asciiUnits (bytes : List UInt8) : Plain (asciiUnits bytes) := by
  intro u hu
  rw [asciiUnits_bytes] at hu
  obtain ⟨byte, -, rfl⟩ := List.mem_map.mp hu
  have hlt := byte.toNat_lt
  rw [Utf16.Low, byteUnit, UInt16.toNat_ofNat']
  omega

end Units

/-! ## Slices and lines -/

section Line

variable {before line rest part : Units}

/-- A part of a string is the slice at its place. -/
theorem slice_part {encoded : Units} (h : Plain encoded)
    (hencoded : encoded = before ++ (part ++ rest)) :
    slice encoded before.length (before.length + part.length) = .ok part := by
  have hsub : sub encoded before.length (before.length + part.length) = some part := by
    rw [h.sub (by omega) (by rw [hencoded]; simp), hencoded, ← List.append_assoc,
      ← List.length_append, List.take_left, List.drop_left]
  rw [slice, if_pos ⟨by omega, by omega⟩]
  have hend : ((before.length : Int) + part.length).toNat = before.length + part.length := by omega
  rw [Int.toNat_natCast, hend, hsub]

/-- A turn of the loop looks at the unit it stands at. -/
theorem lineEnd_turn {encoded : Units} (h : Plain encoded) (hlength : encoded.length < 2 ^ 31)
    {u : UInt16} (hencoded : encoded = before ++ (u :: rest)) (n : Nat) :
    lineEnd encoded before.length (n + 1) =
      if [u] = [newline] then .ok (before.length : Int)
      else lineEnd encoded (before.length + 1) n := by
  have hpart := @slice_part before rest [u] encoded h hencoded
  have hnext : signed ((before.length : Int) + 1) = .ok (before.length + 1) := by
    rw [hencoded] at hlength
    simp only [List.length_append, List.length_cons] at hlength
    exact signed_ok (by omega) (by omega)
  rw [lineEnd, bind_ok hnext]
  exact bind_ok hpart _

theorem lineEnd_spec {encoded : Units} (h : Plain encoded) (hlength : encoded.length < 2 ^ 31)
    (hline : newline ∉ line) (hencoded : encoded = before ++ (line ++ newline :: rest)) {n : Nat}
    (hn : line.length < n) :
    lineEnd encoded before.length n = .ok (before.length + line.length) := by
  induction line generalizing before n with
  | nil =>
      obtain ⟨n, rfl⟩ : ∃ m, n = m + 1 := ⟨n - 1, by omega⟩
      rw [lineEnd_turn h hlength hencoded, if_pos rfl]
      rfl
  | cons u line ih =>
      obtain ⟨n, rfl⟩ : ∃ m, n = m + 1 := ⟨n - 1, by omega⟩
      have hu : [u] ≠ [newline] := by
        intro heq
        rw [List.cons.inj heq |>.1] at hline
        exact hline List.mem_cons_self
      rw [lineEnd_turn h hlength hencoded, if_neg hu]
      have hrest := @ih (before ++ [u]) (fun hmem => hline (List.mem_cons_of_mem u hmem))
        (by rw [hencoded]; simp) n (by simpa using hn)
      simp only [List.length_append, List.length_singleton, Nat.cast_add, Nat.cast_one] at hrest
      have hsum : (before.length : Int) + 1 + line.length = before.length + (u :: line).length := by
        rw [List.length_cons]
        omega
      exact hrest.trans (congrArg Except.ok hsum)

theorem le_ofDigitChars (digits : List Char) (init : Nat) :
    init ≤ Nat.ofDigitChars 10 digits init := by
  induction digits generalizing init with
  | nil => exact Nat.le_refl init
  | cons c digits ih =>
      rw [Nat.ofDigitChars_cons]
      exact Nat.le_trans (by omega) (ih (10 * init + (c.toNat - '0'.toNat)))

/-- A number's digits, read without leaving 32 bits. -/
theorem foldlM_parseDigit {digits : List Char} (h : ∀ c ∈ digits, 48 ≤ c.toNat ∧ c.toNat ≤ 57)
    {init : Nat} (hlt : Nat.ofDigitChars 10 digits init < 2 ^ 31) :
    (digits.map unitOf).foldlM parseDigit init = .ok (Nat.ofDigitChars 10 digits init : Nat) := by
  induction digits generalizing init with
  | nil => rfl
  | cons c digits ih =>
      obtain ⟨hc, hdigits⟩ := List.forall_mem_cons.mp h
      rw [Nat.ofDigitChars_cons] at hlt ⊢
      have hle := le_ofDigitChars digits (10 * init + (c.toNat - '0'.toNat))
      have hzero : '0'.toNat = 48 := rfl
      rw [hzero] at hle hlt ⊢
      have hunit : (unitOf c).toNat = c.toNat := toNat_unitOf (by omega)
      have htens : signed ((init : Int) * 10) = .ok (init * 10) := signed_ok (by omega) (by omega)
      have hdigit : signed (((unitOf c).toNat : Int) - 48) = .ok ((unitOf c).toNat - 48) :=
        signed_ok (by omega) (by omega)
      have hsum : signed ((init : Int) * 10 + ((unitOf c).toNat - 48)) =
          .ok ((10 * init + (c.toNat - 48) : Nat) : Int) := by
        have heq : (init : Int) * 10 + ((unitOf c).toNat - 48) =
            ((10 * init + (c.toNat - 48) : Nat) : Int) := by
          omega
        rw [heq]
        exact signed_ok (by omega) (by omega)
      have hstep : parseDigit init (unitOf c) = .ok ((10 * init + (c.toNat - 48) : Nat) : Int) :=
        (bind_ok htens _).trans ((bind_ok hdigit _).trans hsum)
      rw [List.map_cons, List.foldlM_cons, bind_ok hstep]
      exact ih hdigits hlt

/-- The units of a line with a number. -/
def digitUnits (n : Nat) : Units := (Nat.toDigits 10 n).map unitOf

theorem asciiUnits_numberLine (n : Nat) :
    asciiUnits (numberLine n) = digitUnits n ++ [newline] := by
  rw [asciiUnits_eq, ascii_numberLine, digitLine, List.map_append]
  rfl

theorem parseNumber_digitUnits {n : Nat} (h : n < 2 ^ 31) : parseNumber (digitUnits n) = .ok n := by
  have hfold := @foldlM_parseDigit (Nat.toDigits 10 n) (fun c => digit_bounds) 0
    (by rw [Nat.ofDigitChars_ten_toDigits]; exact h)
  rw [Nat.ofDigitChars_ten_toDigits] at hfold
  exact hfold

theorem newline_not_mem_digitUnits (n : Nat) : newline ∉ digitUnits n := by
  intro h
  obtain ⟨c, hc, heq⟩ := List.mem_map.mp h
  obtain ⟨hlow, hhigh⟩ := digit_bounds hc
  have hunit : (unitOf c).toNat = c.toNat := toNat_unitOf (by omega)
  rw [heq] at hunit
  have hten : newline.toNat = 10 := rfl
  omega

/-- A line is read up to its end, wherever it stands. -/
theorem parseNumberLine_spec {encoded : Units} (h : Plain encoded)
    (hlength : encoded.length < 2 ^ 31) {n : Nat} (hn : n < 2 ^ 31)
    (hencoded : encoded = before ++ (digitUnits n ++ newline :: rest)) :
    parseNumberLine encoded before.length =
      .ok ((n : Int), ((before ++ digitUnits n ++ [newline]).length : Int)) := by
  have htotal : encoded.length = before.length + ((digitUnits n).length + (rest.length + 1)) := by
    rw [hencoded, List.length_append, List.length_append, List.length_cons]
  have hend := lineEnd_spec h hlength (newline_not_mem_digitUnits n) hencoded
    (n := ((encoded.length : Int) - before.length).toNat) (by omega)
  have hline := slice_part h hencoded
  have hnext : signed ((before.length : Int) + (digitUnits n).length + 1) =
      .ok (before.length + (digitUnits n).length + 1) := signed_ok (by omega) (by omega)
  have hafter : (before.length : Int) + (digitUnits n).length + 1 =
      ((before ++ digitUnits n ++ [newline]).length : Nat) := by
    rw [List.length_append, List.length_append, List.length_singleton]
    omega
  have hresult : parseNumberLine encoded before.length =
      .ok ((n : Int), (before.length : Int) + (digitUnits n).length + 1) := by
    rw [parseNumberLine, bind_ok hend, hline]
    show (parseNumber (digitUnits n) >>= _) = _
    rw [bind_ok (parseNumber_digitUnits hn), bind_ok hnext]
  rw [hresult, hafter]

end Line

/-! ## The frame -/

section Frame

variable {exit : Nat} {stdout stderr : List UInt8}

/-- The lines of a frame, by their units. -/
def headerUnits (exit stdoutLength stderrLength : Nat) : Units :=
  digitUnits exit ++ [newline] ++ digitUnits stdoutLength ++ [newline] ++
    digitUnits stderrLength ++ [newline]

theorem asciiUnits_frame (exit : Nat) (stdout stderr : List UInt8) :
    asciiUnits (frame exit stdout stderr) =
      headerUnits exit stdout.length stderr.length ++ (asciiUnits stdout ++ asciiUnits stderr) := by
  simp only [frame, asciiUnits_append, asciiUnits_numberLine, headerUnits, List.append_assoc]

/-- The three lines, each where the one before it ends. -/
theorem parseNumberLine_header {encoded rest : Units} (h : Plain encoded)
    (hlength : encoded.length < 2 ^ 31) {stdoutLength stderrLength : Nat} (hexit : exit < 2 ^ 31)
    (hout : stdoutLength < 2 ^ 31) (herr : stderrLength < 2 ^ 31)
    (hencoded : encoded = headerUnits exit stdoutLength stderrLength ++ rest) :
    ∃ afterExit afterStdoutLength : Int,
      parseNumberLine encoded 0 = .ok ((exit : Int), afterExit) ∧
      parseNumberLine encoded afterExit = .ok ((stdoutLength : Int), afterStdoutLength) ∧
      parseNumberLine encoded afterStdoutLength =
        .ok ((stderrLength : Int),
          ((headerUnits exit stdoutLength stderrLength).length : Int)) := by
  have hfirst := @parseNumberLine_spec [] _ encoded h hlength exit hexit
    (hencoded.trans (by
      simp only [headerUnits, List.append_assoc, List.nil_append, List.singleton_append]
      rfl))
  have hsecond := @parseNumberLine_spec
    (digitUnits exit ++ [newline]) _ encoded h hlength stdoutLength hout
    (hencoded.trans (by
      simp only [headerUnits, List.append_assoc, List.singleton_append]
      rfl))
  have hthird := @parseNumberLine_spec
    (digitUnits exit ++ [newline] ++ digitUnits stdoutLength ++ [newline]) _ encoded h hlength
      stderrLength herr
    (hencoded.trans (by
      simp only [headerUnits, List.append_assoc, List.singleton_append]
      rfl))
  rw [List.nil_append, List.length_nil, Nat.cast_zero] at hfirst
  exact ⟨_, _, hfirst, hsecond, hthird⟩

/-- The outputs stand one after the other behind the lines. -/
theorem slice_outputs {encoded header out err : Units} (h : Plain encoded)
    (hencoded : encoded = header ++ (out ++ err)) :
    slice encoded header.length (header.length + out.length) = .ok out ∧
      slice encoded (header.length + out.length) (header.length + out.length + err.length) =
        .ok err := by
  have hstdout := slice_part h hencoded
  have hstderr := @slice_part (header ++ out) [] err encoded h
    (by rw [hencoded, List.append_nil, List.append_assoc])
  rw [List.length_append, Nat.cast_add] at hstderr
  exact ⟨hstdout, hstderr⟩

/-- The three lines say where the outputs are, and nothing wraps on the way to them. -/
theorem parseProcessResult_header (exit : Nat) (stdout stderr : List UInt8) (hexit : exit < 2 ^ 31)
    (hframe : (frame exit stdout stderr).length < 2 ^ 31) :
    parseProcessResult (asciiUnits (frame exit stdout stderr)) =
      .ok ⟨exit, asciiUnits stdout, asciiUnits stderr, asciiUnits stdout⟩ := by
  have hplain := plain_asciiUnits (frame exit stdout stderr)
  have hlength : (asciiUnits (frame exit stdout stderr)).length < 2 ^ 31 := by
    rw [asciiUnits_bytes, List.length_map]
    exact hframe
  have hencoded := asciiUnits_frame exit stdout stderr
  have hout : (asciiUnits stdout).length = stdout.length := by
    rw [asciiUnits_bytes, List.length_map]
  have herr : (asciiUnits stderr).length = stderr.length := by
    rw [asciiUnits_bytes, List.length_map]
  have htotal : (asciiUnits (frame exit stdout stderr)).length =
      (headerUnits exit stdout.length stderr.length).length + (stdout.length + stderr.length) := by
    rw [hencoded, List.length_append, List.length_append, hout, herr]
  obtain ⟨afterExit, afterStdoutLength, hfirst, hsecond, hthird⟩ :=
    parseNumberLine_header hplain hlength hexit (by omega) (by omega) hencoded
  obtain ⟨hstdout, hstderr⟩ := slice_outputs hplain hencoded
  rw [hout, herr] at hstderr
  rw [hout] at hstdout
  have hstdoutEnd :
      signed (((headerUnits exit stdout.length stderr.length).length : Int) + stdout.length) =
        .ok ((headerUnits exit stdout.length stderr.length).length + stdout.length) :=
    signed_ok (by omega) (by omega)
  have hstderrEnd :
      signed (((headerUnits exit stdout.length stderr.length).length : Int) + stdout.length +
          stderr.length) =
        .ok ((headerUnits exit stdout.length stderr.length).length + stdout.length +
          stderr.length) :=
    signed_ok (by omega) (by omega)
  rw [parseProcessResult, bind_ok hfirst]
  dsimp only
  rw [bind_ok hsecond]
  dsimp only
  rw [bind_ok hthird]
  dsimp only
  rw [bind_ok hstdoutEnd, bind_ok hstderrEnd, bind_ok hstdout, bind_ok hstderr]

/-- Up to the limit of 32 bits, the parser over numbers without bound gives the same result. -/
theorem parseProcessResult_agrees (exit : Nat) (stdout stderr : List UInt8) (hexit : exit < 2 ^ 31)
    (hframe : (frame exit stdout stderr).length < 2 ^ 31) :
    let result := Platform.parseProcessResult (asciiFromBytes (frame exit stdout stderr))
    parseProcessResult (asciiUnits (frame exit stdout stderr)) = .ok ⟨result.exitCode,
      result.stdout.map unitOf, result.stderr.map unitOf, result.output.map unitOf⟩ := by
  intro result
  have hresult : result = ⟨exit, asciiFromBytes stdout, asciiFromBytes stderr, asciiFromBytes stdout⟩ :=
    parseProcessResult_encode exit stdout stderr
  rw [parseProcessResult_header exit stdout stderr hexit hframe, hresult]
  simp only [asciiUnits_eq]

theorem parseProcessResult_frame (exit : Nat) (stdout stderr : List UInt8) (hexit : exit < 2 ^ 31)
    (hframe : (frame exit stdout stderr).length < 2 ^ 31) :
    parseProcessResult (asciiUnits (frame exit stdout stderr)) =
      .ok ⟨exit, stdout.map byteUnit, stderr.map byteUnit, stdout.map byteUnit⟩ := by
  rw [parseProcessResult_header exit stdout stderr hexit hframe, asciiUnits_bytes, asciiUnits_bytes]

/-- Outputs that look like lines of the frame. -/
theorem parseProcessResult_lines :
    parseProcessResult (asciiUnits (frame 3 [49, 10, 50, 10] [10, 57])) =
      .ok ⟨3, [49, 10, 50, 10], [10, 57], [49, 10, 50, 10]⟩ :=
  parseProcessResult_frame 3 [49, 10, 50, 10] [10, 57] (by decide) (by decide)

end Frame

end Mulp.Platform.Framing
