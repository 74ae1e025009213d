import Mathlib.Algebra.Group.Int.Defs
import Mathlib.Algebra.Group.Nat.Defs
import Mathlib.Logic.Basic
import Mathlib.Tactic.SplitIfs
import Mulp.Stream.FileStream

/-! Times in metadata, and the files that are newer than one (`stream/memory_io.mbt`).

The parser takes decimal digits and multiplies in 64 bits, so a long text wraps around.
What is compared with the limit is what is left. -/
namespace Mulp.Stream

/-! ## `parse_int64` -/

/-- The digit that a turn of `parse_int64` matches. -/
def int64Digit : Char → Option Int
  | '0' => some 0
  | '1' => some 1
  | '2' => some 2
  | '3' => some 3
  | '4' => some 4
  | '5' => some 5
  | '6' => some 6
  | '7' => some 7
  | '8' => some 8
  | '9' => some 9
  | _ => none

/-- The loop of `parse_int64`, in 64-bit arithmetic. It slices one code unit at a
time, and aborts where this would cut a character in half. -/
def parseInt64From (result : Int) : List Char → Option (Option Int)
  | [] => some (some result)
  | c :: rest =>
      if 0xFFFF < c.toNat then none
      else
        match int64Digit c with
        | some digit => parseInt64From ((result * 10 + digit).bmod (2 ^ 64)) rest
        | none => some none

/-- `parse_int64`; there is no answer if it has aborted. -/
def parseInt64 (value : String) : Option (Option Int) :=
  if value = "" then some none else parseInt64From 0 value.toList

/-! ### What it computes -/

/-- The number that digits denote, after those of `n`. -/
def digitsFrom (n : Nat) (chars : List Char) : Nat :=
  chars.foldl (fun n c => n * 10 + (c.toNat - 48)) n

/-- The number that a text denotes: one of decimal digits, at least one. -/
def denotes (value : String) : Option Nat :=
  if value ≠ "" && value.toList.all Char.isDigit then some (digitsFrom 0 value.toList) else none

/-- The first character that is not a digit takes two code units. -/
def cutsCharacter (chars : List Char) : Bool :=
  match chars.find? fun c => !c.isDigit with
  | some c => 0xFFFF < c.toNat
  | none => false

/-- What 64 bits are left of a number, as a signed one. -/
def wrapped (n : Nat) : Int := (n : Int).bmod (2 ^ 64)

theorem isDigit_iff {c : Char} : c.isDigit = true ↔ 48 ≤ c.toNat ∧ c.toNat ≤ 57 := by
  simp only [Char.isDigit, Bool.and_eq_true, decide_eq_true_eq, ge_iff_le, UInt32.le_iff_toNat_le]
  rfl

theorem int64Digit_eq (c : Char) :
    int64Digit c = if c.isDigit then some ((c.toNat - 48 : Nat) : Int) else none := by
  split_ifs with h
  · obtain ⟨hlow, hhigh⟩ := isDigit_iff.mp h
    have hc : c = Char.ofNat c.toNat := (Char.ofNat_toNat c).symm
    generalize c.toNat = n at hc hlow hhigh
    subst hc
    have hcases : n = 48 ∨ n = 49 ∨ n = 50 ∨ n = 51 ∨ n = 52 ∨ n = 53 ∨ n = 54 ∨ n = 55 ∨ n = 56 ∨
        n = 57 := by omega
    rcases hcases with rfl | rfl | rfl | rfl | rfl | rfl | rfl | rfl | rfl | rfl <;> rfl
  · unfold int64Digit
    split <;> first | rfl | exact absurd rfl h

/-- A turn on a digit, in the integers. -/
theorem wrapped_digit (n : Nat) (c : Char) :
    (wrapped n * 10 + ((c.toNat - 48 : Nat) : Int)).bmod (2 ^ 64) =
      wrapped (n * 10 + (c.toNat - 48)) := by
  have hmul : (wrapped n * 10).bmod (2 ^ 64) = ((n : Int) * 10).bmod (2 ^ 64) := Int.bmod_mul_bmod
  rw [← Int.bmod_add_bmod, hmul, Int.bmod_add_bmod]
  rfl

/-- The loop computes in the integers and wraps the result. -/
theorem parseInt64From_eq (n : Nat) (chars : List Char) :
    parseInt64From (wrapped n) chars =
      if cutsCharacter chars then none
      else some (if chars.all Char.isDigit then some (wrapped (digitsFrom n chars)) else none) := by
  induction chars generalizing n with
  | nil => rfl
  | cons c rest ih =>
      rw [parseInt64From, int64Digit_eq]
      by_cases hdigit : c.isDigit = true
      · have hsmall : ¬ 0xFFFF < c.toNat := by
          have := isDigit_iff.mp hdigit
          omega
        have hcuts : cutsCharacter (c :: rest) = cutsCharacter rest := by
          rw [cutsCharacter, List.find?_cons_of_neg (by simpa using hdigit)]
          rfl
        simp only [if_neg hsmall, if_pos hdigit]
        rw [wrapped_digit, ih, hcuts, List.all_cons, hdigit, Bool.true_and]
        rfl
      · have hcuts : cutsCharacter (c :: rest) = decide (0xFFFF < c.toNat) := by
          rw [cutsCharacter, List.find?_cons_of_pos (by simpa using hdigit)]
        have hall : (c :: rest).all Char.isDigit = false := by
          rw [List.all_cons, Bool.eq_false_iff.mpr hdigit, Bool.false_and]
        rw [hcuts, hall, if_neg hdigit]
        simp

/-- The answer is what 64 bits are left of the number. -/
theorem parseInt64_eq (value : String) :
    parseInt64 value =
      if cutsCharacter value.toList then none else some ((denotes value).map wrapped) := by
  by_cases hempty : value = ""
  · rw [hempty]
    rfl
  · have hzero : wrapped 0 = 0 := rfl
    rw [parseInt64, if_neg hempty, denotes, ← hzero, parseInt64From_eq]
    simp only [hempty, ne_eq, not_false_eq_true, decide_true, Bool.true_and]
    split_ifs <;> rfl

/-- What an answer says about the text. -/
theorem parseInt64_cases (value : String) :
    (parseInt64 value = none ∧ cutsCharacter value.toList = true) ∨
      (parseInt64 value = some none ∧ cutsCharacter value.toList = false ∧ denotes value = none) ∨
      ∃ n m, parseInt64 value = some (some m) ∧ cutsCharacter value.toList = false ∧
        denotes value = some n ∧ m = wrapped n := by
  rw [parseInt64_eq]
  cases cutsCharacter value.toList with
  | true => exact .inl ⟨rfl, rfl⟩
  | false =>
      right
      cases denotes value with
      | none => exact .inl ⟨rfl, rfl, rfl⟩
      | some n => exact .inr ⟨n, wrapped n, rfl, rfl, rfl, rfl⟩

/-! ## `src_since` -/

def metadataValue (metadata : List (String × String)) (key : String) : Option String :=
  metadata.findSome? fun item => if item.1 = key then some item.2 else none

variable {β : Type}

def File.mtimeMs (self : File β) : Option String := metadataValue self.metadata "mtime_ms"

/-- The loop of `src_since`. -/
def selectSince (last : Int) : List (File β) → Option (List (File β))
  | [] => some []
  | file :: rest =>
      match file.mtimeMs with
      | some value =>
          match parseInt64 value with
          | none => none
          | some (some mtime) =>
              if mtime > last then (selectSince last rest).map (file :: ·) else selectSince last rest
          | some none => selectSince last rest
      | none => selectSince last rest

def srcSince (files : List (File β)) (since : Option Int) : Option (FileStream Unit (File β)) :=
  match since with
  | none => some (.fileStream files)
  | some last => (selectSince last files).map .fileStream

/-! ### What it selects -/

def IsInt64 (n : Int) : Prop := -2 ^ 63 ≤ n ∧ n < 2 ^ 63

instance (n : Int) : Decidable (IsInt64 n) := inferInstanceAs (Decidable (_ ∧ _))

/-- The modification time of a file is a number above the limit. -/
def isNewer (limit : Int) (file : File β) : Bool :=
  match file.mtimeMs.bind denotes with
  | some n => limit < n
  | none => false

/-- The text can be parsed, and if its number takes more than 64 bits then what is left of it is
above the limit. A number that large is above every limit, so this is when the comparison still
comes out right. -/
structure KeepsOrder (limit : Int) (value : String) : Prop where
  parsed : cutsCharacter value.toList = false
  above : ∀ n, denotes value = some n → 2 ^ 63 ≤ n → limit < wrapped n

theorem wrapped_of_lt {n : Nat} (h : n < 2 ^ 63) : wrapped n = n :=
  Int.bmod_eq_of_le (by omega) (by omega)

theorem lt_wrapped_iff {limit : Int} (hlimit : IsInt64 limit) (n : Nat) :
    (limit < wrapped n ↔ limit < n) ↔ (2 ^ 63 ≤ n → limit < wrapped n) := by
  obtain ⟨-, hhigh⟩ := hlimit
  by_cases hn : n < 2 ^ 63
  · rw [wrapped_of_lt hn]
    exact iff_of_true Iff.rfl fun h => absurd hn (Nat.not_lt.mpr h)
  · have habove : limit < n := by omega
    simp only [habove, iff_true, Nat.not_lt.mp hn, true_imp_iff]

variable {limit : Int}

/-- What the loop compares with the limit is above it. -/
def isLater (limit : Int) (file : File β) : Bool :=
  match file.mtimeMs.map parseInt64 with
  | some (some (some mtime)) => mtime > limit
  | _ => false

theorem selectSince_skip {file : File β} (hparsed : file.mtimeMs.map parseInt64 ≠ some none)
    (hlater : isLater limit file = false) (rest : List (File β)) :
    selectSince limit (file :: rest) = selectSince limit rest := by
  rw [isLater] at hlater
  rw [selectSince]
  cases hmtime : file.mtimeMs with
  | none => rfl
  | some value =>
      rw [hmtime, Option.map_some] at hparsed hlater
      rcases hanswer : parseInt64 value with _ | _ | mtime
      · exact absurd (congrArg some hanswer) hparsed
      · simp only [hanswer]
      · simp only [hanswer, decide_eq_false_iff_not] at hlater
        simp only [hanswer, if_neg hlater]

theorem selectSince_take {file : File β} (hlater : isLater limit file = true)
    (rest : List (File β)) :
    selectSince limit (file :: rest) = (selectSince limit rest).map (file :: ·) := by
  rw [isLater] at hlater
  rw [selectSince]
  cases hmtime : file.mtimeMs with
  | none => simp [hmtime] at hlater
  | some value =>
      rw [hmtime, Option.map_some] at hlater
      rcases hanswer : parseInt64 value with _ | _ | mtime
      · simp [hanswer] at hlater
      · simp [hanswer] at hlater
      · simp only [hanswer, decide_eq_true_eq] at hlater
        simp only [hanswer, if_pos hlater]

theorem selectSince_abort {file : File β} (h : file.mtimeMs.map parseInt64 = some none)
    (rest : List (File β)) : selectSince limit (file :: rest) = none := by
  obtain ⟨value, hvalue, hanswer⟩ := Option.map_eq_some_iff.mp h
  simp only [selectSince, hvalue, hanswer]

theorem selectSince_eq_some_iff (files selected : List (File β)) :
    selectSince limit files = some selected ↔
      (∀ file ∈ files, file.mtimeMs.map parseInt64 ≠ some none) ∧
        files.filter (isLater limit) = selected := by
  induction files generalizing selected with
  | nil => simp [selectSince]
  | cons file rest ih =>
      rw [List.forall_mem_cons]
      by_cases haborts : file.mtimeMs.map parseInt64 = some none
      · simp [selectSince_abort haborts, haborts]
      · cases hlater : isLater limit file with
        | false =>
            rw [selectSince_skip haborts hlater, ih, List.filter_cons_of_neg (by simp [hlater]),
              and_iff_right haborts]
        | true =>
            rw [selectSince_take hlater, List.filter_cons_of_pos hlater, and_iff_right haborts,
              Option.map_eq_some_iff]
            simp only [ih]
            constructor
            · rintro ⟨others, ⟨hothers, rfl⟩, rfl⟩
              exact ⟨hothers, rfl⟩
            · rintro ⟨hothers, rfl⟩
              exact ⟨_, ⟨hothers, rfl⟩, rfl⟩

theorem filter_eq_filter_iff {α : Type} {p q : α → Bool} {l : List α} :
    l.filter p = l.filter q ↔ ∀ x ∈ l, p x = q x := by
  constructor
  · intro h x hx
    rw [Bool.eq_iff_iff]
    have hmem : x ∈ l.filter p ↔ x ∈ l.filter q := by rw [h]
    simpa only [List.mem_filter, hx, true_and] using hmem
  · exact List.filter_congr

theorem keepsOrder_iff {value : String} (hlimit : IsInt64 limit) :
    KeepsOrder limit value ↔
      parseInt64 value ≠ none ∧ ∀ n, denotes value = some n → (limit < wrapped n ↔ limit < n) := by
  rw [parseInt64_eq]
  constructor
  · rintro ⟨hparsed, habove⟩
    exact ⟨by simp [hparsed], fun n hn => (lt_wrapped_iff hlimit n).mpr (habove n hn)⟩
  · rintro ⟨hparsed, habove⟩
    exact ⟨by simpa using hparsed, fun n hn => (lt_wrapped_iff hlimit n).mp (habove n hn)⟩

/-- The loop selects the newer files if it can parse their times and the numbers
that wrap around stay above the limit. -/
theorem selectSince_eq_filter_iff (hlimit : IsInt64 limit) (files : List (File β)) :
    selectSince limit files = some (files.filter (isNewer limit)) ↔
      ∀ file ∈ files, ∀ value, file.mtimeMs = some value → KeepsOrder limit value := by
  rw [selectSince_eq_some_iff, filter_eq_filter_iff, ← forall₂_and]
  refine forall₂_congr fun file _ => ?_
  rw [isLater, isNewer]
  rcases file.mtimeMs with _ | value
  · simp
  · simp only [Option.some.injEq, forall_eq', keepsOrder_iff hlimit, Option.map_some,
      Option.bind_some, ne_eq]
    refine and_congr_right fun hparsed => ?_
    rw [parseInt64_eq] at hparsed ⊢
    have hcuts : cutsCharacter value.toList = false := by simpa using hparsed
    rw [hcuts]
    rcases denotes value with _ | n
    · simp
    · simp only [Option.some.injEq, forall_eq']
      exact decide_eq_decide

theorem fileStream_inj {files files' : List (File β)}
    (h : (FileStream.fileStream files : FileStream Unit (File β)) = .fileStream files') :
    files = files' := by
  rw [FileStream.fileStream, FileStream.fileStream, FileStream.fromPull, FileStream.fromPull,
    FileStream.fromPullWithClose, FileStream.fromPullWithClose] at h
  injection h with hpull
  refine List.ext_getElem? fun i => ?_
  have hat := congrFun (congrFun hpull i) ()
  exact Except.ok.inj (Prod.mk.inj hat).1

theorem srcSince_eq_iff (files selected : List (File β)) :
    srcSince files (some limit) = some (.fileStream selected) ↔
      selectSince limit files = some selected := by
  rw [srcSince, Option.map_eq_some_iff]
  constructor
  · rintro ⟨others, hothers, hstream⟩
    rw [hothers, fileStream_inj hstream]
  · exact fun h => ⟨selected, h, rfl⟩

end Mulp.Stream
