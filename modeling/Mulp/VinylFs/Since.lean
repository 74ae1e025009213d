import Mathlib.Tactic.ByContra
import Mathlib.Tactic.SplitIfs
import Mulp.Stream.Since

/-! The files that have changed after a time (`vinyl_fs/src.mbt`).

A file has two times, of its contents and of its entry, of which the later one counts.
Both are texts in its metadata and are parsed with 64 bits. -/
namespace Mulp.VinylFs

open Mulp.Stream

/-- `changed` in `modified_after`: the modification time, or the change time if it
is later. -/
def changedTime (metadata : List (String × String)) (mtime : Int) : Option Int :=
  match metadataValue metadata "ctime_ms" with
  | some ctimeValue =>
      match parseInt64 ctimeValue with
      | none => none
      | some (some ctime) => some (if ctime > mtime then ctime else mtime)
      | some none => some mtime
  | none => some mtime

/-- `modified_after`; its `metadata_value` and `parse_int64` have the texts of those
of `Mulp.Stream`. -/
def modifiedAfter (metadata : List (String × String)) (since : Option Int) : Option Bool :=
  match since with
  | none => some true
  | some limit =>
      match metadataValue metadata "mtime_ms" with
      | some value =>
          match parseInt64 value with
          | none => none
          | some (some mtime) => (changedTime metadata mtime).map fun changed => changed > limit
          | some none => some false
      | none => some false

/-! ## What it accepts -/

/-- The times that the metadata denote: that of the modification, and with it that
of the change. -/
def times (metadata : List (String × String)) : List Nat :=
  match (metadataValue metadata "mtime_ms").bind denotes with
  | some m => m :: ((metadataValue metadata "ctime_ms").bind denotes).toList
  | none => []

/-- The metadata have a modification time, and the later of the times is above the
limit. -/
def isModified (limit : Int) (metadata : List (String × String)) : Bool :=
  match (times metadata).max? with
  | some latest => limit < latest
  | none => false

/-- The texts can be parsed, and if a number takes more than 64 bits then what is left of some
number is above the limit. The times are joined by an or, so it is enough that one of them still
comes out right. -/
structure KeepsTimes (limit : Int) (metadata : List (String × String)) : Prop where
  mtime : ∀ value, metadataValue metadata "mtime_ms" = some value → cutsCharacter value.toList = false
  ctime : times metadata ≠ [] → ∀ value, metadataValue metadata "ctime_ms" = some value →
    cutsCharacter value.toList = false
  above : (∃ n ∈ times metadata, 2 ^ 63 ≤ n) → ∃ n ∈ times metadata, limit < wrapped n

section Accepts

variable {limit : Int} {metadata : List (String × String)}

theorem isModified_iff : isModified limit metadata = true ↔ ∃ n ∈ times metadata, limit < n := by
  rw [isModified]
  cases hmax : (times metadata).max? with
  | none => simp [List.max?_eq_none_iff.mp hmax]
  | some latest =>
      obtain ⟨hmem, hle⟩ := List.max?_eq_some_iff.mp hmax
      rw [decide_eq_true_eq]
      constructor
      · exact fun h => ⟨latest, hmem, h⟩
      · rintro ⟨n, hn, habove⟩
        have := hle n hn
        omega

/-- The later time is above the limit if one of the two is. -/
theorem changedTime_eq_some_iff (mtime : Int) (accepted : Bool) :
    ((changedTime metadata mtime).map fun changed => decide (changed > limit)) = some accepted ↔
      (∀ value, metadataValue metadata "ctime_ms" = some value →
        cutsCharacter value.toList = false) ∧
      (accepted = true ↔ limit < mtime ∨
        ∃ n ∈ (metadataValue metadata "ctime_ms").bind denotes, limit < wrapped n) := by
  have hdecide (p : Prop) [Decidable p] : some (decide p) = some accepted ↔
      (accepted = true ↔ p) := by
    cases accepted <;> simp
  rw [changedTime]
  cases metadataValue metadata "ctime_ms" with
  | none => simpa using hdecide (limit < mtime)
  | some value =>
      simp only [Option.some.injEq, forall_eq', Option.bind_some]
      rcases parseInt64_cases value with ⟨hanswer, hcuts⟩ | ⟨hanswer, hcuts, hnone⟩ |
        ⟨n, ctime, hanswer, hcuts, hn, hctime⟩
      · simp [hanswer, hcuts]
      · simpa [hanswer, hcuts, hnone] using hdecide (limit < mtime)
      · have hlater : ((if ctime > mtime then ctime else mtime) > limit) ↔ limit < mtime ∨ limit < ctime := by
          split_ifs <;> omega
        rw [hanswer, hcuts, hn]
        simp only [Option.mem_some_iff, exists_eq_left', ← hctime, ← hlater, Option.map_some,
          true_and]
        exact hdecide _

/-- `modified_after` compares what 64 bits are left of the times. -/
theorem modifiedAfter_eq_some_iff (accepted : Bool) :
    modifiedAfter metadata (some limit) = some accepted ↔
      (∀ value, metadataValue metadata "mtime_ms" = some value →
        cutsCharacter value.toList = false) ∧
      (times metadata ≠ [] → ∀ value, metadataValue metadata "ctime_ms" = some value →
        cutsCharacter value.toList = false) ∧
      (accepted = true ↔ ∃ n ∈ times metadata, limit < wrapped n) := by
  have hnever (h : times metadata = []) :
      (accepted = true ↔ ∃ n ∈ times metadata, limit < wrapped n) ↔
      some false = some accepted := by
    cases accepted <;> simp [h]
  rw [modifiedAfter]
  cases hmtime : metadataValue metadata "mtime_ms" with
  | none =>
      have htimes : times metadata = [] := by rw [times, hmtime]; rfl
      rw [hnever htimes]
      simp [htimes]
  | some value =>
      simp only [Option.some.injEq, forall_eq']
      rcases parseInt64_cases value with ⟨hanswer, hcuts⟩ | ⟨hanswer, hcuts, hnone⟩ |
        ⟨m, mtime, hanswer, hcuts, hm, hwrapped⟩
      · simp [hanswer, hcuts]
      · have htimes : times metadata = [] := by rw [times, hmtime, Option.bind_some, hnone]
        rw [hnever htimes, hanswer, hcuts]
        simp [htimes]
      · have htimes : times metadata =
          m :: ((metadataValue metadata "ctime_ms").bind denotes).toList := by
          rw [times, hmtime, Option.bind_some, hm]
        rw [hanswer, hcuts, htimes]
        simp only [changedTime_eq_some_iff, hwrapped, List.mem_cons, Option.mem_toList,
          Option.mem_def, exists_eq_or_imp, true_and, ne_eq, reduceCtorEq, not_false_eq_true,
          true_imp_iff]

/-- `modified_after` accepts what is modified after the limit, if it can parse the
times and a number that wraps around leaves something above the limit. -/
theorem modifiedAfter_eq_isModified_iff (hlimit : IsInt64 limit)
    (metadata : List (String × String)) :
    modifiedAfter metadata (some limit) = some (isModified limit metadata) ↔
      KeepsTimes limit metadata := by
  have habove : (isModified limit metadata = true ↔ ∃ n ∈ times metadata, limit < wrapped n) ↔
      ((∃ n ∈ times metadata, 2 ^ 63 ≤ n) → ∃ n ∈ times metadata, limit < wrapped n) := by
    rw [isModified_iff]
    by_cases hsmall : ∀ n ∈ times metadata, n < 2 ^ 63
    · refine iff_of_true (exists_congr fun n => and_congr_right fun hn => ?_) ?_
      · rw [wrapped_of_lt (hsmall n hn)]
      · rintro ⟨n, hn, hlarge⟩
        exact absurd (hsmall n hn) (Nat.not_lt.mpr hlarge)
    · have hlarge : ∃ n ∈ times metadata, 2 ^ 63 ≤ n := by
        by_contra hnone
        exact hsmall fun n hn => Nat.lt_of_not_le fun hle => hnone ⟨n, hn, hle⟩
      have hexists : ∃ n ∈ times metadata, limit < n := by
        obtain ⟨n, hn, hlarge⟩ := hlarge
        obtain ⟨-, hhigh⟩ := hlimit
        exact ⟨n, hn, by omega⟩
      rw [iff_true_left hexists, forall_prop_of_true hlarge]
  rw [modifiedAfter_eq_some_iff, habove]
  exact ⟨fun ⟨hmtime, hctime, habove⟩ => ⟨hmtime, hctime, habove⟩,
    fun ⟨hmtime, hctime, habove⟩ => ⟨hmtime, hctime, habove⟩⟩

/-- Both selections are by the numbers that the times denote, exactly when no text
is cut and the numbers that wrap around stay above the limit. -/
theorem since_iff {β : Type} (hlimit : IsInt64 limit) :
    (∀ files : List (File β), srcSince files (some limit) = some (.fileStream (files.filter (isNewer limit))) ↔
      ∀ file ∈ files, ∀ value, file.mtimeMs = some value → KeepsOrder limit value) ∧
    ∀ metadata, modifiedAfter metadata (some limit) = some (isModified limit metadata) ↔
      KeepsTimes limit metadata :=
  ⟨fun files => (srcSince_eq_iff files _).trans (selectSince_eq_filter_iff hlimit files),
    modifiedAfter_eq_isModified_iff hlimit⟩

/-- A file modified at this time. -/
def modifiedAt (mtime : String) : File Nat := ⟨"/", "/", "/a", .empty, [("mtime_ms", mtime)], none⟩

/-- Files of both sides of the limit and one whose time is no number; and metadata of which only the
second time is later. -/
theorem since_mixed :
    srcSince [modifiedAt "5", modifiedAt "3", modifiedAt "x", modifiedAt "12"] (some 4) =
        some (.fileStream [modifiedAt "5", modifiedAt "12"]) ∧
      modifiedAfter [("mtime_ms", "3"), ("ctime_ms", "9")] (some 4) = some true := by
  have hkeeps {value : String} (hcuts : cutsCharacter value.toList = false)
      (hsmall : (denotes value).getD 0 < 2 ^ 63) : KeepsOrder 4 value := by
    refine ⟨hcuts, fun n hn hlarge => ?_⟩
    rw [hn] at hsmall
    exact absurd hsmall (Nat.not_lt.mpr hlarge)
  have hall : ∀ file ∈ [modifiedAt "5", modifiedAt "3", modifiedAt "x", modifiedAt "12"],
      ∀ value, file.mtimeMs = some value → KeepsOrder 4 value := by
    simp only [List.forall_mem_cons]
    refine ⟨?_, ?_, ?_, ?_, List.forall_mem_nil _⟩ <;>
    · intro value hvalue
      cases hvalue
      exact hkeeps (by decide +kernel) (by decide +kernel)
  have htimes : KeepsTimes 4 [("mtime_ms", "3"), ("ctime_ms", "9")] := by
    refine ⟨?_, ?_, fun _ => ⟨9, by decide +kernel, by decide +kernel⟩⟩
    · intro value hvalue
      cases hvalue
      decide +kernel
    · intro _ value hvalue
      cases hvalue
      decide +kernel
  obtain ⟨hfiles, hmetadata⟩ := @since_iff 4 Nat (by decide)
  exact ⟨(hfiles _).mpr hall, (hmetadata _).mpr htimes⟩

/-- The first number that takes more than 64 bits with a sign wraps around. -/
theorem not_since_wrapped :
    srcSince [modifiedAt "9223372036854775808"] (some 0) ≠
        some (.fileStream ([modifiedAt "9223372036854775808"].filter (isNewer 0))) ∧
      modifiedAfter (modifiedAt "9223372036854775808").metadata (some 0) ≠
        some (isModified 0 (modifiedAt "9223372036854775808").metadata) := by
  constructor
  · rw [Ne, srcSince_eq_iff, selectSince_eq_filter_iff (by decide)]
    intro h
    have habove := (h _ List.mem_cons_self _ rfl).above (2 ^ 63) (by decide +kernel) (Nat.le_refl _)
    exact absurd habove (by decide)
  · decide +kernel

end Accepts

end Mulp.VinylFs
