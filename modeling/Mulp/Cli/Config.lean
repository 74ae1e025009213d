import Mulp.Core.Error
import Mulp.Text.Substring

/-! The configuration of a project (`cli/config.mbt`), with the slices that the
parser takes of its source. -/
namespace Mulp.Cli

open Mulp.Core Mulp.Text

structure PackageConfig where
  name : String
  version : Option String

structure MulpSection where
  entry : String
  defaultTask : String

structure MulpConfig where
  pkg : PackageConfig
  mulp : MulpSection

/-! ## Lines -/

/-- Tab, newline, carriage return or blank. -/
def isTrimmed (c : Char) : Bool := c ∈ ['\t', '\n', '\r', ' ']

/-- `value.trim()`. -/
def trim (value : String) : String :=
  String.ofList ((value.toList.dropWhile isTrimmed).reverse.dropWhile isTrimmed).reverse

/-- `value.split(separator)`, for a separator of one character. -/
def split (value : String) (separator : Char) : List String :=
  (value.toList.splitOn separator).map String.ofList

def splitAssignment (line : String) : Except MulpError (String × String) :=
  match (split line '=').map trim with
  | [key, value] => .ok (key, value)
  | _ => .error (.configError ("malformed line: " ++ line))

def parseQuotedValue (key value : String) : Option (Except MulpError String) :=
  if unitLength value ≥ 2 && hasPrefix value "\"" && hasSuffix value "\"" then
    (slice value 1 (unitLength value - 1)).map .ok
  else some (.error (.configError ("value for " ++ key ++ " must be quoted")))

def sectionName (line : String) : Option (Except MulpError (Option String)) :=
  if hasPrefix line "[" then
    if hasSuffix line "]" then do
      let name ← slice line 1 (unitLength line - 1)
      if name = "package" || name = "mulp" then some (.ok (some name))
      else some (.error (.configError ("unknown section: " ++ name)))
    else some (.error (.configError ("malformed section: " ++ line)))
  else some (.ok none)

/-! ## A source in the language -/

/-- The loop of `find_substring`, for `n` more indices. -/
def findSubstringFrom (source needle : String) (index : Nat) : Nat → Option Int
  | 0 => some (-1)
  | n + 1 => do
      let part ← slice source index (index + unitLength needle)
      if part = needle then some index else findSubstringFrom source needle (index + 1) n

def findSubstring (source needle : String) : Option Int :=
  if needle = "" then some 0
  else if unitLength needle > unitLength source then some (-1)
  else findSubstringFrom source needle 0 (unitLength source - unitLength needle + 1)

/-- The loops of `quoted_return_after` over a quote, for `n` more indices. -/
def findQuoteFrom (source : String) (index : Nat) : Nat → Option (Option Nat)
  | 0 => some none
  | n + 1 => do
      let part ← slice source index (index + 1)
      if part = "\"" then some (some index) else findQuoteFrom source (index + 1) n

def quotedReturnAfter (source marker : String) : Option (Except MulpError String) := do
  let start ← findSubstring source marker
  if start < 0 then some (.error (.configError ("missing " ++ marker)))
  else
    let firstQuote ← findQuoteFrom source start.toNat (unitLength source - start.toNat)
    match firstQuote with
    | none => some (.error (.configError ("missing quoted return for " ++ marker)))
    | some firstQuote =>
        let lastQuote ← findQuoteFrom source (firstQuote + 1) (unitLength source - (firstQuote + 1))
        match lastQuote with
        | none => some (.error (.configError ("missing quoted return for " ++ marker)))
        | some index => (slice source (firstQuote + 1) index).map .ok

def parseMulpMbtConfig (source : String) : Option (Except MulpError MulpConfig) := do
  let packageName ← quotedReturnAfter source "pub fn package_name"
  let entry ← quotedReturnAfter source "pub fn entry_package"
  let defaultTask ← quotedReturnAfter source "pub fn default_task"
  match defaultTask with
  | .error err => some (.error err)
  | .ok defaultTask =>
      some (.ok ⟨⟨packageName.toOption.getD "mulp", none⟩, ⟨entry.toOption.getD "", defaultTask⟩⟩)

/-! ## `parse_config` -/

/-- The variables of `parse_config`. -/
structure ConfigState where
  currentSection : String
  packageName : String
  packageVersion : Option String
  entry : String
  defaultTask : String

/-- An assignment of a value to a key of the current section. -/
def ConfigState.assign (self : ConfigState) (key fullKey value : String) : Except MulpError ConfigState :=
  if self.currentSection = "package" then
    if key = "name" then .ok { self with packageName := value }
    else if key = "version" then .ok { self with packageVersion := some value }
    else .error (.configError ("unknown key: " ++ fullKey))
  else if self.currentSection = "mulp" then
    if key = "entry" then .ok { self with entry := value }
    else if key = "default" then .ok { self with defaultTask := value }
    else .error (.configError ("unknown key: " ++ fullKey))
  else .ok self

/-- A turn of the loop of `parse_config` over the lines. -/
def parseLine (state : ConfigState) (view : String) : Option (Except MulpError ConfigState) :=
  let line := trim view
  if line = "" || hasPrefix line "#" then some (.ok state)
  else do
    let name ← sectionName line
    match name with
    | .error err => some (.error err)
    | .ok (some name) => some (.ok { state with currentSection := name })
    | .ok none =>
        match splitAssignment line with
        | .error err => some (.error err)
        | .ok (key, rawValue) =>
            if state.currentSection = "" then some (.error (.configError ("key outside section: " ++ key)))
            else
              let fullKey := state.currentSection ++ "." ++ key
              let value ← parseQuotedValue fullKey rawValue
              match value with
              | .error err => some (.error err)
              | .ok value => some (state.assign key fullKey value)

def parseLines (state : ConfigState) : List String → Option (Except MulpError ConfigState)
  | [] => some (.ok state)
  | view :: rest => do
      let next ← parseLine state view
      match next with
      | .error err => some (.error err)
      | .ok next => parseLines next rest

/-- The end of `parse_config`. -/
def ConfigState.config (self : ConfigState) : Except MulpError MulpConfig :=
  if self.packageName = "" then .error (.configError "missing package.name")
  else if self.defaultTask = "" then .error (.configError "missing mulp.default")
  else .ok ⟨⟨self.packageName, self.packageVersion⟩, ⟨self.entry, self.defaultTask⟩⟩

def parseConfig (source : String) : Option (Except MulpError MulpConfig) := do
  let start ← findSubstring source "pub fn default_task"
  if start ≥ 0 then parseMulpMbtConfig source
  else
    let state ← parseLines ⟨"", "", none, "", ""⟩ (split source '\n')
    some (state.bind ConfigState.config)

/-! ## On a source without pairs the parser does not abort -/

section Slices

variable {source line : String}

theorem isBmp_trim (h : IsBmp line) : IsBmp (trim line) := by
  refine h.of_subset fun c hc => ?_
  rw [trim, String.toList_ofList, List.mem_reverse] at hc
  exact (List.dropWhile_subset _) (List.mem_reverse.mp ((List.dropWhile_subset _) hc))

theorem isBmp_of_mem_split (h : IsBmp line) {separator : Char} {part : String}
    (hpart : part ∈ split line separator) : IsBmp part := by
  obtain ⟨chars, hchars, rfl⟩ := List.mem_map.mp hpart
  exact h.of_mem_splitOn hchars

theorem isBmp_splitAssignment (h : IsBmp line) {key value : String}
    (hassignment : splitAssignment line = .ok (key, value)) : IsBmp value := by
  rw [splitAssignment] at hassignment
  split at hassignment
  · rename_i first second hparts
    obtain ⟨-, rfl⟩ := Prod.mk.inj (Except.ok.inj hassignment)
    have hmem : second ∈ (split line '=').map trim := by simp [hparts]
    obtain ⟨part, hpart, rfl⟩ := List.mem_map.mp hmem
    exact isBmp_trim (isBmp_of_mem_split h hpart)
  · cases hassignment

theorem exists_parseQuotedValue (h : IsBmp line) (key : String) :
    ∃ result, parseQuotedValue key line = some result := by
  rw [parseQuotedValue]
  split_ifs with hquoted
  · have hlength : unitLength line ≥ 2 := by
      rw [Bool.and_eq_true, Bool.and_eq_true, decide_eq_true_eq] at hquoted
      exact hquoted.1.1
    obtain ⟨part, hpart, -⟩ :=
      h.exists_slice (show 1 ≤ unitLength line - 1 by omega) (Nat.sub_le _ 1)
    rw [hpart]
    exact ⟨_, rfl⟩
  · exact ⟨_, rfl⟩

/-- A line with both brackets has two characters. -/
theorem two_le_of_brackets (hopen : hasPrefix line "[" = true)
    (hclose : hasSuffix line "]" = true) :
    2 ≤ line.toList.length := by
  obtain ⟨rest, hrest⟩ := hasPrefix_iff.mp hopen
  obtain ⟨start, hstart⟩ := hasSuffix_iff.mp hclose
  have hfirst : line.toList = '[' :: rest.toList := by rw [hrest, String.toList_append]; rfl
  have hlast : line.toList = start.toList ++ [']'] := by rw [hstart, String.toList_append]; rfl
  cases hchars : rest.toList with
  | nil =>
      rw [hfirst, hchars] at hlast
      have hbracket := congrArg List.getLast? hlast
      rw [List.getLast?_concat] at hbracket
      exact absurd (Option.some.inj hbracket) (by decide)
  | cons c chars => simp [hfirst, hchars]

theorem exists_sectionName (h : IsBmp line) : ∃ result, sectionName line = some result := by
  rw [sectionName]
  split_ifs with hopen hclose
  · have hlength := two_le_of_brackets hopen hclose
    rw [← h.unitLength] at hlength
    obtain ⟨name, hname, -⟩ :=
      h.exists_slice (show 1 ≤ unitLength line - 1 by omega) (Nat.sub_le _ 1)
    refine exists_bind hname ?_
    split_ifs <;> exact ⟨_, rfl⟩
  · exact ⟨_, rfl⟩
  · exact ⟨_, rfl⟩

theorem exists_findSubstringFrom (h : IsBmp source) (needle : String) {index n : Nat}
    (hn : index + n ≤ unitLength source - unitLength needle + 1)
    (hneedle : unitLength needle ≤ unitLength source) :
    ∃ found, findSubstringFrom source needle index n = some found := by
  induction n generalizing index with
  | zero => exact ⟨_, rfl⟩
  | succ n ih =>
      obtain ⟨part, hpart, -⟩ :=
        h.exists_slice (Nat.le_add_right index (unitLength needle)) (by omega)
      refine exists_bind hpart ?_
      split_ifs
      · exact ⟨_, rfl⟩
      · exact ih (by omega)

theorem exists_findSubstring (h : IsBmp source) (needle : String) :
    ∃ found, findSubstring source needle = some found := by
  rw [findSubstring]
  split_ifs with hempty hlong
  · exact ⟨_, rfl⟩
  · exact ⟨_, rfl⟩
  · exact exists_findSubstringFrom h needle (Nat.le_of_eq (Nat.zero_add _)) (Nat.le_of_not_lt hlong)

/-- A quote that is found stands in the source, not before the start. -/
theorem exists_findQuoteFrom (h : IsBmp source) {index n : Nat}
    (hn : n ≤ unitLength source - index) :
    ∃ found, findQuoteFrom source index n = some found ∧
      ∀ quote ∈ found, index ≤ quote ∧ quote < unitLength source := by
  induction n generalizing index with
  | zero => exact ⟨none, rfl, nofun⟩
  | succ n ih =>
      obtain ⟨part, hpart, -⟩ := h.exists_slice (Nat.le_succ index) (show index + 1 ≤ _ by omega)
      rw [findQuoteFrom, hpart, Option.bind_eq_bind, Option.bind_some]
      split_ifs
      · refine ⟨_, rfl, fun quote hquote => ?_⟩
        obtain rfl := Option.some.inj hquote
        omega
      · obtain ⟨found, hfound, hbounds⟩ := ih (show n ≤ unitLength source - (index + 1) by omega)
        refine ⟨found, hfound, fun quote hquote => ?_⟩
        have hquote := hbounds quote hquote
        omega

theorem exists_quotedReturnAfter (h : IsBmp source) (marker : String) :
    ∃ result, quotedReturnAfter source marker = some result := by
  obtain ⟨start, hstart⟩ := exists_findSubstring h marker
  refine exists_bind hstart ?_
  split_ifs
  · exact ⟨_, rfl⟩
  · obtain ⟨first, hfirst, -⟩ :=
      exists_findQuoteFrom h (Nat.le_refl (unitLength source - start.toNat))
    refine exists_bind hfirst ?_
    cases first with
    | none => exact ⟨_, rfl⟩
    | some first =>
        obtain ⟨last, hlast, hbounds⟩ :=
          exists_findQuoteFrom h (Nat.le_refl (unitLength source - (first + 1)))
        refine exists_bind hlast ?_
        cases last with
        | none => exact ⟨_, rfl⟩
        | some last =>
            obtain ⟨hle, hlt⟩ := hbounds last rfl
            obtain ⟨part, hpart, -⟩ := h.exists_slice hle (Nat.le_of_lt hlt)
            exact ⟨.ok part, by simp only [hpart, Option.map_some]⟩

theorem exists_parseMulpMbtConfig (h : IsBmp source) :
    ∃ result, parseMulpMbtConfig source = some result := by
  obtain ⟨packageName, hpackageName⟩ := exists_quotedReturnAfter h "pub fn package_name"
  obtain ⟨entry, hentry⟩ := exists_quotedReturnAfter h "pub fn entry_package"
  obtain ⟨defaultTask, hdefaultTask⟩ := exists_quotedReturnAfter h "pub fn default_task"
  refine exists_bind hpackageName (exists_bind hentry (exists_bind hdefaultTask ?_))
  cases defaultTask <;> exact ⟨_, rfl⟩

theorem exists_parseLine (h : IsBmp line) (state : ConfigState) :
    ∃ result, parseLine state line = some result := by
  have htrim := isBmp_trim h
  unfold parseLine
  dsimp only
  by_cases hskip : (trim line = "" || hasPrefix (trim line) "#") = true
  · rw [if_pos hskip]
    exact ⟨_, rfl⟩
  · rw [if_neg hskip]
    obtain ⟨name, hname⟩ := exists_sectionName htrim
    refine exists_bind hname ?_
    rcases name with err | _ | name
    · exact ⟨_, rfl⟩
    · dsimp only
      rcases hassignment : splitAssignment (trim line) with err | ⟨key, rawValue⟩
      · exact ⟨_, rfl⟩
      · dsimp only
        by_cases hkey : state.currentSection = ""
        · rw [if_pos hkey]
          exact ⟨_, rfl⟩
        · rw [if_neg hkey]
          obtain ⟨value, hvalue⟩ :=
            exists_parseQuotedValue (isBmp_splitAssignment htrim hassignment)
              (state.currentSection ++ "." ++ key)
          refine exists_bind hvalue ?_
          cases value <;> exact ⟨_, rfl⟩
    · exact ⟨_, rfl⟩

theorem exists_parseLines {lines : List String} (h : ∀ line ∈ lines, IsBmp line)
    (state : ConfigState) :
    ∃ result, parseLines state lines = some result := by
  induction lines generalizing state with
  | nil => exact ⟨_, rfl⟩
  | cons line rest ih =>
      rw [List.forall_mem_cons] at h
      obtain ⟨next, hnext⟩ := exists_parseLine h.1 state
      refine exists_bind hnext ?_
      cases next with
      | error err => exact ⟨_, rfl⟩
      | ok next => exact ih h.2 next

theorem exists_parseConfig (h : IsBmp source) : ∃ result, parseConfig source = some result := by
  obtain ⟨start, hstart⟩ := exists_findSubstring h "pub fn default_task"
  obtain ⟨state, hstate⟩ := exists_parseLines (fun line => @isBmp_of_mem_split source h '\n' line)
    ⟨"", "", none, "", ""⟩
  refine exists_bind hstart ?_
  split_ifs
  · exact exists_parseMulpMbtConfig h
  · exact exists_bind hstate ⟨_, rfl⟩

end Slices

end Mulp.Cli
