import Mathlib.Algebra.GroupWithZero.Nat
import Mathlib.Data.List.Perm.Basic
import Mathlib.Data.List.TakeWhile
import Mulp.Cli.ScriptText

/-! Well-formed configurations as texts (`cli/config.mbt`).

A configuration is lines of a key and a value, with blanks around them. The parser looks
for characters and not for lines of this form: an equals sign in a value, or the marker
of the other language anywhere, and it reads something else. -/
namespace Mulp.Cli

open Mulp.Core Mulp.Text

/-! ## Lines of a configuration -/

inductive SectionName where
  | package
  | mulp
  deriving DecidableEq

def SectionName.text : SectionName → String
  | .package => "package"
  | .mulp => "mulp"

inductive Key where
  | name
  | version
  | entry
  | default
  deriving DecidableEq

def Key.text : Key → String
  | .name => "name"
  | .version => "version"
  | .entry => "entry"
  | .default => "default"

/-- The section that a key belongs to. -/
def Key.home : Key → SectionName
  | .name => .package
  | .version => .package
  | .entry => .mulp
  | .default => .mulp

/-- Tabs, carriage returns and blanks. -/
def IsPad (pad : String) : Prop := ∀ c ∈ pad.toList, c ∈ ['\t', '\r', ' ']

instance (pad : String) : Decidable (IsPad pad) := List.decidableBAll _ _

inductive Line where
  | blank (pad : String)
  | comment (pad text : String)
  | header (before : String) (name : SectionName) (after : String)
  | assign (before : String) (key : Key) (left right value after : String)
  deriving DecidableEq

namespace Line

def text : Line → String
  | blank pad => pad
  | comment pad text => pad ++ "#" ++ text
  | header before name after => before ++ ("[" ++ name.text ++ "]") ++ after
  | assign before key left right value after =>
      before ++ (key.text ++ left ++ "=" ++ (right ++ ("\"" ++ value ++ "\""))) ++ after

def WellFormed : Line → Prop
  | blank pad => IsPad pad
  | comment pad text => IsPad pad ∧ '\n' ∉ text.toList
  | header before _ after => IsPad before ∧ IsPad after
  | assign before _ left right value after =>
      IsPad before ∧ IsPad left ∧ IsPad right ∧ IsPad after ∧
        '"' ∉ value.toList ∧ '\n' ∉ value.toList ∧ '\r' ∉ value.toList

/-- The value of the line has no equals sign. -/
def NoEquals : Line → Prop
  | assign _ _ _ _ value _ => '=' ∉ value.toList
  | _ => True

/-- The value that the line gives to a key. -/
def valueOf (key : Key) : Line → Option String
  | assign _ other _ _ value _ => if other = key then some value else none
  | _ => none

end Line

/-- Every key is under a header of its section; the lines go on from a current section. -/
def Under : String → List Line → Prop
  | _, [] => True
  | _, .header _ name _ :: lines => Under name.text lines
  | current, .assign _ key _ _ _ _ :: lines => current = key.home.text ∧ Under current lines
  | current, .blank _ :: lines => Under current lines
  | current, .comment _ _ :: lines => Under current lines

/-- The last value that the lines give to a key. -/
def lastValue (key : Key) : List Line → Option String
  | [] => none
  | line :: lines => (lastValue key lines).or (line.valueOf key)

/-- A well-formed configuration: its lines, with headers in any order and any number, and what
they say. -/
structure ConfigText where
  lines : List Line
  wellFormed : ∀ line ∈ lines, line.WellFormed
  under : Under "" lines
  name : String
  version : Option String
  entry : String
  defaultTask : String
  name_eq : lastValue .name lines = some name
  version_eq : lastValue .version lines = version
  entry_eq : lastValue .entry lines = some entry
  default_eq : lastValue .default lines = some defaultTask
  name_ne : name ≠ ""
  default_ne : defaultTask ≠ ""

namespace ConfigText

def text (file : ConfigText) : String := "\n".intercalate (file.lines.map Line.text)

def config (file : ConfigText) : MulpConfig :=
  ⟨⟨file.name, file.version⟩, ⟨file.entry, file.defaultTask⟩⟩

end ConfigText

/-! ## Trimming -/

section Trim

variable {before body after pad text : String}

theorem IsPad.trimmed (h : IsPad pad) : ∀ c ∈ pad.toList, isTrimmed c = true := by
  intro c hc
  have hmem := h c hc
  simp only [List.mem_cons, List.not_mem_nil, or_false] at hmem
  rcases hmem with rfl | rfl | rfl <;> rfl

theorem IsPad.not_mem (h : IsPad pad) {c : Char} (hc : c ∉ ['\t', '\r', ' ']) : c ∉ pad.toList :=
  fun hmem => hc (h c hmem)

/-- A text that begins and ends with characters that stay, so that trimming it changes nothing. -/
structure Solid (body : String) : Prop where
  first : ∃ c ∈ body.toList.head?, isTrimmed c = false
  last : ∃ c ∈ body.toList.getLast?, isTrimmed c = false

theorem dropWhile_of_head {p : Char → Bool} {l : List Char} (h : ∃ c ∈ l.head?, p c = false)
    (rest : List Char) : (l ++ rest).dropWhile p = l ++ rest := by
  obtain ⟨c, hc, hp⟩ := h
  cases l with
  | nil => cases hc
  | cons d l =>
      obtain rfl := Option.some.inj hc
      rw [List.cons_append, List.dropWhile_cons_of_neg (by simp [hp])]

theorem trim_solid (hbefore : IsPad before) (hafter : IsPad after) (hbody : Solid body) :
    trim (before ++ body ++ after) = body := by
  have hlast : ∃ c ∈ body.toList.reverse.head?, isTrimmed c = false := by
    rw [List.head?_reverse]
    exact hbody.last
  rw [trim, String.toList_append, String.toList_append, List.append_assoc,
    List.dropWhile_append_of_pos hbefore.trimmed, dropWhile_of_head hbody.first,
    List.reverse_append, List.dropWhile_append_of_pos fun c hc => hafter.trimmed c (List.mem_reverse.mp hc)]
  have hdrop := dropWhile_of_head hlast []
  rw [List.append_nil] at hdrop
  rw [hdrop, List.reverse_reverse, String.ofList_toList]

theorem trim_pad (h : IsPad pad) : trim pad = "" := by
  have hnil : pad.toList.dropWhile isTrimmed = [] := List.dropWhile_eq_nil_iff.mpr h.trimmed
  rw [trim, hnil]
  rfl

/-- A comment stays one. -/
theorem hasPrefix_trim_comment (h : IsPad pad) :
    hasPrefix (trim (pad ++ "#" ++ text)) "#" = true := by
  have hfirst : ∃ c ∈ ['#'].head?, isTrimmed c = false := ⟨'#', rfl, rfl⟩
  have hhash : ("#" : String).toList = ['#'] := rfl
  have hdrop : (pad ++ "#" ++ text).toList.dropWhile isTrimmed = ['#'] ++ text.toList := by
    rw [String.toList_append, String.toList_append, List.append_assoc, hhash,
      List.dropWhile_append_of_pos h.trimmed, dropWhile_of_head hfirst]
  rw [trim, hdrop, List.reverse_append, List.dropWhile_append]
  split_ifs
  · rfl
  · simp [hasPrefix]

end Trim

/-! ## One line -/

section OneLine

variable {left right value after before pad text : String} {key : Key} {state : ConfigState}

/-- A value in quotes. -/
def quotation (value : String) : String := "\"" ++ value ++ "\""

/-- An assignment without what surrounds it: a key, an equals sign and a value, which the parser
finds again by the first equals sign of the line. -/
def assignment (key : Key) (left right value : String) : String :=
  key.text ++ left ++ "=" ++ (right ++ quotation value)

theorem toList_quotation (value : String) :
    (quotation value).toList = '"' :: (value.toList ++ ['"']) := by
  rw [quotation, String.toList_append, String.toList_append]
  rfl

theorem solid_quotation (value : String) : Solid (quotation value) := by
  constructor
  · exact ⟨'"', by rw [toList_quotation]; rfl, rfl⟩
  · exact ⟨'"', by rw [toList_quotation, ← List.cons_append, List.getLast?_concat]; rfl, rfl⟩

theorem solid_key (key : Key) : Solid key.text := by
  constructor <;> cases key <;> exact ⟨_, rfl, rfl⟩

theorem solid_header (name : SectionName) : Solid ("[" ++ name.text ++ "]") := by
  constructor <;> cases name <;> exact ⟨_, rfl, rfl⟩

/-- The first character of a key. -/
theorem exists_key_cons (key : Key) :
    ∃ c rest, key.text.toList = c :: rest ∧ c ≠ '#' ∧ c ≠ '[' := by
  cases key <;> exact ⟨_, _, rfl, by decide, by decide⟩

theorem solid_assignment (key : Key) (left right value : String) :
    Solid (assignment key left right value) := by
  obtain ⟨c, hc, hfirst⟩ := (solid_key key).first
  constructor
  · obtain ⟨d, rest, hkey, -⟩ := exists_key_cons key
    rw [hkey] at hc
    refine ⟨c, ?_, hfirst⟩
    simp only [assignment, String.toList_append, hkey]
    exact hc
  · refine ⟨'"', ?_, rfl⟩
    simp only [assignment, quotation, String.toList_append, ← List.append_assoc]
    exact List.getLast?_concat

theorem trim_assign (hbefore : IsPad before) (hafter : IsPad after) :
    trim (Line.assign before key left right value after).text = assignment key left right value :=
  trim_solid hbefore hafter (solid_assignment key left right value)

theorem assignment_first (key : Key) (left right value : String) :
    (assignment key left right value = "" ||
        hasPrefix (assignment key left right value) "#") = false ∧
      hasPrefix (assignment key left right value) "[" = false := by
  obtain ⟨c, rest, hkey, hhash, hbracket⟩ := exists_key_cons key
  have htoList : ∃ more, (assignment key left right value).toList = c :: more := by
    simp only [assignment, String.toList_append, hkey]
    exact ⟨_, rfl⟩
  obtain ⟨more, hmore⟩ := htoList
  have hne : assignment key left right value ≠ "" := by
    intro hnil
    rw [hnil] at hmore
    cases hmore
  have hprefix (d : Char) (hd : c ≠ d) :
      hasPrefix (assignment key left right value) (String.ofList [d]) = false := by
    rw [hasPrefix, hmore, String.toList_ofList]
    simp [List.isPrefixOf, Ne.symm hd]
  refine ⟨?_, hprefix '[' hbracket⟩
  rw [decide_eq_false hne, Bool.false_or]
  exact hprefix '#' hhash

/-- The two sides of the first equals sign. -/
theorem splitOn_assignment (hleft : IsPad left) :
    (assignment key left right value).toList.splitOn '=' =
      (key.text ++ left).toList :: (right ++ quotation value).toList.splitOn '=' := by
  have hkey : '=' ∉ (key.text ++ left).toList := by
    rw [String.toList_append, List.mem_append, not_or]
    exact ⟨by cases key <;> decide, hleft.not_mem (by decide)⟩
  have htoList : (assignment key left right value).toList =
      (key.text ++ left).toList ++ '=' :: (right ++ quotation value).toList := by
    rw [assignment, String.toList_append, String.toList_append, List.append_assoc]
    rfl
  rw [htoList, List.splitOn_append_cons_self, List.splitOn_eq_singleton hkey]
  rfl

theorem trim_key (hleft : IsPad left) : trim (key.text ++ left) = key.text := by
  have hempty : IsPad "" := by decide
  have htrim := trim_solid hempty hleft (solid_key key)
  rwa [String.empty_append] at htrim

theorem trim_value (hright : IsPad right) : trim (right ++ quotation value) = quotation value := by
  have hempty : IsPad "" := by decide
  have htrim := trim_solid hright hempty (solid_quotation value)
  rwa [String.append_empty] at htrim

/-- An assignment is split in two if its value has no equals sign. -/
theorem splitAssignment_ok (hleft : IsPad left) (hright : IsPad right) (h : '=' ∉ value.toList) :
    splitAssignment (assignment key left right value) = .ok (key.text, quotation value) := by
  have hvalue : '=' ∉ (right ++ quotation value).toList := by
    rw [String.toList_append, toList_quotation]
    simp [h, hright.not_mem (show '=' ∉ ['\t', '\r', ' '] by decide)]
  rw [splitAssignment, split, splitOn_assignment hleft, List.splitOn_eq_singleton hvalue]
  simp only [List.map_cons, List.map_nil, String.ofList_toList, trim_key hleft, trim_value hright]

/-- Otherwise there are more than two parts. -/
theorem splitAssignment_error (hleft : IsPad left) (h : '=' ∈ value.toList) :
    splitAssignment (assignment key left right value) =
      .error (.configError ("malformed line: " ++ assignment key left right value)) := by
  obtain ⟨front, back, hvalue⟩ := List.append_of_mem h
  have hsplit : (right ++ quotation value).toList =
      (right.toList ++ '"' :: front) ++ '=' :: (back ++ ['"']) := by
    rw [String.toList_append, toList_quotation, hvalue]
    simp
  obtain ⟨a, as, ha⟩ := List.exists_cons_of_ne_nil
    (List.splitOn_ne_nil '=' (right.toList ++ '"' :: front))
  obtain ⟨b, bs, hb⟩ := List.exists_cons_of_ne_nil (List.splitOn_ne_nil '=' (back ++ ['"']))
  rw [splitAssignment, split, splitOn_assignment hleft, hsplit, List.splitOn_append_cons_self, ha,
    hb]
  cases as <;> rfl

theorem parseQuotedValue_quotation (fullKey value : String) :
    parseQuotedValue fullKey (quotation value) = some (.ok value) := by
  have hquote : unitLength "\"" = 1 := by decide
  have hlength : unitLength (quotation value) = 1 + unitLength value + 1 := by
    rw [quotation, unitLength_append, unitLength_append, hquote]
  have hprefix : hasPrefix (quotation value) "\"" = true :=
    hasPrefix_iff.mpr ⟨value ++ "\"", by rw [quotation, String.append_assoc]⟩
  have hsuffix : hasSuffix (quotation value) "\"" = true := hasSuffix_iff.mpr ⟨"\"" ++ value, rfl⟩
  have hslice : slice (quotation value) 1 (unitLength (quotation value) - 1) = some value := by
    refine slice_eq_some_iff.mpr ⟨"\"", "\"", rfl, hquote, ?_⟩
    rw [hlength, unitLength_append, hquote]
    omega
  rw [parseQuotedValue, hprefix, hsuffix, if_pos (by simp [hlength]), hslice]
  rfl

theorem sectionName_header (name : SectionName) :
    sectionName ("[" ++ name.text ++ "]") = some (.ok (some name.text)) := by
  have hbracket : unitLength "[" = 1 := by decide
  have hclose : unitLength "]" = 1 := by decide
  have hprefix : hasPrefix ("[" ++ name.text ++ "]") "[" = true :=
    hasPrefix_iff.mpr ⟨name.text ++ "]", by rw [String.append_assoc]⟩
  have hsuffix : hasSuffix ("[" ++ name.text ++ "]") "]" = true :=
    hasSuffix_iff.mpr ⟨"[" ++ name.text, rfl⟩
  have hslice : slice ("[" ++ name.text ++ "]") 1 (unitLength ("[" ++ name.text ++ "]") - 1) =
      some name.text := by
    refine slice_eq_some_iff.mpr ⟨"[", "]", rfl, hbracket, ?_⟩
    rw [unitLength_append _ "]", hclose]
    rfl
  rw [sectionName, if_pos hprefix, if_pos hsuffix, hslice, Option.bind_eq_bind, Option.bind_some]
  cases name <;> rfl

/-- What an assignment does to the variables: the last one of a key counts, and one of an unknown
key does nothing. -/
def ConfigState.set (self : ConfigState) (value : String) : Key → ConfigState
  | .name => { self with packageName := value }
  | .version => { self with packageVersion := some value }
  | .entry => { self with entry := value }
  | .default => { self with defaultTask := value }

theorem assign_eq_set (h : state.currentSection = key.home.text) (fullKey value : String) :
    state.assign key.text fullKey value = .ok (state.set value key) := by
  obtain ⟨current, packageName, packageVersion, entry, defaultTask⟩ := state
  obtain rfl : current = key.home.text := h
  cases key <;> rfl

/-! ### The turns of the loop -/

theorem parseLine_blank (h : IsPad pad) (state : ConfigState) :
    parseLine state (Line.blank pad).text = some (.ok state) := by
  unfold parseLine
  rw [Line.text, trim_pad h]
  rfl

theorem parseLine_comment (h : IsPad pad) (state : ConfigState) :
    parseLine state (Line.comment pad text).text = some (.ok state) := by
  unfold parseLine
  dsimp only
  rw [Line.text, hasPrefix_trim_comment h, Bool.or_true, if_pos rfl]

theorem parseLine_header (hbefore : IsPad before) (hafter : IsPad after) (name : SectionName)
    (state : ConfigState) :
    parseLine state (Line.header before name after).text =
      some (.ok { state with currentSection := name.text }) := by
  have hskip : ("[" ++ name.text ++ "]" = "" ||
      hasPrefix ("[" ++ name.text ++ "]") "#") = false := by
    cases name <;> decide
  unfold parseLine
  dsimp only
  rw [Line.text, trim_solid hbefore hafter (solid_header name), hskip, if_neg Bool.false_ne_true,
    sectionName_header]
  rfl

theorem parseLine_assign
    (hgood : (Line.assign before key left right value after).WellFormed)
    (hsection : state.currentSection = key.home.text) (h : '=' ∉ value.toList) :
    parseLine state (Line.assign before key left right value after).text =
      some (.ok (state.set value key)) := by
  obtain ⟨hbefore, hleft, hright, hafter, -⟩ := hgood
  obtain ⟨hskip, hbracket⟩ := assignment_first key left right value
  have hhome : state.currentSection ≠ "" := by
    rw [hsection]
    cases key <;> decide
  have hname : sectionName (assignment key left right value) = some (.ok none) := by
    rw [sectionName, hbracket, if_neg Bool.false_ne_true]
  unfold parseLine
  dsimp only
  rw [trim_assign hbefore hafter, hskip, if_neg Bool.false_ne_true, hname, Option.bind_eq_bind,
    Option.bind_some]
  dsimp only
  rw [splitAssignment_ok hleft hright h]
  dsimp only
  rw [if_neg hhome, parseQuotedValue_quotation, Option.bind_eq_bind, Option.bind_some]
  dsimp only
  rw [assign_eq_set hsection]

theorem parseLine_equals
    (hgood : (Line.assign before key left right value after).WellFormed) (h : '=' ∈ value.toList)
    (state : ConfigState) :
    ∃ err, parseLine state (Line.assign before key left right value after).text =
      some (.error err) := by
  obtain ⟨hbefore, hleft, -, hafter, -⟩ := hgood
  obtain ⟨hskip, hbracket⟩ := assignment_first key left right value
  have hname : sectionName (assignment key left right value) = some (.ok none) := by
    rw [sectionName, hbracket, if_neg Bool.false_ne_true]
  unfold parseLine
  dsimp only
  rw [trim_assign hbefore hafter, hskip, if_neg Bool.false_ne_true, hname, Option.bind_eq_bind,
    Option.bind_some]
  dsimp only
  rw [splitAssignment_error hleft h]
  exact ⟨_, rfl⟩

end OneLine

/-! ## All lines -/

section Lines

variable {lines : List Line} {state : ConfigState} {line : Line}

theorem lastValue_cons (key : Key) : lastValue key (line :: lines) =
    (lastValue key lines).or (line.valueOf key) := rfl

/-- The variable of a key. -/
def ConfigState.valueAt (self : ConfigState) : Key → Option String
  | .name => some self.packageName
  | .version => self.packageVersion
  | .entry => some self.entry
  | .default => some self.defaultTask

theorem valueAt_set (state : ConfigState) (value : String) (key other : Key) :
    (state.set value key).valueAt other =
      if key = other then some value else state.valueAt other := by
  cases key <;> cases other <;> rfl

/-- The last value of each key is in its variable at the end, where there is one. Other keys are
read and forgotten. -/
def Remembers (state : ConfigState) (lines : List Line) (final : ConfigState) : Prop :=
  ∀ key, final.valueAt key = (lastValue key lines).or (state.valueAt key)

/-- A line that gives no value leaves the variables as they are. -/
theorem Remembers.skip {final next : ConfigState} (h : Remembers next lines final)
    (hline : ∀ key, line.valueOf key = none) (hnext : ∀ key, next.valueAt key = state.valueAt key) :
    Remembers state (line :: lines) final := by
  intro key
  rw [h key, hnext, lastValue_cons, hline, Option.or_none]

theorem Remembers.assign {final : ConfigState} {before left right value after : String} {key : Key}
    (h : Remembers (state.set value key) lines final) :
    Remembers state (.assign before key left right value after :: lines) final := by
  intro other
  rw [h other, valueAt_set, lastValue_cons, Line.valueOf, Option.or_assoc]
  split_ifs <;> rfl

/-- Without equals signs in the values, the loop reads the last value of each key. -/
theorem parseLines_read (hgood : ∀ line ∈ lines, line.WellFormed)
    (hunder : Under state.currentSection lines) (hequals : ∀ line ∈ lines, line.NoEquals) :
    ∃ final, parseLines state (lines.map Line.text) = some (.ok final) ∧
      Remembers state lines final := by
  induction lines generalizing state with
  | nil => exact ⟨state, rfl, fun key => Option.none_or.symm⟩
  | cons line lines ih =>
      rw [List.forall_mem_cons] at hgood hequals
      rw [List.map_cons, parseLines]
      cases line with
      | blank pad =>
          obtain ⟨final, hfinal, hholds⟩ := ih hgood.2 hunder hequals.2
          rw [parseLine_blank hgood.1]
          exact ⟨final, hfinal, hholds.skip (fun _ => rfl) fun _ => rfl⟩
      | comment pad text =>
          obtain ⟨final, hfinal, hholds⟩ := ih hgood.2 hunder hequals.2
          rw [parseLine_comment hgood.1.1]
          exact ⟨final, hfinal, hholds.skip (fun _ => rfl) fun _ => rfl⟩
      | header before name after =>
          have hunder' : Under { state with currentSection := name.text }.currentSection lines :=
            hunder
          obtain ⟨final, hfinal, hholds⟩ := ih hgood.2 hunder' hequals.2
          rw [parseLine_header hgood.1.1 hgood.1.2]
          exact ⟨final, hfinal, hholds.skip (fun _ => rfl) fun key => by cases key <;> rfl⟩
      | assign before key left right value after =>
          have hsection : (state.set value key).currentSection = state.currentSection := by
            cases key <;> rfl
          obtain ⟨final, hfinal, hholds⟩ := ih hgood.2 (hsection ▸ hunder.2) hequals.2
          rw [parseLine_assign hgood.1 hunder.1 hequals.1]
          exact ⟨final, hfinal, hholds.assign⟩

/-- An equals sign in a value is an error. -/
theorem parseLines_equals (hgood : ∀ line ∈ lines, line.WellFormed)
    (hunder : Under state.currentSection lines) (hline : line ∈ lines) (hequals : ¬ line.NoEquals) :
    ∃ err, parseLines state (lines.map Line.text) = some (.error err) := by
  induction lines generalizing state with
  | nil => cases hline
  | cons first lines ih =>
      rw [List.forall_mem_cons] at hgood
      rw [List.map_cons, parseLines]
      -- an error of the line itself, or of a later one
      by_cases hfirst : first.NoEquals
      · have hrest : line ∈ lines := by
          rcases List.mem_cons.mp hline with rfl | hline
          · exact absurd hfirst hequals
          · exact hline
        cases first with
        | blank pad =>
            rw [parseLine_blank hgood.1]
            exact ih hgood.2 hunder hrest
        | comment pad text =>
            rw [parseLine_comment hgood.1.1]
            exact ih hgood.2 hunder hrest
        | header before name after =>
            have hunder' : Under { state with currentSection := name.text }.currentSection lines :=
              hunder
            rw [parseLine_header hgood.1.1 hgood.1.2]
            exact ih hgood.2 hunder' hrest
        | assign before key left right value after =>
            have hsection : (state.set value key).currentSection = state.currentSection := by
              cases key <;> rfl
            rw [parseLine_assign hgood.1 hunder.1 hfirst]
            exact ih hgood.2 (hsection ▸ hunder.2) hrest
      · cases first with
        | assign before key left right value after =>
            obtain ⟨err, herr⟩ := parseLine_equals hgood.1 (not_not.mp hfirst) state
            rw [herr]
            exact ⟨err, rfl⟩
        | blank pad => exact absurd trivial hfirst
        | comment pad text => exact absurd trivial hfirst
        | header before name after => exact absurd trivial hfirst

end Lines

/-! ## The text of the lines -/

section FileText

variable {lines : List Line} {line : Line}

theorem Line.WellFormed.lineFeed_not_mem (h : line.WellFormed) : '\n' ∉ line.text.toList := by
  have hpad {pad : String} (h : IsPad pad) : '\n' ∉ pad.toList := h.not_mem (by decide)
  cases line with
  | blank pad => exact hpad h
  | comment pad text =>
      simp only [Line.text, String.toList_append, List.mem_append, not_or]
      exact ⟨⟨hpad h.1, by decide⟩, h.2⟩
  | header before name after =>
      simp only [Line.text, String.toList_append, List.mem_append, not_or]
      exact ⟨⟨hpad h.1, ⟨by decide, by cases name <;> decide⟩, by decide⟩, hpad h.2⟩
  | assign before key left right value after =>
      obtain ⟨hbefore, hleft, hright, hafter, -, hvalue, -⟩ := h
      simp only [Line.text, String.toList_append, List.mem_append, not_or]
      exact ⟨⟨hpad hbefore, ⟨⟨by cases key <;> decide, hpad hleft⟩, by decide⟩, hpad hright,
        ⟨by decide, hvalue⟩, by decide⟩, hpad hafter⟩

/-- Splitting the text gives the lines back. -/
theorem split_text (hgood : ∀ line ∈ lines, line.WellFormed) (hne : lines ≠ []) :
    split ("\n".intercalate (lines.map Line.text)) '\n' = lines.map Line.text := by
  have hparts : ∀ part ∈ (lines.map Line.text).map String.toList, '\n' ∉ part := by
    simp only [List.map_map, List.forall_mem_map]
    exact fun line hline => (hgood line hline).lineFeed_not_mem
  have hfeed : ("\n" : String).toList = ['\n'] := rfl
  rw [split, String.toList_intercalate, hfeed,
    List.splitOn_intercalate '\n' hparts (by simpa using hne), List.map_map]
  exact (List.map_congr_left fun text _ => String.ofList_toList).trans (List.map_id _)

/-- A value comes from a line, and that line from below a header. -/
theorem exists_of_lastValue {key : Key} {value : String} (h : lastValue key lines = some value) :
    ∃ before left right after, Line.assign before key left right value after ∈ lines := by
  induction lines with
  | nil => cases h
  | cons line lines ih =>
      rw [lastValue_cons, Option.or_eq_some_iff] at h
      rcases h with h | ⟨-, h⟩
      · obtain ⟨before, left, right, after, hmem⟩ := ih h
        exact ⟨before, left, right, after, List.mem_cons_of_mem _ hmem⟩
      · cases line with
        | assign before other left right value' after =>
            rw [Line.valueOf] at h
            split_ifs at h with hkey
            obtain rfl := Option.some.inj h
            rw [← hkey]
            exact ⟨before, left, right, after, List.mem_cons_self⟩
        | blank pad => cases h
        | comment pad text => cases h
        | header before name after => cases h

theorem exists_header {current : String} (hunder : Under current lines)
    {before left right value after : String} {key : Key} (h : Line.assign before key left right value after ∈ lines)
    (hcurrent : current ≠ key.home.text) :
    ∃ before after, Line.header before key.home after ∈ lines := by
  induction lines generalizing current with
  | nil => cases h
  | cons line lines ih =>
      have hlater (h : ∃ before after, Line.header before key.home after ∈ lines) :
          ∃ before after, Line.header before key.home after ∈ line :: lines := by
        obtain ⟨before, after, hmem⟩ := h
        exact ⟨before, after, List.mem_cons_of_mem _ hmem⟩
      rcases List.mem_cons.mp h with rfl | hrest
      · exact absurd hunder.1 hcurrent
      · cases line with
        | blank pad => exact hlater (ih hunder hrest hcurrent)
        | comment pad text => exact hlater (ih hunder hrest hcurrent)
        | assign before key left right value after => exact hlater (ih hunder.2 hrest hcurrent)
        | header before name after =>
            by_cases hname : name.text = key.home.text
            · have hsame : name = key.home := by
                revert hname
                cases name <;> cases key.home <;> decide
              rw [← hsame]
              exact ⟨before, after, List.mem_cons_self⟩
            · exact hlater (ih hunder hrest hname)

theorem unitLength_intercalate (parts : List String) :
    (parts.map unitLength).sum ≤ unitLength ("\n".intercalate parts) := by
  induction parts with
  | nil => exact Nat.zero_le _
  | cons part parts ih =>
      cases parts with
      | nil => simp
      | cons next parts =>
          rw [String.intercalate_cons_cons, unitLength_append, unitLength_append, List.map_cons,
            List.sum_cons]
          omega

/-- The lines of a sublist are not longer. -/
theorem sum_le_of_sublist {some all : List String} (h : some.Sublist all) :
    (some.map unitLength).sum ≤ (all.map unitLength).sum := by
  induction h with
  | slnil => exact Nat.le_refl _
  | cons text _ ih =>
      rw [List.map_cons, List.sum_cons]
      omega
  | cons_cons text _ ih =>
      rw [List.map_cons, List.map_cons, List.sum_cons, List.sum_cons]
      omega

theorem unitLength_header (before : String) (name : SectionName) (after : String) :
    unitLength name.text + 2 ≤ unitLength (Line.header before name after).text := by
  have hopen : unitLength "[" = 1 := by decide
  have hclose : unitLength "]" = 1 := by decide
  simp only [Line.text, unitLength_append]
  omega

theorem unitLength_assign (before : String) (key : Key) (left right value after : String) :
    unitLength key.text + unitLength value + 3 ≤
      unitLength (Line.assign before key left right value after).text := by
  have hequals : unitLength "=" = 1 := by decide
  have hquote : unitLength "\"" = 1 := by decide
  simp only [Line.text, unitLength_append]
  omega

/-- The lines that a configuration cannot do without. -/
theorem ConfigText.le_unitLength (file : ConfigText) : 39 ≤ unitLength file.text := by
  obtain ⟨b₁, l₁, r₁, a₁, hname⟩ := exists_of_lastValue file.name_eq
  obtain ⟨b₂, l₂, r₂, a₂, hentry⟩ := exists_of_lastValue file.entry_eq
  obtain ⟨b₃, l₃, r₃, a₃, hdefault⟩ := exists_of_lastValue file.default_eq
  obtain ⟨b₄, a₄, hpackage⟩ := exists_header file.under hname (by decide)
  obtain ⟨b₅, a₅, hmulp⟩ := exists_header file.under hentry (by decide)
  have hsubset : [Line.header b₄ .package a₄, .header b₅ .mulp a₅,
      .assign b₁ .name l₁ r₁ file.name a₁, .assign b₂ .entry l₂ r₂ file.entry a₂,
      .assign b₃ .default l₃ r₃ file.defaultTask a₃] ⊆ file.lines := by
    simp only [List.cons_subset, List.nil_subset, and_true]
    exact ⟨hpackage, hmulp, hname, hentry, hdefault⟩
  obtain ⟨some, hperm, hsublist⟩ := List.subperm_of_subset (by simp) hsubset
  have hsum := sum_le_of_sublist (hsublist.map Line.text)
  have hsame := ((hperm.map Line.text).map unitLength).sum_nat
  have htext := unitLength_intercalate (file.lines.map Line.text)
  have hpositive {value : String} (h : value ≠ "") : 0 < unitLength value :=
    Nat.pos_of_ne_zero fun hzero => h (unitLength_eq_zero.mp hzero)
  have hname' := hpositive file.name_ne
  have hdefault' := hpositive file.default_ne
  have hlengths : unitLength "package" = 7 ∧ unitLength "mulp" = 4 ∧ unitLength "name" = 4 ∧
      unitLength "entry" = 5 ∧ unitLength "default" = 7 := by decide
  have h₁ := unitLength_assign b₁ .name l₁ r₁ file.name a₁
  have h₂ := unitLength_assign b₂ .entry l₂ r₂ file.entry a₂
  have h₃ := unitLength_assign b₃ .default l₃ r₃ file.defaultTask a₃
  have h₄ := unitLength_header b₄ .package a₄
  have h₅ := unitLength_header b₅ .mulp a₅
  rw [hsame] at hsum
  simp only [List.map_cons, List.map_nil, List.sum_cons, List.sum_nil] at hsum
  simp only [Key.text, SectionName.text] at h₁ h₂ h₃ h₄ h₅
  rw [ConfigText.text]
  omega

theorem ConfigText.lines_ne_nil (file : ConfigText) : file.lines ≠ [] := by
  intro hnil
  have hname := file.name_eq
  rw [hnil] at hname
  cases hname

/-! ## The whole parser -/

/-- Where the marker of the other language is missing, the lines are read. -/
theorem parseConfig_lines (file : ConfigText) (hbmp : IsBmp file.text)
    (habsent : ¬ "pub fn default_task".toList <:+: file.text.toList) :
    parseConfig file.text = (parseLines ⟨"", "", none, "", ""⟩ (file.lines.map Line.text)).map
      (·.bind ConfigState.config) := by
  obtain ⟨start, hstart⟩ := exists_findSubstring hbmp "pub fn default_task"
  have hneg : ¬ start ≥ 0 := by
    intro hpos
    obtain ⟨i, rfl⟩ := Int.eq_ofNat_of_zero_le hpos
    obtain ⟨-, hstands, -⟩ := (findSubstring_eq_iff (by decide) (by decide)).mp hstart
    exact habsent (hstands.isInfix.trans (List.drop_suffix i _).isInfix)
  rw [parseConfig, hstart, Option.bind_eq_bind, Option.bind_some, if_neg hneg, ConfigText.text,
    split_text file.wellFormed file.lines_ne_nil]
  cases parseLines ⟨"", "", none, "", ""⟩ (file.lines.map Line.text) <;> rfl

/-- Without equals signs in the values, that is the configuration. -/
theorem parseLines_config (file : ConfigText) (hequals : ∀ line ∈ file.lines, line.NoEquals) :
    (parseLines ⟨"", "", none, "", ""⟩ (file.lines.map Line.text)).map (·.bind ConfigState.config) =
      some (.ok file.config) := by
  obtain ⟨final, hfinal, hholds⟩ :=
    @parseLines_read _ ⟨"", "", none, "", ""⟩ file.wellFormed file.under hequals
  have hname : final.packageName = file.name := by
    have hvalue := hholds .name
    rw [file.name_eq] at hvalue
    exact Option.some.inj hvalue
  have hversion : final.packageVersion = file.version := by
    have hvalue := hholds .version
    rw [file.version_eq] at hvalue
    exact hvalue.trans Option.or_none
  have hentry : final.entry = file.entry := by
    have hvalue := hholds .entry
    rw [file.entry_eq] at hvalue
    exact Option.some.inj hvalue
  have hdefault : final.defaultTask = file.defaultTask := by
    have hvalue := hholds .default
    rw [file.default_eq] at hvalue
    exact Option.some.inj hvalue
  have hconfig : final.config = .ok file.config := by
    rw [ConfigState.config, hname, hdefault, hversion, hentry, if_neg file.name_ne,
      if_neg file.default_ne]
    rfl
  rw [hfinal]
  exact congrArg some hconfig

/-- With one there is no configuration. -/
theorem parseLines_not_config (file : ConfigText) (config : MulpConfig) {line : Line}
    (hline : line ∈ file.lines) (hequals : ¬ line.NoEquals) :
    (parseLines ⟨"", "", none, "", ""⟩ (file.lines.map Line.text)).map (·.bind ConfigState.config) ≠
      some (.ok config) := by
  obtain ⟨err, herr⟩ := @parseLines_equals _ ⟨"", "", none, "", ""⟩ line file.wellFormed file.under
    hline hequals
  rw [herr]
  intro h
  cases Option.some.inj h

/-- The parser reads back what the lines say exactly if the text has no pair and no marker of the
other language, and no value an equals sign; or if it reads the text as a source in the other
language, and that happens to say the same. -/
theorem parseConfig_eq_iff (file : ConfigText) :
    parseConfig file.text = some (.ok file.config) ↔
      (IsBmp file.text ∧ ¬ "pub fn default_task".toList <:+: file.text.toList ∧
        ∀ line ∈ file.lines, line.NoEquals) ∨
      ReadsAsScript file.text file.config := by
  have hlength := file.le_unitLength
  have hmarker : unitLength "pub fn default_task" = 19 := by decide
  have hscript (h : ReadsAsScript file.text file.config) :
      ∃ i : Nat, findSubstring file.text "pub fn default_task" = some (i : Int) :=
    Quoted.exists_found (by decide) (by decide) (by decide) h.defaultTask
  cases hstart : findSubstring file.text "pub fn default_task" with
  | none =>
      refine iff_of_false ?_ ?_
      · rw [parseConfig, hstart]
        nofun
      · rintro (⟨hbmp, -⟩ | h)
        · obtain ⟨start, hfound⟩ := exists_findSubstring hbmp "pub fn default_task"
          rw [hstart] at hfound
          cases hfound
        · obtain ⟨i, hfound⟩ := hscript h
          rw [hstart] at hfound
          cases hfound
  | some start =>
      by_cases hpos : start ≥ 0
      · obtain ⟨i, rfl⟩ := Int.eq_ofNat_of_zero_le hpos
        obtain ⟨-, hstands, -⟩ := (findSubstring_eq_iff (by decide) (by decide)).mp hstart
        have hinfix : "pub fn default_task".toList <:+: file.text.toList :=
          hstands.isInfix.trans (List.drop_suffix i _).isInfix
        rw [parseConfig, hstart, Option.bind_eq_bind, Option.bind_some, if_pos hpos,
          parseMulpMbtConfig_eq_iff hlength]
        exact (or_iff_right fun h => h.2.1 hinfix).symm
      · obtain ⟨hbmp, hnot⟩ := isBmp_of_absent (by omega) (by decide) hstart (by omega)
        have habsent : ¬ "pub fn default_task".toList <:+: file.text.toList := by
          rintro ⟨before, after, htext⟩
          apply hnot before.length
          rw [Stands, ← htext, List.append_assoc, List.drop_left]
          exact List.prefix_append _ _
        have hother : ¬ ReadsAsScript file.text file.config := by
          intro h
          obtain ⟨i, hfound⟩ := hscript h
          rw [hstart] at hfound
          have heq := Option.some.inj hfound
          omega
        rw [or_iff_left hother, parseConfig_lines file hbmp habsent]
        constructor
        · intro h
          refine ⟨hbmp, habsent, fun line hline => ?_⟩
          by_contra hequals
          exact parseLines_not_config file file.config hline hequals h
        · rintro ⟨-, -, hequals⟩
          exact parseLines_config file hequals

/-- An entry with an equals sign. -/
def equalsFile : ConfigText where
  lines := [.header "" .package "", .assign "" .name " " " " "p" "", .header "" .mulp "",
    .assign "" .entry " " " " "a=b" "", .assign "" .default " " " " "t" ""]
  wellFormed := by
    simp only [List.forall_mem_cons, Line.WellFormed]
    exact ⟨by decide, by decide, by decide, by decide, by decide, nofun⟩
  under := ⟨rfl, rfl, rfl, trivial⟩
  name := "p"
  version := none
  entry := "a=b"
  defaultTask := "t"
  name_eq := rfl
  version_eq := rfl
  entry_eq := rfl
  default_eq := rfl
  name_ne := by decide
  default_ne := by decide

/-- The line is called malformed. -/
theorem not_parseConfig_equals :
    ¬ ∀ file : ConfigText, parseConfig file.text = some (.ok file.config) := by
  intro h
  have hbmp : IsBmp equalsFile.text := by decide +kernel
  have habsent : ¬ "pub fn default_task".toList <:+: equalsFile.text.toList := by decide +kernel
  have hline : Line.assign "" .entry " " " " "a=b" "" ∈ equalsFile.lines := by decide
  have hequals : ¬ (Line.assign "" .entry " " " " "a=b" "").NoEquals := by
    rw [Line.NoEquals, not_not]
    decide
  have hparse := h equalsFile
  rw [parseConfig_lines equalsFile hbmp habsent] at hparse
  exact parseLines_not_config equalsFile _ hline hequals hparse

end FileText

end Mulp.Cli
