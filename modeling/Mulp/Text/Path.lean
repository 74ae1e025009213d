import Mathlib.Data.List.Basic
import Mulp.Lib.Lexical

/-! Paths as text: segments between slashes, and the location a path denotes.

A string is given by its characters. What a call does with a character that takes
two code units is the subject of `Mulp.Text.Slice`. -/
namespace Mulp.Text

open Lexical

/-! ## Segments -/

/-- `value.split("/")`. -/
def splitSlash (value : String) : List String := (value.toList.splitOn '/').map String.ofList

/-- `parts.join("/")`. -/
def joinSlash (parts : List String) : String := "/".intercalate parts

def NoSlash (segment : String) : Prop := '/' ∉ segment.toList

instance (segment : String) : Decidable (NoSlash segment) :=
  inferInstanceAs (Decidable ('/' ∉ segment.toList))

theorem toList_joinSlash (parts : List String) :
    (joinSlash parts).toList = ['/'].intercalate (parts.map String.toList) :=
  String.toList_intercalate

@[simp] theorem joinSlash_nil : joinSlash [] = "" := rfl

@[simp] theorem joinSlash_singleton (part : String) : joinSlash [part] = part := by
  rw [← String.toList_inj, toList_joinSlash]
  simp

theorem joinSlash_cons {rest : List String} (part : String) (h : rest ≠ []) :
    joinSlash (part :: rest) = part ++ "/" ++ joinSlash rest := by
  rw [← String.toList_inj, toList_joinSlash]
  cases rest with
  | nil => exact absurd rfl h
  | cons next rest => simp [toList_joinSlash]

theorem splitSlash_ne_nil (value : String) : splitSlash value ≠ [] := by
  simp [splitSlash]

theorem splitSlash_eq_singleton {value : String} (h : NoSlash value) :
    splitSlash value = [value] := by
  rw [splitSlash, List.splitOn_eq_singleton h]
  simp

@[simp] theorem splitSlash_empty : splitSlash "" = [""] := rfl

theorem splitSlash_append (value rest : String) :
    splitSlash (value ++ "/" ++ rest) = splitSlash value ++ splitSlash rest := by
  have htoList : (value ++ "/" ++ rest).toList = value.toList ++ '/' :: rest.toList := by simp
  rw [splitSlash, htoList, List.splitOn_append_cons_self, List.map_append]
  rfl

theorem joinSlash_splitSlash (value : String) : joinSlash (splitSlash value) = value := by
  rw [← String.toList_inj, toList_joinSlash, splitSlash, List.map_map]
  have hid : String.toList ∘ String.ofList = id := funext fun l => String.toList_ofList
  rw [hid, List.map_id, List.intercalate_splitOn]

theorem splitSlash_joinSlash {parts : List String} (hne : parts ≠ [])
    (h : ∀ part ∈ parts, NoSlash part) : splitSlash (joinSlash parts) = parts := by
  induction parts with
  | nil => exact absurd rfl hne
  | cons part rest ih =>
      cases rest with
      | nil => rw [joinSlash_singleton, splitSlash_eq_singleton (h part (by simp))]
      | cons next rest =>
          rw [joinSlash_cons part (by simp), splitSlash_append,
            splitSlash_eq_singleton (h part (by simp)),
            ih (by simp) fun p hp => h p (List.mem_cons_of_mem _ hp)]
          rfl

theorem mem_joinSlash {parts : List String} {c : Char} (h : c ∈ (joinSlash parts).toList) :
    c = '/' ∨ ∃ part ∈ parts, c ∈ part.toList := by
  induction parts with
  | nil => cases h
  | cons part rest ih =>
      by_cases hnil : rest = []
      · rw [hnil, joinSlash_singleton] at h
        exact .inr ⟨part, List.mem_cons_self, h⟩
      · rw [joinSlash_cons part hnil, String.toList_append, String.toList_append, List.mem_append,
          List.mem_append] at h
        rcases h with (h | h) | h
        · exact .inr ⟨part, List.mem_cons_self, h⟩
        · exact .inl (List.mem_singleton.mp h)
        · rcases ih h with h | ⟨other, hother, h⟩
          · exact .inl h
          · exact .inr ⟨other, List.mem_cons_of_mem part hother, h⟩

theorem mem_joinSlash_of_mem {parts : List String} {part : String} {c : Char} (hpart : part ∈ parts)
    (h : c ∈ part.toList) : c ∈ (joinSlash parts).toList := by
  induction parts with
  | nil => cases hpart
  | cons first rest ih =>
      by_cases hnil : rest = []
      · rw [hnil, List.mem_singleton] at hpart
        rw [hnil, joinSlash_singleton, ← hpart]
        exact h
      · rw [joinSlash_cons first hnil, String.toList_append, String.toList_append]
        rcases List.mem_cons.mp hpart with rfl | hpart
        · exact List.mem_append_left _ (List.mem_append_left _ h)
        · exact List.mem_append_right _ (ih hpart)

/-- No part between separators contains one. -/
theorem not_mem_of_mem_splitOn {α : Type*} [BEq α] [LawfulBEq α] {a : α} {l part : List α}
    (h : part ∈ l.splitOn a) : a ∉ part := by
  induction l generalizing part with
  | nil => simp [List.mem_singleton.mp h]
  | cons b rest ih =>
      rw [List.splitOn_cons_eq_if_modifyHead] at h
      split at h
      · rcases List.mem_cons.mp h with rfl | h
        · exact List.not_mem_nil
        · exact ih h
      · rename_i hb
        obtain ⟨first, others, hsplit⟩ := List.exists_cons_of_ne_nil (List.splitOn_ne_nil a rest)
        rw [hsplit, List.modifyHead_cons] at h
        rcases List.mem_cons.mp h with rfl | h
        · have hfirst := ih (hsplit ▸ List.mem_cons_self)
          rintro (_ | ⟨_, hmem⟩)
          · simp at hb
          · exact hfirst hmem
        · exact ih (hsplit ▸ List.mem_cons_of_mem _ h)

/-- The parts between separators are parts of the list. -/
theorem subset_of_mem_splitOn {α : Type*} [BEq α] {a : α} {l part : List α}
    (h : part ∈ l.splitOn a) : part ⊆ l := by
  induction l generalizing part with
  | nil => simp [List.mem_singleton.mp h]
  | cons b rest ih =>
      rw [List.splitOn_cons_eq_if_modifyHead] at h
      split at h
      · rcases List.mem_cons.mp h with rfl | h
        · exact List.nil_subset _
        · exact List.subset_cons_of_subset b (ih h)
      · obtain ⟨first, others, hsplit⟩ := List.exists_cons_of_ne_nil (List.splitOn_ne_nil a rest)
        rw [hsplit, List.modifyHead_cons] at h
        rcases List.mem_cons.mp h with rfl | h
        · exact List.cons_subset_cons b (ih (hsplit ▸ List.mem_cons_self))
        · exact List.subset_cons_of_subset b (ih (hsplit ▸ List.mem_cons_of_mem _ h))

theorem noSlash_of_mem_splitSlash {value segment : String} (h : segment ∈ splitSlash value) :
    NoSlash segment := by
  obtain ⟨chars, hchars, rfl⟩ := List.mem_map.mp h
  rw [NoSlash, String.toList_ofList]
  exact not_mem_of_mem_splitOn hchars

/-- `value.has_prefix(start)`. -/
def hasPrefix (value start : String) : Bool := start.toList.isPrefixOf value.toList

/-- `value.has_suffix(ending)`. -/
def hasSuffix (value ending : String) : Bool := ending.toList.isSuffixOf value.toList

theorem hasPrefix_iff {value start : String} :
    hasPrefix value start = true ↔ ∃ rest, value = start ++ rest := by
  rw [hasPrefix, List.isPrefixOf_iff_prefix]
  constructor
  · rintro ⟨rest, h⟩
    exact ⟨String.ofList rest, by rw [← String.toList_inj, String.toList_append, ← h]; simp⟩
  · rintro ⟨rest, rfl⟩
    exact ⟨rest.toList, by simp⟩

theorem hasSuffix_iff {value ending : String} :
    hasSuffix value ending = true ↔ ∃ start, value = start ++ ending := by
  rw [hasSuffix, List.isSuffixOf_iff_suffix]
  constructor
  · rintro ⟨start, h⟩
    exact ⟨String.ofList start, by rw [← String.toList_inj, String.toList_append, ← h]; simp⟩
  · rintro ⟨start, rfl⟩
    exact ⟨start.toList, by simp⟩

/-! ## Locations -/

/-- What a segment says: nothing if it is empty or `.`, to go up if it is `..`, and otherwise to go
down to the name. -/
def stepOf (segment : String) : Step String :=
  if segment = "" ∨ segment = "." then .stay
  else if segment = ".." then .up
  else .down segment

/-- A segment that names an entry of a directory. -/
structure IsName (segment : String) : Prop where
  noSlash : NoSlash segment
  ne_empty : segment ≠ ""
  ne_dot : segment ≠ "."
  ne_dots : segment ≠ ".."

theorem IsName.stepOf_eq {segment : String} (h : IsName segment) :
    stepOf segment = .down segment := by
  rw [stepOf, if_neg (not_or.mpr ⟨h.ne_empty, h.ne_dot⟩), if_neg h.ne_dots]

/-- A place below the root, or below the directory a relative path starts in. -/
structure Location where
  rooted : Bool
  pos : Pos String
  deriving DecidableEq

/-- The place a path denotes: whether it starts at the root, how far it goes up from there, and by
which names it goes down then. -/
def location (path : String) : Location :=
  ⟨hasPrefix path "/", Pos.start.walk (hasPrefix path "/") ((splitSlash path).map stepOf)⟩

namespace Location

/-- The segments of the shortest path to a position. -/
def parts (pos : Pos String) : List String := List.replicate pos.ups ".." ++ pos.names

/-- The shortest path to a location. -/
def text (l : Location) : String :=
  if l.rooted then "/" ++ joinSlash (parts l.pos)
  else if parts l.pos = [] then "." else joinSlash (parts l.pos)

/-- A location that a path can denote: from the root there is no way up, and no name is empty, has a
slash or is one of the dots. -/
structure Proper (l : Location) : Prop where
  names : ∀ name ∈ l.pos.names, IsName name
  rooted : l.rooted = true → l.pos.ups = 0

variable {pos : Pos String}

theorem parts_noSlash (h : ∀ name ∈ pos.names, IsName name) :
    ∀ part ∈ parts pos, NoSlash part ∧ part ≠ "" := by
  intro part hpart
  rcases List.mem_append.mp hpart with hpart | hpart
  · rw [List.eq_of_mem_replicate hpart]
    exact ⟨by decide, by decide⟩
  · exact ⟨(h part hpart).noSlash, (h part hpart).ne_empty⟩

theorem map_stepOf_parts (h : ∀ name ∈ pos.names, IsName name) :
    (parts pos).map stepOf = pos.steps := by
  have hups : stepOf ".." = .up := rfl
  rw [parts, List.map_append, List.map_replicate, hups, Pos.steps]
  exact congrArg _ (List.map_congr_left fun name hname => (h name hname).stepOf_eq)

end Location

theorem hasPrefix_slash (rest : String) : hasPrefix ("/" ++ rest) "/" = true :=
  hasPrefix_iff.mpr ⟨rest, rfl⟩

theorem splitSlash_slash (rest : String) : splitSlash ("/" ++ rest) = "" :: splitSlash rest := by
  simpa using splitSlash_append "" rest

theorem hasPrefix_joinSlash {part : String} {rest : List String} (hslash : NoSlash part)
    (hne : part ≠ "") : hasPrefix (joinSlash (part :: rest)) "/" = false := by
  have hhead : ∀ tail, hasPrefix (part ++ tail) "/" = false := by
    intro tail
    obtain ⟨c, chars, hchars⟩ := List.exists_cons_of_ne_nil (mt String.toList_eq_nil_iff.mp hne)
    have hc : '/' ≠ c := by
      rintro rfl
      exact hslash (hchars ▸ List.mem_cons_self)
    simp [hasPrefix, String.toList_append, hchars, List.isPrefixOf, hc]
  cases rest with
  | nil => simpa using hhead ""
  | cons next rest =>
      rw [joinSlash_cons part (by simp), String.append_assoc]
      exact hhead _

theorem joinSlash_append {first second : List String} (hfirst : first ≠ [])
    (hsecond : second ≠ []) :
    joinSlash (first ++ second) = joinSlash first ++ "/" ++ joinSlash second := by
  induction first with
  | nil => exact absurd rfl hfirst
  | cons part rest ih =>
      cases rest with
      | nil => rw [List.singleton_append, joinSlash_cons part hsecond, joinSlash_singleton]
      | cons next rest =>
          rw [List.cons_append, joinSlash_cons part (by simp), ih (by simp),
            joinSlash_cons part (by simp)]
          simp only [String.append_assoc]

theorem joinSlash_eq_empty {parts : List String} (h : ∀ part ∈ parts, part ≠ "") :
    joinSlash parts = "" ↔ parts = [] := by
  constructor
  · intro hempty
    match parts with
    | [] => rfl
    | [part] =>
        rw [joinSlash_singleton] at hempty
        exact absurd hempty (h part List.mem_cons_self)
    | part :: next :: rest =>
        rw [joinSlash_cons part (by simp)] at hempty
        simp at hempty
  · rintro rfl
    rfl

theorem hasPrefix_append {value : String} (h : value ≠ "") (rest : String) :
    hasPrefix (value ++ rest) "/" = hasPrefix value "/" := by
  obtain ⟨c, chars, hchars⟩ := List.exists_cons_of_ne_nil (mt String.toList_eq_nil_iff.mp h)
  simp [hasPrefix, String.toList_append, hchars, List.isPrefixOf]

/-- A path that goes on from another one. -/
theorem location_append {dir : String} (h : dir ≠ "") (rest : String) :
    location (dir ++ "/" ++ rest) = ⟨(location dir).rooted,
      (location dir).pos.walk (location dir).rooted ((splitSlash rest).map stepOf)⟩ := by
  rw [location, String.append_assoc, hasPrefix_append h, ← String.append_assoc, splitSlash_append,
    List.map_append, Pos.walk_append]
  rfl

theorem splitSlash_trailing (value : String) :
    splitSlash (value ++ "/") = splitSlash value ++ [""] := by
  simpa using splitSlash_append value ""

/-- A trailing slash does not change the place a path denotes. -/
theorem location_trailing {value : String} (h : value ≠ "") :
    location (value ++ "/") = location value := by
  have happend := location_append h ""
  rw [String.append_empty] at happend
  rw [happend]
  rfl

/-- A walk along segments keeps the names proper. -/
theorem isName_walk {rooted : Bool} {pos : Pos String} {segments : List String}
    (hpos : ∀ name ∈ pos.names, IsName name) (h : ∀ segment ∈ segments, NoSlash segment) :
    ∀ name ∈ (pos.walk rooted (segments.map stepOf)).names, IsName name := by
  intro name hname
  rcases Pos.mem_walk_names hname with hname | hname
  · exact hpos name hname
  · obtain ⟨segment, hsegment, hstep⟩ := List.mem_map.mp hname
    rw [stepOf] at hstep
    split_ifs at hstep with hstay hup
    obtain ⟨hempty, hdot⟩ := not_or.mp hstay
    cases hstep
    exact ⟨h name hsegment, hempty, hdot, hup⟩

theorem walk_isName {rooted : Bool} {segments : List String}
    (h : ∀ segment ∈ segments, IsName segment) :
    Pos.start.walk rooted (segments.map stepOf) = ⟨0, segments⟩ := by
  have hmap : segments.map stepOf = segments.map .down :=
    List.map_congr_left fun segment hsegment => (h segment hsegment).stepOf_eq
  rw [hmap, Pos.walk_down]
  rfl

theorem location_proper (path : String) : (location path).Proper := by
  refine ⟨isName_walk (by simp [Pos.start]) fun _ => noSlash_of_mem_splitSlash, fun hrooted => ?_⟩
  have hrooted : hasPrefix path "/" = true := hrooted
  rw [location, hrooted, Pos.walk_rooted]
  rfl

/-- The segments of a shortest path. -/
theorem splitSlash_text {l : Location} (h : l.Proper) (hne : Location.parts l.pos ≠ []) :
    splitSlash l.text = (if l.rooted then [""] else []) ++ Location.parts l.pos := by
  have hsplit : splitSlash (joinSlash (Location.parts l.pos)) = Location.parts l.pos :=
    splitSlash_joinSlash hne fun part hpart => (Location.parts_noSlash h.names part hpart).1
  rw [Location.text]
  split_ifs
  · rw [splitSlash_slash, hsplit]
    rfl
  · rw [hsplit]
    rfl

/-- Following a shortest path from anywhere. -/
theorem walk_text {l : Location} (h : l.Proper) (rooted : Bool) (pos : Pos String) :
    pos.walk rooted ((splitSlash l.text).map stepOf) = pos.walk rooted l.pos.steps := by
  rw [← Location.map_stepOf_parts h.names]
  by_cases hne : Location.parts l.pos = []
  · obtain ⟨_ | _, lpos⟩ := l
    · simp only [Location.text, hne, Bool.false_eq_true, if_false, if_true]
      rfl
    · simp only [Location.text, hne, if_true, joinSlash_nil]
      rfl
  · rw [splitSlash_text h hne, List.map_append, Pos.walk_append]
    split_ifs <;> rfl

theorem location_text {l : Location} (h : l.Proper) : location l.text = l := by
  obtain ⟨rooted, pos⟩ := l
  have hparts := Location.parts_noSlash h.names
  have hwalk : Pos.start.walk rooted ((Location.parts pos).map stepOf) = pos := by
    rw [Location.map_stepOf_parts h.names, Pos.walk_steps pos h.rooted]
  have hsplit (hne : Location.parts pos ≠ []) :
      splitSlash (joinSlash (Location.parts pos)) = Location.parts pos :=
    splitSlash_joinSlash hne fun part hpart => (hparts part hpart).1
  cases rooted with
  | true =>
      simp only [Location.text, if_true]
      rw [location, hasPrefix_slash, splitSlash_slash, List.map_cons, Pos.walk_cons]
      by_cases hne : Location.parts pos = []
      · rw [hne] at hwalk ⊢
        rw [← hwalk]
        rfl
      · rw [hsplit hne]
        exact congrArg (Location.mk true) hwalk
  | false =>
      simp only [Location.text, Bool.false_eq_true, if_false]
      split_ifs with hne
      · rw [hne] at hwalk
        rw [← hwalk]
        rfl
      -- the text starts with a name or with `..`, never with a slash
      · obtain ⟨part, rest, hcons⟩ := List.exists_cons_of_ne_nil hne
        have hpart := hparts part (hcons ▸ List.mem_cons_self)
        have hstart : hasPrefix (joinSlash (Location.parts pos)) "/" = false := by
          rw [hcons]
          exact hasPrefix_joinSlash hpart.1 hpart.2
        rw [location, hstart, hsplit hne, hwalk]

theorem text_ne_empty {l : Location} (h : l.Proper) : l.text ≠ "" := by
  intro hempty
  have hlocation := location_text h
  rw [hempty] at hlocation
  rw [← hlocation] at hempty
  exact absurd hempty (by decide)

end Mulp.Text
