import Mathlib
import Mulp.Cli.Discovery

/-! How `parent_dir` climbs through the text of a path (`cli/discovery.mbt`).

It cuts at the last slash, and at no other. So it climbs to the parent only where the
text has one slash between two names, and none at its end. -/
namespace Mulp.Cli

open Mulp.Core Mulp.Text

/-! ## The loop of `parent_dir` on a name -/

theorem eq_of_unitLength {first rest second more : String} (h : first ++ rest = second ++ more)
    (hlength : unitLength first = unitLength second) : first = second := by
  have hunits := congrArg units h
  rw [units_append, units_append] at hunits
  rw [← ofUnits_units first, ← ofUnits_units second, (List.append_inj hunits hlength).1]

theorem unitLength_singleton (c : Char) :
    unitLength (String.singleton c) = if c.toNat ≤ 0xFFFF then 1 else 2 := by
  rw [unitLength, units, String.toList_singleton, Utf16.encode, List.flatMap_singleton,
    Utf16.encodeChar]
  split_ifs <;> first | rfl | omega

/-- A slice of one unit takes a character that is not a pair. -/
theorem slice_unit {start rest : String} {c : Char} (h : c.toNat ≤ 0xFFFF) :
    slice (start ++ String.singleton c ++ rest) (unitLength start) (unitLength start + 1) =
      some (String.singleton c) := by
  refine slice_eq_some_iff.mpr ⟨start, rest, rfl, rfl, ?_⟩
  rw [unitLength_append, unitLength_singleton, if_pos h]

/-- It does not cut a pair. -/
theorem slice_half {start rest : String} {c : Char} (h : ¬ c.toNat ≤ 0xFFFF) :
    slice (start ++ String.singleton c ++ rest) (unitLength start + 1) (unitLength start + 2) =
      none := by
  rw [Option.eq_none_iff_forall_ne_some]
  intro part hpart
  obtain ⟨before, after, htext, hbefore, hupto⟩ := slice_eq_some_iff.mp hpart
  have hpair : unitLength (String.singleton c) = 2 := by rw [unitLength_singleton, if_neg h]
  have hall : before ++ part = start ++ String.singleton c := by
    refine eq_of_unitLength htext.symm ?_
    rw [hupto, unitLength_append, hpair]
  -- the last character of what is sliced off is the pair
  rw [unitLength_append, hbefore] at hupto
  have hchars := congrArg String.toList hall
  rw [String.toList_append, String.toList_append, String.toList_singleton] at hchars
  rcases List.eq_nil_or_concat part.toList with hnil | ⟨more, d, hmore⟩
  · have hzero : unitLength part = 0 := by
      rw [unitLength, units, hnil]
      rfl
    omega
  · rw [hmore, List.concat_eq_append, ← List.append_assoc] at hchars
    have hd : d = c := List.singleton_inj.mp (List.append_inj' hchars rfl).2
    have hpart : part = String.ofList more ++ String.singleton c := by
      rw [← String.toList_inj, hmore, hd]
      simp
    rw [hpart, unitLength_append, hpair] at hupto
    omega

theorem singleton_ne_slash {c : Char} (h : c ≠ '/') : String.singleton c ≠ "/" := by
  intro heq
  have hchars := congrArg String.toList heq
  rw [String.toList_singleton] at hchars
  exact h (List.singleton_inj.mp hchars)

section Loop

variable {dir name : String}

/-- The parent that stands before a slash: the text up to it, or the root where there is nothing
before it. -/
def parentBefore (dir : String) : String := if dir = "" then "/" else dir

theorem parentDirFrom_slash (dir rest : String) :
    parentDirFrom (dir ++ "/" ++ rest) (unitLength (dir ++ "/")) =
      some (some (parentBefore dir)) := by
  have hslash : unitLength (dir ++ "/") = unitLength dir + 1 := by
    rw [unitLength_append]
    rfl
  have hpart : slice (dir ++ "/" ++ rest) (unitLength dir) (unitLength dir + 1) = some "/" := by
    have hsingle : String.singleton '/' = "/" := rfl
    rw [← hsingle]
    exact slice_unit (by decide)
  rw [hslash, parentDirFrom, hpart, Option.bind_eq_bind, Option.bind_some, if_pos rfl, parentBefore]
  by_cases hdir : dir = ""
  · have hzero : unitLength dir = 0 := by
      rw [hdir]
      rfl
    rw [if_pos hzero, if_pos hdir]
  · rw [if_neg (mt eq_empty_of_unitLength hdir), if_neg hdir]
    refine congrArg (Option.map some) (slice_eq_some_iff.mpr ⟨"", "/" ++ rest, ?_, rfl, ?_⟩)
    · rw [String.empty_append, String.append_assoc]
    · rw [String.empty_append]

/-- The loop passes over a character that is not a pair. -/
theorem parentDirFrom_unit {start rest : String} {c : Char} (hslash : c ≠ '/')
    (hbmp : c.toNat ≤ 0xFFFF) :
    parentDirFrom (start ++ String.singleton c ++ rest) (unitLength (start ++ String.singleton c)) =
      parentDirFrom (start ++ (String.singleton c ++ rest)) (unitLength start) := by
  have hlength : unitLength (start ++ String.singleton c) = unitLength start + 1 := by
    rw [unitLength_append, unitLength_singleton, if_pos hbmp]
  rw [hlength, parentDirFrom, slice_unit hbmp, Option.bind_eq_bind, Option.bind_some,
    if_neg (singleton_ne_slash hslash), String.append_assoc]

/-- It stops at a pair. -/
theorem parentDirFrom_pair {start rest : String} {c : Char} (hpair : ¬ c.toNat ≤ 0xFFFF) :
    parentDirFrom (start ++ String.singleton c ++ rest) (unitLength (start ++ String.singleton c)) =
      none := by
  have hlength : unitLength (start ++ String.singleton c) = unitLength start + 1 + 1 := by
    rw [unitLength_append, unitLength_singleton, if_neg hpair]
  rw [hlength, parentDirFrom, slice_half hpair]
  rfl

theorem ofList_concat (chars : List Char) (c : Char) :
    String.ofList (chars ++ [c]) = String.ofList chars ++ String.singleton c := by
  rw [String.ofList_append, String.singleton_eq_ofList]

/-- The loop goes through a name up to the slash before it. -/
theorem parentDirFrom_name (dir : String) (chars : List Char) (hslash : '/' ∉ chars)
    (rest : String) :
    parentDirFrom (dir ++ "/" ++ String.ofList chars ++ rest)
        (unitLength (dir ++ "/" ++ String.ofList chars)) =
      if ∀ c ∈ chars, c.toNat ≤ 0xFFFF then some (some (parentBefore dir)) else none := by
  induction chars using List.reverseRecOn generalizing rest with
  | nil =>
      rw [String.ofList_nil, String.append_empty, if_pos (by nofun)]
      exact parentDirFrom_slash dir rest
  | append_singleton chars c ih =>
      have hne : c ≠ '/' := by
        rintro rfl
        exact hslash (by simp)
      rw [ofList_concat, ← String.append_assoc]
      by_cases hbmp : c.toNat ≤ 0xFFFF
      · rw [parentDirFrom_unit hne hbmp, ih fun hmem => hslash (List.mem_append_left _ hmem)]
        refine if_congr ?_ rfl rfl
        rw [List.forall_mem_append, List.forall_mem_singleton, and_iff_left hbmp]
      · rw [parentDirFrom_pair hbmp, if_neg fun h => hbmp (h c (by simp))]

end Loop

/-! ## Spellings -/

def slashes (n : Nat) : String := String.ofList (List.replicate n '/')

theorem slashes_succ (n : Nat) : slashes (n + 1) = slashes n ++ "/" := by
  rw [slashes, List.replicate_succ', ofList_concat]
  rfl

/-- A name of a path, and how many slashes follow it. -/
structure Part where
  name : String
  slashes : Nat

/-- An absolute path: the slashes it begins with, and its names from the last one to
the first. -/
def spell (lead : Nat) : List Part → String
  | [] => slashes lead
  | part :: above => spell lead above ++ part.name ++ slashes part.slashes

/-- An absolute path as it is spelled: its names, and how many slashes stand before each of them and
at the end. -/
structure Spelling where
  lead : Nat
  parts : List Part
  lead_pos : 0 < lead
  noSlash : ∀ part ∈ parts, NoSlash part.name
  ne_empty : ∀ part ∈ parts, part.name ≠ ""
  between : ∀ part ∈ parts.tail, 0 < part.slashes

def Spelling.text (self : Spelling) : String := spell self.lead self.parts

/-- The directory that a search comes to from below, or from the path itself. -/
def enter (lead : Nat) : List Part → String
  | [] => slashes (max 1 (lead - 1))
  | part :: above => spell lead (⟨part.name, part.slashes - 1⟩ :: above)

section Spell

variable {lead : Nat} {parts above : List Part} {name : String} {part : Part}

theorem slashes_ne_empty {n : Nat} (h : 0 < n) : slashes n ≠ "" := by
  obtain ⟨k, rfl⟩ := Nat.exists_eq_succ_of_ne_zero (Nat.ne_of_gt h)
  rw [slashes_succ]
  intro heq
  have hchars := congrArg String.length heq
  rw [String.length_append] at hchars
  exact absurd hchars (Nat.succ_ne_zero _)

theorem append_ne_empty {first : String} (h : first ≠ "") (rest : String) : first ++ rest ≠ "" :=
  fun heq => h (String.append_eq_empty_iff.mp heq).1

theorem spell_ne_empty (hlead : 0 < lead) (parts : List Part) : spell lead parts ≠ "" := by
  induction parts with
  | nil => exact slashes_ne_empty hlead
  | cons part above ih => exact append_ne_empty (append_ne_empty ih _) _

/-- What stands before a last slash, when there is something. -/
theorem append_slash_ne_root {first : String} (h : first ≠ "") (rest : String) :
    first ++ "/" ++ rest ≠ "/" := by
  intro heq
  have hlength := congrArg String.length heq
  have hslash : "/".length = 1 := rfl
  rw [String.length_append, String.length_append, hslash] at hlength
  exact h (String.length_eq_zero_iff.mp (by omega))

theorem spell_succ (n : Nat) :
    spell lead (⟨name, n + 1⟩ :: above) = spell lead (⟨name, n⟩ :: above) ++ "/" := by
  rw [spell, spell, slashes_succ, ← String.append_assoc]

/-- Above a name, the path ends in a slash that the search takes off. -/
theorem spell_above (hlead : 0 < lead) (habove : ∀ part ∈ above, 0 < part.slashes) :
    ∃ before, spell lead above = before ++ "/" ∧ parentBefore before = enter lead above := by
  cases above with
  | nil =>
      obtain ⟨n, rfl⟩ := Nat.exists_eq_succ_of_ne_zero (Nat.ne_of_gt hlead)
      refine ⟨slashes n, slashes_succ n, ?_⟩
      rw [parentBefore, enter, Nat.succ_sub_one]
      cases n with
      | zero => rfl
      | succ n => rw [if_neg (slashes_ne_empty (Nat.succ_pos n)), Nat.max_eq_right (Nat.le_add_left 1 n)]
  | cons part above =>
      obtain ⟨name, n⟩ := part
      have hpos : 0 < n := habove ⟨name, n⟩ List.mem_cons_self
      obtain ⟨k, rfl⟩ := Nat.exists_eq_succ_of_ne_zero (Nat.ne_of_gt hpos)
      exact ⟨spell lead (⟨name, k⟩ :: above), spell_succ k, if_neg (spell_ne_empty hlead _)⟩

theorem hasSuffix_name (hname : NoSlash name) (hne : name ≠ "") (start : String) :
    hasSuffix (start ++ name) "/" = false := by
  rw [Bool.eq_false_iff]
  intro h
  obtain ⟨rest, hrest⟩ := hasSuffix_iff.mp h
  have hchars := congrArg String.toList hrest
  rw [String.toList_append, String.toList_append] at hchars
  rcases List.eq_nil_or_concat name.toList with hnil | ⟨chars, c, hc⟩
  · exact hne (String.toList_eq_nil_iff.mp hnil)
  · rw [hc, List.concat_eq_append, ← List.append_assoc] at hchars
    have hlast : c = '/' := List.singleton_inj.mp (List.append_inj' hchars rfl).2
    rw [NoSlash, hc, hlast] at hname
    exact hname (by simp)

theorem trimSlash_name (hlead : 0 < lead) (hname : NoSlash name) (hne : name ≠ "") (n : Nat) :
    trimSlash (spell lead (⟨name, n⟩ :: above)) = spell lead (⟨name, n - 1⟩ :: above) := by
  cases n with
  | zero =>
      refine trimSlash_other ?_
      rw [spell, slashes, List.replicate_zero, String.ofList_nil, String.append_empty]
      exact hasSuffix_name hname hne _
  | succ n =>
      rw [spell_succ]
      refine trimSlash_slash ?_
      simpa using append_slash_ne_root (spell_ne_empty hlead (⟨name, n⟩ :: above)) ""

theorem trimSlash_slashes (n : Nat) : trimSlash (slashes (n + 1)) = slashes (max 1 n) := by
  cases n with
  | zero => rfl
  | succ n =>
      rw [slashes_succ, trimSlash_slash, Nat.max_eq_right (Nat.le_add_left 1 n)]
      simpa using append_slash_ne_root (slashes_ne_empty (Nat.succ_pos n)) ""

/-- A search begins at the path as it enters it. -/
theorem Spelling.trimSlash_text (self : Spelling) :
    trimSlash self.text = enter self.lead self.parts := by
  obtain ⟨lead, parts, hlead, hnoSlash, hne, -⟩ := self
  cases parts with
  | nil =>
      obtain ⟨n, rfl⟩ := Nat.exists_eq_succ_of_ne_zero (Nat.ne_of_gt hlead)
      exact trimSlash_slashes n
  | cons part above =>
      exact trimSlash_name hlead (hnoSlash _ List.mem_cons_self) (hne _ List.mem_cons_self) _

/-! ## Parents -/

theorem parentDir_eq {path : String} (hne : trimSlash path ≠ "") (hroot : trimSlash path ≠ "/") :
    parentDir path = parentDirFrom (trimSlash path) (unitLength (trimSlash path)) := by
  rw [parentDir, normalizeDir_eq, Option.bind_eq_bind, Option.bind_some,
    if_neg (not_or.mpr ⟨hne, hroot⟩)]

/-- From the root there is no parent. -/
theorem parentDir_root {n : Nat} (h : n ≤ 1) : parentDir (slashes (n + 1)) = some none := by
  have hroot : trimSlash (slashes (n + 1)) = "/" := by
    rw [trimSlash_slashes, Nat.max_eq_left h]
    rfl
  rw [parentDir, normalizeDir_eq, hroot]
  rfl

theorem parentDir_slashes (n : Nat) :
    parentDir (slashes (n + 3)) = some (some (slashes (n + 1))) := by
  have htrim : trimSlash (slashes (n + 3)) = slashes (n + 1) ++ "/" := by
    rw [trimSlash_slashes, Nat.max_eq_right (Nat.le_add_left 1 _), slashes_succ]
  have hne := slashes_ne_empty (Nat.succ_pos n)
  have hroot : slashes (n + 1) ++ "/" ≠ "/" := by simpa using append_slash_ne_root hne ""
  rw [parentDir_eq (htrim ▸ append_ne_empty hne _) (htrim ▸ hroot), htrim]
  have hfrom := parentDirFrom_slash (slashes (n + 1)) ""
  rw [String.append_empty, parentBefore, if_neg hne] at hfrom
  exact hfrom

/-- More than one slash after a name: two are taken off. -/
theorem parentDir_again (hlead : 0 < lead) (hname : NoSlash name) (hne : name ≠ "") (n : Nat) :
    parentDir (spell lead (⟨name, n + 2⟩ :: above)) =
      some (some (spell lead (⟨name, n⟩ :: above))) := by
  have htrim : trimSlash (spell lead (⟨name, n + 2⟩ :: above)) =
      spell lead (⟨name, n⟩ :: above) ++ "/" := by
    rw [trimSlash_name hlead hname hne, ← spell_succ]
    rfl
  have hspell := spell_ne_empty hlead (⟨name, n⟩ :: above)
  have hroot : spell lead (⟨name, n⟩ :: above) ++ "/" ≠ "/" := by
    simpa using append_slash_ne_root hspell ""
  rw [parentDir_eq (htrim ▸ append_ne_empty hspell _) (htrim ▸ hroot), htrim]
  have hfrom := parentDirFrom_slash (spell lead (⟨name, n⟩ :: above)) ""
  rw [String.append_empty, parentBefore, if_neg hspell] at hfrom
  exact hfrom

/-- At most one slash after a name: the name is taken off, unless it has a pair. -/
theorem parentDir_above (hlead : 0 < lead) (hname : NoSlash name) (hne : name ≠ "")
    (habove : ∀ part ∈ above, 0 < part.slashes) {n : Nat} (hn : n ≤ 1) :
    parentDir (spell lead (⟨name, n⟩ :: above)) =
      if ∀ c ∈ name.toList, c.toNat ≤ 0xFFFF then some (some (enter lead above)) else none := by
  obtain ⟨before, hbefore, hparent⟩ := spell_above hlead habove
  have htrim : trimSlash (spell lead (⟨name, n⟩ :: above)) = before ++ "/" ++ name := by
    have hzero : n - 1 = 0 := by omega
    rw [trimSlash_name hlead hname hne, hzero, spell, hbefore]
    exact String.append_empty
  have hfrom := parentDirFrom_name before name.toList hname ""
  rw [String.ofList_toList, String.append_empty, hparent] at hfrom
  rw [parentDir_eq, htrim, hfrom]
  · rw [htrim]
    intro h
    exact hne (String.append_eq_empty_iff.mp h).2
  · rw [htrim]
    intro h
    have hlength := congrArg String.length h
    have hslash : "/".length = 1 := rfl
    rw [String.length_append, String.length_append, hslash] at hlength
    exact hne (String.length_eq_zero_iff.mp (by omega))

end Spell

end Mulp.Cli
