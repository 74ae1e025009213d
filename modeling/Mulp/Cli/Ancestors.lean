import Mathlib.Data.List.Infix
import Mathlib.Data.Nat.Init
import Mulp.Cli.Climb

/-! The directories above one, by their names.

The searches of the command climb through texts; what they should climb through is a
list of names that loses its last one at each step. -/
namespace Mulp.Cli

open Mulp.Core Mulp.Text

/-! ## Names -/

/-- The names in a path, the last one first. -/
def names (path : String) : List String := ((splitSlash path).filter (· ≠ "")).reverse

/-- The directory and those above it, by their names. -/
def ancestors (path : String) : List (List String) := (names path).tails

theorem names_append (first rest : String) :
    names (first ++ "/" ++ rest) = names rest ++ names first := by
  rw [names, splitSlash_append, List.filter_append, List.reverse_append, names, names]

@[simp] theorem names_empty : names "" = [] := rfl

theorem names_slash (path : String) : names (path ++ "/") = names path := by
  have h := names_append path ""
  rwa [String.append_empty, names_empty, List.nil_append] at h

theorem names_slashes (path : String) (n : Nat) : names (path ++ slashes n) = names path := by
  induction n with
  | zero =>
      rw [slashes, List.replicate_zero, String.ofList_nil, String.append_empty]
  | succ n ih => rw [slashes_succ, ← String.append_assoc, names_slash, ih]

theorem names_name {name : String} (hslash : NoSlash name) (hne : name ≠ "") :
    names name = [name] := by
  simp [names, splitSlash_eq_singleton hslash, hne]

theorem names_root (n : Nat) : names (slashes n) = [] := by
  have h := names_slashes "" n
  rwa [String.empty_append] at h

section Spell

variable {lead : Nat} {above : List Part} {part : Part}

theorem names_above (hlead : 0 < lead) (habove : ∀ part ∈ above, 0 < part.slashes)
    (hslash : NoSlash part.name) (hne : part.name ≠ "") :
    names (spell lead (part :: above)) = part.name :: names (spell lead above) := by
  obtain ⟨before, hbefore, -⟩ := spell_above hlead habove
  rw [spell, hbefore, names_slashes, names_append, names_slash, names_name hslash hne]
  rfl

theorem names_spell {parts : List Part} (hlead : 0 < lead)
    (hslash : ∀ part ∈ parts, NoSlash part.name) (hne : ∀ part ∈ parts, part.name ≠ "")
    (hbetween : ∀ part ∈ parts.tail, 0 < part.slashes) :
    names (spell lead parts) = parts.map Part.name := by
  induction parts with
  | nil => exact names_root lead
  | cons part above ih =>
      rw [List.forall_mem_cons] at hslash hne
      have habove : ∀ part ∈ above, 0 < part.slashes := hbetween
      rw [names_above hlead habove hslash.1 hne.1,
        ih hslash.2 hne.2 fun part hpart => hbetween part (List.mem_of_mem_tail hpart)]
      rfl

end Spell

namespace Spelling

variable (self : Spelling)

theorem names_text : names self.text = self.parts.map Part.name :=
  names_spell self.lead_pos self.noSlash self.ne_empty self.between

theorem spell_zero (lead : Nat) (above : List Part) (name : String) :
    spell lead (⟨name, 0⟩ :: above) = spell lead above ++ name := by
  rw [spell, slashes, List.replicate_zero, String.ofList_nil, String.append_empty]

/-- One more character of a path. -/
theorem exists_concat (c : Char) :
    ∃ other : Spelling, other.text = self.text ++ String.singleton c := by
  obtain ⟨lead, parts, hlead, hslash, hne, hbetween⟩ := self
  by_cases hc : c = '/'
  · subst hc
    cases parts with
    | nil =>
        exact ⟨⟨lead + 1, [], Nat.succ_pos _, List.forall_mem_nil _, List.forall_mem_nil _,
          List.forall_mem_nil _⟩, slashes_succ lead⟩
    | cons part above =>
        obtain ⟨name, n⟩ := part
        rw [List.forall_mem_cons] at hslash hne
        exact ⟨⟨lead, ⟨name, n + 1⟩ :: above, hlead, List.forall_mem_cons.mpr hslash,
          List.forall_mem_cons.mpr hne, hbetween⟩, spell_succ n⟩
  · have hnew : NoSlash (String.singleton c) := by
      rw [NoSlash, String.toList_singleton, List.mem_singleton]
      exact Ne.symm hc
    have hnonempty : String.singleton c ≠ "" := fun heq => by
      have hchars := congrArg String.toList heq
      rw [String.toList_singleton] at hchars
      cases hchars
    -- the character begins a name, or it goes on with one
    have hbegin (hclosed : ∀ part ∈ parts, 0 < part.slashes) :
        ∃ other : Spelling, other.text = spell lead parts ++ String.singleton c :=
      ⟨⟨lead, ⟨String.singleton c, 0⟩ :: parts, hlead, List.forall_mem_cons.mpr ⟨hnew, hslash⟩,
        List.forall_mem_cons.mpr ⟨hnonempty, hne⟩, hclosed⟩, spell_zero lead parts _⟩
    rcases parts with _ | ⟨⟨name, _ | n⟩, above⟩
    · exact hbegin (List.forall_mem_nil _)
    · rw [List.forall_mem_cons] at hslash hne
      have hlonger : NoSlash (name ++ String.singleton c) := by
        rw [NoSlash, String.toList_append, List.mem_append, not_or]
        exact ⟨hslash.1, hnew⟩
      refine ⟨⟨lead, ⟨name ++ String.singleton c, 0⟩ :: above, hlead,
        List.forall_mem_cons.mpr ⟨hlonger, hslash.2⟩,
        List.forall_mem_cons.mpr ⟨append_ne_empty hne.1 _, hne.2⟩, hbetween⟩, ?_⟩
      rw [text, text, spell_zero, spell_zero, String.append_assoc]
    · exact hbegin (List.forall_mem_cons.mpr ⟨Nat.succ_pos n, hbetween⟩)

end Spelling

/-- Absolute paths are the spellings. -/
theorem exists_spelling {path : String} (h : hasPrefix path "/" = true) :
    ∃ spelling : Spelling, path = spelling.text := by
  obtain ⟨rest, rfl⟩ := hasPrefix_iff.mp h
  have hrest : rest = String.ofList rest.toList := String.ofList_toList.symm
  rw [hrest]
  induction rest.toList using List.reverseRecOn with
  | nil => exact ⟨⟨1, [], Nat.one_pos, nofun, nofun, nofun⟩, rfl⟩
  | append_singleton chars c ih =>
      obtain ⟨spelling, hspelling⟩ := ih
      obtain ⟨longer, hlonger⟩ := spelling.exists_concat c
      refine ⟨longer, ?_⟩
      rw [hlonger, ← hspelling, ofList_concat, String.append_assoc]

/-! ## The search -/

section Search

variable {α : Type} {look : String → String → Option α} {file name : String} {lead : Nat} {above : List Part}

/-- A search in which only the path without slashes after a name can be found: it
gets there from an even number of them. -/
theorem searchUp_name (hlead : 0 < lead) (hname : NoSlash name) (hne : name ≠ "")
    (habove : ∀ part ∈ above, 0 < part.slashes)
    (hmiss : ∀ k, look (spell lead (⟨name, k + 1⟩ :: above))
      (candidateIn (spell lead (⟨name, k + 1⟩ :: above)) file) = none) (n : Nat) :
    searchUp look file (spell lead (⟨name, n⟩ :: above)) =
      ((if n % 2 = 0 then look (spell lead (⟨name, 0⟩ :: above))
        (candidateIn (spell lead (⟨name, 0⟩ :: above)) file) else none).map some).or
      (if ∀ c ∈ name.toList, c.toNat ≤ 0xFFFF then searchUp look file (enter lead above) else none) := by
  have hleave {k : Nat} (hk : k ≤ 1) (hnone : look (spell lead (⟨name, k⟩ :: above))
      (candidateIn (spell lead (⟨name, k⟩ :: above)) file) = none) :
      searchUp look file (spell lead (⟨name, k⟩ :: above)) =
        if ∀ c ∈ name.toList, c.toNat ≤ 0xFFFF then searchUp look file (enter lead above) else none := by
    have hparent := parentDir_above hlead hname hne habove hk
    split_ifs at hparent ⊢ with hbmp
    · exact searchUp_parent hnone hparent
    · exact searchUp_abort hnone hparent
  -- two slashes are taken off at a time, one before the search and one to go up
  induction n using Nat.twoStepInduction with
  | zero =>
      rw [if_pos rfl]
      cases hlook : look (spell lead (⟨name, 0⟩ :: above)) (candidateIn (spell lead (⟨name, 0⟩ :: above)) file) with
      | some found =>
          rw [searchUp_found hlook, Option.map_some, Option.some_or]
      | none =>
          rw [hleave (Nat.zero_le 1) hlook, Option.map_none, Option.none_or]
  | one =>
      rw [if_neg (by decide), hleave (Nat.le_refl 1) (hmiss 0), Option.map_none, Option.none_or]
  | more n ih _ =>
      rw [searchUp_parent (hmiss (n + 1)) (parentDir_again hlead hname hne n), ih,
        Nat.add_mod_right]

/-- The same for the root and the slashes a path begins with. -/
theorem searchUp_root
    (hmiss : ∀ k, look (slashes (k + 2)) (candidateIn (slashes (k + 2)) file) = none) (n : Nat) :
    searchUp look file (slashes (n + 1)) =
      some (if n % 2 = 0 then look "/" (candidateIn "/" file) else none) := by
  induction n using Nat.twoStepInduction with
  | zero =>
      have hroot : slashes (0 + 1) = "/" := rfl
      rw [if_pos rfl, hroot]
      cases hlook : look "/" (candidateIn "/" file) with
      | some found => exact searchUp_found hlook
      | none => exact searchUp_top hlook (parentDir_root (Nat.zero_le 1))
  | one =>
      rw [if_neg (by decide)]
      exact searchUp_top (hmiss 0) (parentDir_root (Nat.le_refl 1))
  | more n ih _ => rw [searchUp_parent (hmiss (n + 1)) (parentDir_slashes n), ih, Nat.add_mod_right]

end Search

end Mulp.Cli
