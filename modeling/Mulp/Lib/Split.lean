import Mathlib.Data.List.Basic
import Mathlib.Data.List.Forall2

/-! Patterns that are matched by splitting.

A list is matched by a pattern when it can be split into as many parts as the
pattern has elements, so that each element covers its part. -/
namespace Split

variable {α β : Type*} (covers : α → List β → Prop)

def Splits (pattern : List α) (value : List β) : Prop :=
  ∃ parts, List.Forall₂ covers pattern parts ∧ parts.flatten = value

variable {covers} {a : α} {pattern : List α} {value : List β}

theorem splits_nil : Splits covers [] value ↔ value = [] := by
  constructor
  · rintro ⟨parts, h, rfl⟩
    cases h
    rfl
  · rintro rfl
    exact ⟨[], .nil, rfl⟩

theorem splits_cons : Splits covers (a :: pattern) value ↔
    ∃ first rest, first ++ rest = value ∧ covers a first ∧ Splits covers pattern rest := by
  constructor
  · rintro ⟨parts, h, rfl⟩
    cases h with
    | cons hfirst hrest => exact ⟨_, _, rfl, hfirst, _, hrest, rfl⟩
  · rintro ⟨first, rest, rfl, hfirst, parts, hrest, rfl⟩
    exact ⟨first :: parts, .cons hfirst hrest, rfl⟩

theorem splits_append {front back : List α} : Splits covers (front ++ back) value ↔
    ∃ first rest, first ++ rest = value ∧ Splits covers front first ∧ Splits covers back rest := by
  induction front generalizing value with
  | nil =>
      constructor
      · intro h
        exact ⟨[], value, rfl, splits_nil.mpr rfl, h⟩
      · rintro ⟨first, rest, rfl, hfirst, hrest⟩
        rw [splits_nil.mp hfirst]
        exact hrest
  | cons a front ih =>
      rw [List.cons_append, splits_cons]
      constructor
      · rintro ⟨part, others, rfl, hpart, hothers⟩
        obtain ⟨first, rest, rfl, hfirst, hrest⟩ := ih.mp hothers
        exact ⟨part ++ first, rest, List.append_assoc ..,
          splits_cons.mpr ⟨part, first, rfl, hpart, hfirst⟩, hrest⟩
      · rintro ⟨_, rest, rfl, hfront, hrest⟩
        obtain ⟨part, first, rfl, hpart, hfirst⟩ := splits_cons.mp hfront
        exact ⟨part, first ++ rest, (List.append_assoc ..).symm, hpart,
          ih.mpr ⟨first, rest, rfl, hfirst, hrest⟩⟩

/-- A stretch of a pattern can be replaced by one that matches the same. -/
theorem splits_congr {front mid other back : List α}
    (h : ∀ v, Splits covers mid v ↔ Splits covers other v) :
    Splits covers (front ++ mid ++ back) value ↔ Splits covers (front ++ other ++ back) value := by
  simp only [splits_append, h]

/-- An element that covers everything. -/
theorem splits_any (h : ∀ part, covers a part) :
    Splits covers (a :: pattern) value ↔ ∃ rest, rest <:+ value ∧ Splits covers pattern rest := by
  rw [splits_cons]
  constructor
  · rintro ⟨first, rest, hvalue, -, hrest⟩
    exact ⟨rest, ⟨first, hvalue⟩, hrest⟩
  · rintro ⟨rest, ⟨first, hvalue⟩, hrest⟩
    exact ⟨first, rest, hvalue, h first, hrest⟩

theorem splits_any_singleton (h : ∀ part, covers a part) : Splits covers [a] value :=
  (splits_any h).mpr ⟨[], List.nil_suffix, splits_nil.mpr rfl⟩

theorem splits_singleton : Splits covers [a] value ↔ covers a value := by
  simp only [splits_cons, splits_nil]
  constructor
  · rintro ⟨first, rest, rfl, hfirst, rfl⟩
    rwa [List.append_nil]
  · exact fun h => ⟨value, [], List.append_nil value, h, rfl⟩

/-- A second element that covers everything adds nothing. -/
theorem splits_any_twice (h : ∀ part, covers a part) :
    Splits covers [a, a] value ↔ Splits covers [a] value :=
  iff_of_true ((splits_any h).mpr ⟨[], List.nil_suffix, splits_any_singleton h⟩) (splits_any_singleton h)

/-- An element that covers one of the values. -/
theorem splits_one {r : β → Prop} (h : ∀ part, covers a part ↔ ∃ b, part = [b] ∧ r b) :
    Splits covers (a :: pattern) value ↔
      ∃ b rest, value = b :: rest ∧ r b ∧ Splits covers pattern rest := by
  rw [splits_cons]
  constructor
  · rintro ⟨first, rest, rfl, hfirst, hrest⟩
    obtain ⟨b, rfl, hb⟩ := (h first).mp hfirst
    exact ⟨b, rest, rfl, hb, hrest⟩
  · rintro ⟨b, rest, rfl, hb, hrest⟩
    exact ⟨[b], rest, rfl, (h [b]).mpr ⟨b, rfl, hb⟩, hrest⟩

end Split
