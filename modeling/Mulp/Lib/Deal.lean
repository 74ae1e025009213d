import Mathlib.Data.List.Basic

/-! A list dealt out to two lists, each of which keeps its order.

Which of the two an element goes to is left open, so that a list may be dealt out in
several ways. -/

inductive Deal {α : Type} : List α → List α → List α → Prop where
  | nil : Deal [] [] []
  | left {l first second : List α} (x : α) (h : Deal l first second) :
      Deal (x :: l) (x :: first) second
  | right {l first second : List α} (x : α) (h : Deal l first second) :
      Deal (x :: l) first (x :: second)

namespace Deal

variable {α : Type} {l first second : List α} {x : α}

theorem mem_iff (h : Deal l first second) : x ∈ l ↔ x ∈ first ∨ x ∈ second := by
  induction h with
  | nil => simp
  | left y _ ih => simp [ih, or_assoc]
  | right y _ ih => simp [ih, or_left_comm]

/-- Those elements of a list that pass a test are dealt out too. -/
protected theorem filter (h : Deal l first second) (q : α → Bool) :
    Deal (l.filter q) (first.filter q) (second.filter q) := by
  induction h with
  | nil => exact .nil
  | left x _ ih =>
      by_cases hx : q x = true
      · rw [List.filter_cons_of_pos hx, List.filter_cons_of_pos hx]
        exact .left x ih
      · rw [List.filter_cons_of_neg hx, List.filter_cons_of_neg hx]
        exact ih
  | right x _ ih =>
      by_cases hx : q x = true
      · rw [List.filter_cons_of_pos hx, List.filter_cons_of_pos hx]
        exact .right x ih
      · rw [List.filter_cons_of_neg hx, List.filter_cons_of_neg hx]
        exact ih

theorem of_nil (h : Deal [] first second) : first = [] ∧ second = [] := by
  cases h
  exact ⟨rfl, rfl⟩

/-- A single element goes one way or the other. -/
theorem of_singleton (h : Deal [x] first second) :
    first = [x] ∧ second = [] ∨ first = [] ∧ second = [x] := by
  cases h with
  | left _ h =>
      obtain ⟨rfl, rfl⟩ := h.of_nil
      exact .inl ⟨rfl, rfl⟩
  | right _ h =>
      obtain ⟨rfl, rfl⟩ := h.of_nil
      exact .inr ⟨rfl, rfl⟩

end Deal
