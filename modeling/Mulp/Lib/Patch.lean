import Mathlib.Data.List.Basic
import Mathlib.Logic.Function.Basic

/-! What is known at the keys of a store, and edits of it one key at a time.

An edit changes nothing at the other keys, so that what a list of edits leaves at
a key is told from the edits of that key alone. -/
namespace Patch

variable {κ ν : Type}

/-- What is known at each key. -/
abbrev View (κ ν : Type) := κ → Option ν

inductive Edit (κ ν : Type) where
  | put (key : κ) (value : ν)
  | drop (key : κ)
  deriving DecidableEq

namespace Edit

def key : Edit κ ν → κ
  | put key _ => key
  | drop key => key

/-- What is at the key after the edit. -/
def value : Edit κ ν → Option ν
  | put _ value => some value
  | drop _ => none

end Edit

variable [DecidableEq κ]

def apply (view : View κ ν) (edit : Edit κ ν) : View κ ν :=
  Function.update view edit.key edit.value

def replay (view : View κ ν) (edits : List (Edit κ ν)) : View κ ν := edits.foldl apply view

/-- The last of the edits, all of one key, says what is there. -/
def settle (before : Option ν) (edits : List (Edit κ ν)) : Option ν :=
  edits.foldl (fun _ edit => edit.value) before

variable {view view' : View κ ν} {k : κ}

@[simp] theorem replay_nil : replay view [] = view := rfl

@[simp] theorem replay_cons (edit : Edit κ ν) (edits : List (Edit κ ν)) :
    replay view (edit :: edits) = replay (apply view edit) edits := rfl

theorem replay_append (first second : List (Edit κ ν)) :
    replay view (first ++ second) = replay (replay view first) second := List.foldl_append

omit [DecidableEq κ] in
@[simp] theorem settle_nil (before : Option ν) : settle (κ := κ) before [] = before := rfl

omit [DecidableEq κ] in
@[simp] theorem settle_cons (before : Option ν) (edit : Edit κ ν) (edits : List (Edit κ ν)) :
    settle before (edit :: edits) = settle edit.value edits := rfl

theorem apply_of_eq {edit : Edit κ ν} (h : edit.key = k) : apply view edit k = edit.value := by
  rw [apply, h, Function.update_self]

theorem apply_of_ne {edit : Edit κ ν} (h : edit.key ≠ k) : apply view edit k = view k :=
  Function.update_of_ne (Ne.symm h) _ _

/-- What is at a key after some edits comes from those of the key. -/
theorem replay_at (view : View κ ν) (edits : List (Edit κ ν)) (k : κ) :
    replay view edits k = settle (view k) (edits.filter (·.key = k)) := by
  induction edits generalizing view with
  | nil => rfl
  | cons edit edits ih =>
      rw [replay_cons, ih]
      by_cases h : edit.key = k
      · simp [h, apply_of_eq h]
      · simp [h, apply_of_ne h]

/-- Edits of other keys leave a key as it is. -/
theorem replay_of_ne {edits : List (Edit κ ν)} (h : ∀ edit ∈ edits, edit.key ≠ k) :
    replay view edits k = view k := by
  have hnone : edits.filter (·.key = k) = [] := by
    rw [List.filter_eq_nil_iff]
    intro edit hedit
    simpa using h edit hedit
  rw [replay_at, hnone, settle_nil]

end Patch
