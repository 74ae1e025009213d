import Mulp.Lib.Labelled

/-! Debouncing: the last of what is fed is released once nothing has been fed for long enough. -/
namespace Debounce

open Labelled

variable {α τ : Type*}

inductive Op (α τ : Type*) where
  | feed (x : α) (time : τ)
  | release (x : α) (time : τ)
  | wait (time : τ)

/-- What is pending was fed at a time, and may be due at another. -/
inductive Step (due : τ → τ → Prop) : Option (α × τ) → Op α τ → Option (α × τ) → Prop where
  | feed (pending : Option (α × τ)) (x : α) (time : τ) :
      Step due pending (.feed x time) (some (x, time))
  | release {x : α} {fed time : τ} : due fed time → Step due (some (x, fed)) (.release x time) none
  | wait {pending : Option (α × τ)} {time : τ} : (∀ fed ∈ pending, ¬ due fed.2 time) →
      Step due pending (.wait time) pending

variable {due : τ → τ → Prop} {before after trace : List (Op α τ)} {x : α} {fed time : τ}
  {pending : Option (α × τ)}

/-- Nothing has come since but vain tries to release it; so what was fed last is still what is
pending. -/
def Waits (due : τ → τ → Prop) (fed : τ) (ops : List (Op α τ)) : Prop :=
  ∀ op ∈ ops, ∃ time, op = .wait time ∧ ¬ due fed time

theorem run_pending (h : Run (Step due) trace none pending) :
    ∀ x fed, pending = some (x, fed) →
      ∃ before after, trace = before ++ .feed x fed :: after ∧ Waits due fed after := by
  refine h.rule (P := fun trace pending => ∀ x fed, pending = some (x, fed) →
    ∃ before after, trace = before ++ .feed x fed :: after ∧ Waits due fed after) ?_ ?_
  · rintro x fed ⟨⟩
  · intro trace mid op next ih hstep x fed hnext
    cases hstep with
    | feed y time =>
        cases hnext
        exact ⟨trace, [], rfl, by simp [Waits]⟩
    | release hdue => cases hnext
    | @wait pending time hnot =>
        obtain ⟨before, after, rfl, hafter⟩ := ih x fed hnext
        refine ⟨before, after ++ [.wait time], by simp, ?_⟩
        intro op hop
        rcases List.mem_append.mp hop with hop | hop
        · exact hafter op hop
        · exact ⟨time, List.mem_singleton.mp hop, hnot (x, fed) hnext⟩

/-- What is released was fed last, and it is due. -/
theorem fed_of_release (h : Run (Step due) (before ++ .release x time :: after) none pending) :
    ∃ earlier fed waits, before = earlier ++ .feed x fed :: waits ∧ Waits due fed waits ∧
      due fed time := by
  obtain ⟨mid, hbefore, next, hstep, -⟩ := run_append.mp h
  cases hstep with
  | release hdue =>
      obtain ⟨earlier, waits, hsplit, hwaits⟩ := run_pending hbefore x _ rfl
      exact ⟨earlier, _, waits, hsplit, hwaits, hdue⟩

/-- What has been fed leads to a release, or something is pending. -/
theorem released_of_feed (h : Run (Step due) (before ++ .feed x fed :: after) none none) :
    ∃ y time, .release y time ∈ after := by
  obtain ⟨mid, -, next, hstep, hafter⟩ := run_append.mp h
  cases hstep with
  | feed =>
      have hkept (mid : Option (α × τ)) (op : Op α τ) (next : Option (α × τ)) (hmid : mid ≠ none)
          (hop : ¬ ∃ y time, op = .release y time) (hstep : Step due mid op next) : next ≠ none := by
        cases hstep with
        | feed y time => simp
        | release hdue => exact absurd ⟨_, _, rfl⟩ hop
        | wait hnot => exact hmid
      obtain ⟨op, hop, y, time, rfl⟩ := hafter.exists_label hkept (by simp) (by simp)
      exact ⟨y, time, hop⟩

theorem run_waits (h : Run (Step due) trace (some (x, fed)) pending)
    (hwaits : ∀ op ∈ trace, ∃ time, op = .wait time) : pending = some (x, fed) := by
  induction trace with
  | nil => exact h.symm
  | cons op trace ih =>
      obtain ⟨next, hstep, hrest⟩ := h
      obtain ⟨time, rfl⟩ := hwaits op List.mem_cons_self
      cases hstep with
      | wait hnot => exact ih hrest fun op hop => hwaits op (List.mem_cons_of_mem _ hop)

end Debounce
