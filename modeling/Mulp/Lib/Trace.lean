import Mathlib.Data.List.Basic
import Mathlib.Data.List.Induction

/-! What has happened in a run, told from its events.

An event of one kind has happened since the last event of another kind. Whether
an event is of the first kind may depend on the events before it. -/
namespace Trace

variable {ε : Type*} {holds : List ε → ε → Prop} {ends : ε → Prop} {trace : List ε}

def Since (holds : List ε → ε → Prop) (ends : ε → Prop) (trace : List ε) : Prop :=
  ∃ before event after, trace = before ++ event :: after ∧ holds before event ∧
    ∀ other ∈ after, ¬ ends other

theorem not_since_nil : ¬ Since holds ends [] := by
  rintro ⟨before, event, after, h, -⟩
  cases before <;> cases h

/-- The last event decides, or leaves it as it was. -/
theorem since_concat (event : ε) :
    Since holds ends (trace ++ [event]) ↔
      holds trace event ∨ ¬ ends event ∧ Since holds ends trace := by
  constructor
  · rintro ⟨before, last, after, hsplit, hlast, hafter⟩
    rcases List.eq_nil_or_concat' after with rfl | ⟨more, other, rfl⟩
    · obtain ⟨rfl, heq⟩ := List.append_inj' hsplit rfl
      cases heq
      exact .inl hlast
    · rw [← List.cons_append, ← List.append_assoc] at hsplit
      obtain ⟨rfl, heq⟩ := List.append_inj' hsplit rfl
      cases heq
      exact .inr ⟨hafter event (by simp), before, last, more, rfl, hlast, fun other hmem =>
        hafter other (List.mem_append_left _ hmem)⟩
  · rintro (hevent | ⟨hend, before, last, after, rfl, hlast, hafter⟩)
    · exact ⟨trace, event, [], rfl, hevent, nofun⟩
    · refine ⟨before, last, after ++ [event], by simp, hlast, fun other hmem => ?_⟩
      rcases List.mem_append.mp hmem with hmem | hmem
      · exact hafter other hmem
      · rw [List.mem_singleton.mp hmem]
        exact hend

/-- The event is of the first kind. -/
theorem since_of_holds {event : ε} (h : holds trace event) : Since holds ends (trace ++ [event]) :=
  (since_concat event).mpr (.inl h)

/-- The event is of the second kind only. -/
theorem not_since_of_ends {event : ε} (h : ¬ holds trace event) (hend : ends event) :
    ¬ Since holds ends (trace ++ [event]) := by
  rw [since_concat]
  rintro (hevent | ⟨hnot, -⟩)
  · exact h hevent
  · exact hnot hend

/-- The event is of neither kind. -/
theorem since_iff_of_neither {event : ε} (h : ¬ holds trace event) (hend : ¬ ends event) :
    Since holds ends (trace ++ [event]) ↔ Since holds ends trace := by
  rw [since_concat]
  exact ⟨fun h' => (h'.resolve_left h).2, fun h' => .inr ⟨hend, h'⟩⟩

section Constant

variable {holds : ε → Prop}

/-- Every event that ends is of the first kind, and there is one of them. -/
theorem since_of_forall (hsome : ∃ event ∈ trace, holds event)
    (h : ∀ event ∈ trace, ends event → holds event) : Since (fun _ => holds) ends trace := by
  induction trace using List.reverseRecOn with
  | nil =>
      obtain ⟨event, hevent, -⟩ := hsome
      cases hevent
  | append_singleton trace last ih =>
      rw [since_concat]
      by_cases hend : ends last
      · exact .inl (h last (by simp) hend)
      · rw [or_iff_not_imp_left]
        intro hlast
        refine ⟨hend, ih ?_ fun event hevent => h event (List.mem_append_left _ hevent)⟩
        obtain ⟨event, hevent, hholds⟩ := hsome
        rcases List.mem_append.mp hevent with hevent | hevent
        · exact ⟨event, hevent, hholds⟩
        · rw [List.mem_singleton.mp hevent] at hholds
          exact absurd hholds hlast

/-- Where no event of the first kind comes after one that only ends, the order does not matter. -/
theorem since_iff_of_pairwise
    (hordered : trace.Pairwise fun event later => holds later → ends event → holds event) :
    Since (fun _ => holds) ends trace ↔
      (∃ event ∈ trace, holds event) ∧ ∀ event ∈ trace, ends event → holds event := by
  constructor
  · rintro ⟨before, event, after, rfl, hevent, hafter⟩
    refine ⟨⟨event, by simp, hevent⟩, fun other hother hend => ?_⟩
    rcases List.mem_append.mp hother with hbefore | hother
    · have hcross := (List.pairwise_append.mp hordered).2.2 other hbefore event List.mem_cons_self
      exact hcross hevent hend
    · rcases List.mem_cons.mp hother with rfl | hother
      · exact hevent
      · exact absurd hend (hafter other hother)
  · intro h
    exact since_of_forall h.1 h.2

end Constant

end Trace
