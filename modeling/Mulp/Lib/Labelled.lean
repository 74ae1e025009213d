import Mathlib.Data.List.Basic
import Mathlib.Data.List.Induction

/-! Relations of labelled steps, and runs of them.

A run is a list of labels that leads from one state to another. It can be taken apart at
any point, which is what the lemmas are about. -/
namespace Labelled

variable {σ ε : Type*} {step : σ → ε → σ → Prop} {s s' : σ} {first second : List ε} {e : ε}

def Run (step : σ → ε → σ → Prop) : List ε → σ → σ → Prop
  | [], s, s' => s = s'
  | e :: trace, s, s' => ∃ mid, step s e mid ∧ Run step trace mid s'

theorem run_append : Run step (first ++ second) s s' ↔
    ∃ mid, Run step first s mid ∧ Run step second mid s' := by
  induction first generalizing s with
  | nil => simp [Run]
  | cons e first ih =>
      simp only [List.cons_append, Run, ih]
      constructor
      · rintro ⟨next, hstep, mid, hfirst, hsecond⟩
        exact ⟨mid, ⟨next, hstep, hfirst⟩, hsecond⟩
      · rintro ⟨mid, ⟨next, hstep, hfirst⟩, hsecond⟩
        exact ⟨next, hstep, mid, hfirst, hsecond⟩

theorem run_concat : Run step (first ++ [e]) s s' ↔ ∃ mid, Run step first s mid ∧ step mid e s' := by
  rw [run_append]
  simp [Run]

theorem Run.concat {mid : σ} (h : Run step first s mid) (hstep : step mid e s') :
    Run step (first ++ [e]) s s' := run_concat.mpr ⟨mid, h, hstep⟩

/-- What holds of the trace so far and the state that it leads to. -/
theorem Run.rule {P : List ε → σ → Prop} (hnil : P [] s)
    (hstep : ∀ trace mid e next, P trace mid → step mid e next → P (trace ++ [e]) next)
    {trace : List ε} (h : Run step trace s s') : P trace s' := by
  induction trace using List.reverseRecOn generalizing s' with
  | nil =>
      obtain rfl : s = s' := h
      exact hnil
  | append_singleton trace e ih =>
      obtain ⟨mid, hrun, hlast⟩ := run_concat.mp h
      exact hstep trace mid e s' (ih hrun) hlast

/-- What holds until a label of some kind, if none of it holds in the end. -/
theorem Run.exists_label {holds : σ → Prop} {label : ε → Prop}
    (hstep : ∀ mid e next, holds mid → ¬ label e → step mid e next → holds next) {trace : List ε}
    (h : Run step trace s s') (hs : holds s) (hs' : ¬ holds s') : ∃ e ∈ trace, label e := by
  induction trace generalizing s with
  | nil =>
      obtain rfl : s = s' := h
      exact absurd hs hs'
  | cons e trace ih =>
      obtain ⟨mid, hfirst, hrest⟩ := h
      by_cases hlabel : label e
      · exact ⟨e, List.mem_cons_self, hlabel⟩
      · obtain ⟨later, hlater, hlaterLabel⟩ := ih hrest (hstep s e mid hs hlabel hfirst)
        exact ⟨later, List.mem_cons_of_mem e hlater, hlaterLabel⟩

end Labelled
