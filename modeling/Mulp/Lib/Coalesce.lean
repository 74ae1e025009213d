import Mulp.Lib.Labelled

/-! Running one thing at a time: of what is submitted during a run only the last is kept, or none,
and it is run next. -/
namespace Coalesce

open Labelled

variable {α : Type*}

inductive Op (α : Type*) where
  | submit (x : α)
  | start (x : α)
  | finish

/-- A run is in progress or not, and something is to be run next or not. -/
inductive State (α : Type*) where
  | ready (next : Option α)
  | busy (next : Option α)

def State.next : State α → Option α
  | ready next => next
  | busy next => next

inductive Step (keep : Bool) : State α → Op α → State α → Prop where
  | submit (x : α) : Step keep (.ready none) (.submit x) (.ready (some x))
  | start (x : α) : Step keep (.ready (some x)) (.start x) (.busy none)
  | keep (next : Option α) (x : α) : keep = true →
      Step keep (.busy next) (.submit x) (.busy (some x))
  | drop (next : Option α) (x : α) : keep = false →
      Step keep (.busy next) (.submit x) (.busy next)
  | finish (next : Option α) : Step keep (.busy next) .finish (.ready next)

variable {keep : Bool} {before after mid trace : List (Op α)} {x y : α} {s s' : State α}

/-- Where nothing is kept, nothing is to be run after the run in progress. -/
theorem run_dropping (h : Run (Step keep) trace (.ready none) s) (hkeep : keep = false) :
    ∀ next, s = .busy next → next = none := by
  refine h.rule (P := fun _ s => ∀ next, s = .busy next → next = none) ?_ ?_
  · rintro next ⟨⟩
  · intro trace mid op later ih hstep next hnext
    cases hstep with
    | submit x => cases hnext
    | start x =>
        cases hnext
        rfl
    | keep q x htrue =>
        rw [hkeep] at htrue
        cases htrue
    | drop q x _ => exact ih next hnext
    | finish q => cases hnext

/-- What is to be run next was submitted last, and since then a run may have ended. -/
theorem run_next (h : Run (Step keep) trace (.ready none) s) : ∀ x, s.next = some x →
    ∃ before, trace = before ++ [.submit x] ∨
      s = .ready (some x) ∧ trace = before ++ [.submit x, .finish] := by
  induction trace using List.reverseRecOn generalizing s with
  | nil =>
      obtain rfl : State.ready none = s := h
      rintro x ⟨⟩
  | append_singleton trace op ih =>
      obtain ⟨mid, hrun, hstep⟩ := run_concat.mp h
      intro x hnext
      cases hstep with
      | submit y =>
          cases hnext
          exact ⟨trace, .inl rfl⟩
      | start y => cases hnext
      | keep q y hkeep =>
          cases hnext
          exact ⟨trace, .inl rfl⟩
      | drop q y hdrop =>
          obtain rfl : q = some x := hnext
          cases run_dropping hrun hdrop _ rfl
      | finish q =>
          obtain rfl : q = some x := hnext
          obtain ⟨before, rfl | ⟨hready, -⟩⟩ := ih hrun x rfl
          · exact ⟨before, .inr ⟨rfl, by simp⟩⟩
          · cases hready

/-- What is run was submitted last, before the end of the run before it or after. -/
theorem submit_of_start (h : Run (Step keep) (before ++ .start x :: after) (.ready none) s) :
    ∃ earlier, before = earlier ++ [.submit x] ∨ before = earlier ++ [.submit x, .finish] := by
  obtain ⟨mid, hbefore, next, hstep, -⟩ := run_append.mp h
  cases hstep with
  | start =>
      obtain ⟨earlier, hsplit | ⟨-, hsplit⟩⟩ := run_next hbefore x rfl
      · exact ⟨earlier, .inl hsplit⟩
      · exact ⟨earlier, .inr hsplit⟩

/-- Of what is kept, nothing is lost: once nothing is to be run any more, something has been run
since. -/
theorem started_of_submit (h : Run (Step true) (before ++ .submit x :: after) (.ready none) s)
    (hs : s.next = none) : ∃ y, .start y ∈ after := by
  obtain ⟨mid, -, next, hstep, hafter⟩ := run_append.mp h
  have hnext : next.next ≠ none := by
    cases hstep with
    | submit => simp [State.next]
    | keep q _ _ => simp [State.next]
    | drop q _ hdrop => cases hdrop
  have hkept (mid : State α) (op : Op α) (later : State α) (hmid : mid.next ≠ none)
      (hop : ¬ ∃ y, op = .start y) (hstep : Step true mid op later) : later.next ≠ none := by
    cases hstep with
    | submit y => simp [State.next]
    | start y => exact absurd ⟨y, rfl⟩ hop
    | keep q y _ => simp [State.next]
    | drop q y hdrop => cases hdrop
    | finish q => exact hmid
  obtain ⟨op, hop, y, rfl⟩ := hafter.exists_label hkept hnext (by simpa using hs)
  exact ⟨y, hop⟩

/-- Between two runs the first of them ends. -/
theorem finish_between
    (h : Run (Step keep) (before ++ .start x :: mid ++ .start y :: after) s s') :
    .finish ∈ mid := by
  obtain ⟨busy, hbefore, next, hstep, -⟩ := run_append.mp h
  obtain ⟨idle, -, running, hstart, hmid⟩ := run_append.mp hbefore
  have hbusy : ∃ q, running = .busy q := by
    cases hstart with
    | start => exact ⟨none, rfl⟩
  have hready : ¬ ∃ q, busy = .busy q := by
    cases hstep with
    | start =>
        rintro ⟨q, ⟨⟩⟩
  have hkept (mid : State α) (op : Op α) (later : State α) (hmid : ∃ q, mid = .busy q)
      (hop : op ≠ .finish) (hstep : Step keep mid op later) : ∃ q, later = .busy q := by
    obtain ⟨q, rfl⟩ := hmid
    cases hstep with
    | keep _ y _ => exact ⟨some y, rfl⟩
    | drop _ y _ => exact ⟨q, rfl⟩
    | finish _ => exact absurd rfl hop
  obtain ⟨op, hop, hfinish⟩ := hmid.exists_label hkept hbusy hready
  exact hfinish ▸ hop

end Coalesce
