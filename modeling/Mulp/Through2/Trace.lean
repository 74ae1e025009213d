import Mathlib.Data.List.Induction
import Mulp.Through2.State

/-! What the events of an adapter may be, in which order.

The order is told by what may come after given events, one condition for each kind of
event; a log is legal if each of its events was allowed. So that a log stays legal is to
be shown of the last event only. -/
namespace Mulp.Through2

open Mulp.Core Pull

variable {α : Type}

namespace Event

/-- The items a callback produced. -/
def outputs : Event α → List α
  | .mapped _ (.ok xs) => xs
  | .flushed (.ok xs) => xs
  | _ => []

def item : Event α → List α
  | .delivered x => [x]
  | _ => []

/-- The answer of the upstream. -/
def answer : Event α → List (Reply MulpError α)
  | .mapped x _ => [.ok (some x)]
  | .ended => [.ok none]
  | .failed err => [.error err]
  | _ => []

/-- The reply to the reader. -/
def reply : Event α → List (Reply MulpError α)
  | .delivered x => [.ok (some x)]
  | .mapped _ (.error err) => [.error err]
  | .failed err => [.error err]
  | .flushed (.error err) => [.error err]
  | .finished => [.ok none]
  | _ => []

/-- The first failure, the end, or the close: what comes after it is at most a close. -/
def isLast : Event α → Bool
  | .mapped _ (.error _) => true
  | .failed _ => true
  | .flushed (.error _) => true
  | .finished => true
  | .closed => true
  | _ => false

end Event

def produced (es : List (Event α)) : List α := es.flatMap Event.outputs
def delivered (es : List (Event α)) : List α := es.flatMap Event.item
def answered (es : List (Event α)) : List (Reply MulpError α) := es.flatMap Event.answer
def replied (es : List (Event α)) : List (Reply MulpError α) := es.flatMap Event.reply

/-- Nothing has failed, ended or been closed. After any of these a log gets no further events but
that of a `close`. -/
def Live (es : List (Event α)) : Prop := ∀ e ∈ es, e.isLast = false

/-- No produced item is pending: the delivered items are always the first ones of those that were
produced, so it is enough that they are as many. -/
def Idle (es : List (Event α)) : Prop := delivered es = produced es

/-- What must have happened before an event:
* the upstream is pulled when nothing is pending and it has not ended;
* its answer, with that of `flat_map`, comes right after the pull;
* `flush` is called once, when the upstream has ended and nothing is pending;
* items are handed out in the order they were produced;
* the end is reported when `flush` has answered and nothing is pending;
* nothing but a close follows a failure or the end, and nothing follows a close. -/
def Allowed (before : List (Event α)) : Event α → Prop
  | .pull => Live before ∧ Idle before ∧ .ended ∉ before
  | .mapped _ _ => ∃ earlier, before = earlier ++ [.pull]
  | .ended => ∃ earlier, before = earlier ++ [.pull]
  | .failed _ => ∃ earlier, before = earlier ++ [.pull]
  | .flushed _ => Live before ∧ Idle before ∧ .ended ∈ before ∧ ∀ r, .flushed r ∉ before
  | .delivered x => Live before ∧ delivered before ++ [x] <+: produced before
  | .finished => Live before ∧ Idle before ∧ ∃ xs, .flushed (.ok xs) ∈ before
  | .closed => .closed ∉ before

def Legal (es : List (Event α)) : Prop :=
  ∀ before e after, es = before ++ e :: after → Allowed before e

theorem Legal.nil : Legal ([] : List (Event α)) := by
  intro before e after h
  cases before <;> cases h

theorem Legal.snoc {es : List (Event α)} (h : Legal es) {e : Event α} (he : Allowed es e) :
    Legal (es ++ [e]) := by
  intro before e' after heq
  rcases List.eq_nil_or_concat after with rfl | ⟨after, last, rfl⟩
  · obtain ⟨rfl, hlast⟩ := List.append_inj' heq rfl
    cases hlast
    exact he
  · rw [List.concat_eq_append, ← List.cons_append, ← List.append_assoc] at heq
    exact h before e' after (List.append_inj' heq rfl).1

theorem Live.snoc {es : List (Event α)} (h : Live es) {e : Event α} (he : e.isLast = false) :
    Live (es ++ [e]) := by
  intro e' he'
  rcases List.mem_append.mp he' with he' | he'
  · exact h e' he'
  · rw [List.mem_singleton.mp he']
    exact he

theorem Live.closed_not_mem {es : List (Event α)} (h : Live es) : Event.closed ∉ es := by
  intro hmem
  cases h _ hmem

/-- A pull with the answer after it. -/
theorem Legal.pull_answer {es : List (Event α)} (h : Legal es) (hlive : Live es) (hidle : Idle es)
    (hended : .ended ∉ es) {e : Event α} (he : ∀ es : List (Event α), Allowed (es ++ [.pull]) e) :
    Legal (es ++ [.pull, e]) := by
  have hpull : Legal (es ++ [.pull]) := h.snoc ⟨hlive, hidle, hended⟩
  have hanswer := hpull.snoc (he es)
  rwa [List.append_assoc] at hanswer

/-! ## What legal events mean -/

theorem Legal.before {es before after : List (Event α)} (h : Legal es)
    (heq : es = before ++ after) :
    Legal before := by
  intro b e a hb
  exact h b e (a ++ after) (by rw [heq, hb]; simp)

/-- Items are delivered in the order they were produced, none before. -/
theorem Legal.delivered_prefix {es : List (Event α)} (h : Legal es) :
    delivered es <+: produced es := by
  induction es using List.reverseRecOn with
  | nil => exact List.prefix_refl _
  | append_singleton es e ih =>
      have hes : delivered es <+: produced es := ih (h.before rfl)
      have he : Allowed es e := h es e [] rfl
      have hproduced : produced es <+: produced (es ++ [e]) := by simp [produced]
      by_cases hitem : ∃ x, e = .delivered x
      · obtain ⟨x, rfl⟩ := hitem
        have hnext : delivered es ++ [x] <+: produced es := he.2
        simpa [delivered, produced, Event.item, Event.outputs] using hnext
      · have hsame : delivered (es ++ [e]) = delivered es := by
          cases e <;> simp [delivered, Event.item] at hitem ⊢
        rw [hsame]
        exact hes.trans hproduced

/-- Whatever comes after an event of a legal trace that is not the last word,
nothing has failed, ended or been closed before it. -/
theorem Legal.live_before {es before after : List (Event α)} {e : Event α} (h : Legal es)
    (heq : es = before ++ e :: after) (he : e ≠ .closed) : Live before := by
  have hallowed := h before e after heq
  have hanswer (hpull : ∃ earlier, before = earlier ++ [.pull]) : Live before := by
    obtain ⟨earlier, rfl⟩ := hpull
    have hbefore := h earlier .pull (e :: after) (by rw [heq]; simp)
    exact hbefore.1.snoc rfl
  cases e with
  | pull => exact hallowed.1
  | mapped => exact hanswer hallowed
  | ended => exact hanswer hallowed
  | failed => exact hanswer hallowed
  | flushed => exact hallowed.1
  | delivered => exact hallowed.1
  | finished => exact hallowed.1
  | closed => exact absurd rfl he

end Mulp.Through2
