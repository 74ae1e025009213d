import Mathlib.Data.List.Basic

/-! Condition variables of coroutines that are scheduled cooperatively.

A wait puts a waiter at the end of a queue. A signal takes waiters off its front
until it finds one whose coroutine has not left, and wakes that. Waiters are
objects that the queue shares with the waits, so they are referred to by number. -/
namespace CondVar

variable {κ : Type}

/-- A waiter; its coroutine is gone when it has been cancelled while it waited. -/
structure Waiter (κ : Type) where
  woken : Bool
  coro : Option κ
  deriving DecidableEq

/-- A condition variable: the waiters made so far, and the queue. -/
structure Cond (κ : Type) where
  waiters : List (Waiter κ)
  queue : List Nat
  deriving DecidableEq

namespace Cond

def empty : Cond κ := ⟨[], []⟩

/-- The start of a wait, with the number of its waiter. -/
def enqueue (self : Cond κ) (coro : κ) : Nat × Cond κ :=
  (self.waiters.length, ⟨self.waiters ++ [⟨false, some coro⟩], self.queue ++ [self.waiters.length]⟩)

/-- The end of a wait that is cancelled. -/
def leave (self : Cond κ) (waiter : Nat) : Cond κ :=
  { self with waiters := self.waiters.modify waiter fun w => { w with coro := none } }

def wokenAt (self : Cond κ) (waiter : Nat) : Bool := self.waiters[waiter]?.any Waiter.woken

/-- The loop of a signal over the queue: the coroutine to wake, if there is one. -/
def signalFrom (waiters : List (Waiter κ)) : List Nat → Option κ × Cond κ
  | [] => (none, ⟨waiters, []⟩)
  | waiter :: queue =>
      match waiters[waiter]?.bind Waiter.coro with
      | some coro => (some coro, ⟨waiters.modify waiter fun w => { w with woken := true }, queue⟩)
      | none => signalFrom waiters queue

def signal (self : Cond κ) : Option κ × Cond κ := signalFrom self.waiters self.queue

/-- The coroutine waits with the waiter, and no signal has come to it: it is in the queue, and no
other entry of the queue is its own. -/
structure Waits (cond : Cond κ) (waiter : Nat) (coro : κ) : Prop where
  queued : waiter ∈ cond.queue
  present : cond.waiters[waiter]? = some ⟨false, some coro⟩

variable {self : Cond κ} {waiter : Nat} {coro : κ}

theorem waits_enqueue (self : Cond κ) (coro : κ) :
    (self.enqueue coro).2.Waits (self.enqueue coro).1 coro :=
  ⟨List.mem_append_right _ List.mem_cons_self, List.getElem?_concat_length⟩

theorem Waits.not_woken (h : self.Waits waiter coro) : self.wokenAt waiter = false := by
  rw [wokenAt, h.present]
  rfl

/-- A signal with somebody waiting wakes somebody; the waiter it does not come to
goes on waiting. -/
theorem Waits.signal (h : self.Waits waiter coro) :
    (∃ other, self.signal.1 = some other) ∧
      (self.signal.1 = some coro ∧ self.signal.2.wokenAt waiter = true ∨
        self.signal.2.Waits waiter coro) := by
  obtain ⟨hqueued, hpresent⟩ := h
  rw [Cond.signal]
  revert hqueued hpresent
  generalize self.waiters = waiters, self.queue = queue
  intro hqueued hpresent
  induction queue with
  | nil => cases hqueued
  | cons first queue ih =>
      rw [signalFrom]
      by_cases hfirst : first = waiter
      · -- the first in the queue is the one
        subst hfirst
        have hcoro : waiters[first]?.bind Waiter.coro = some coro := by rw [hpresent]; rfl
        simp only [hcoro]
        refine ⟨⟨coro, rfl⟩, .inl ⟨trivial, ?_⟩⟩
        rw [wokenAt, List.getElem?_modify_eq, hpresent]
        rfl
      · have hqueued : waiter ∈ queue := (List.mem_cons.mp hqueued).resolve_left (Ne.symm hfirst)
        cases hother : waiters[first]?.bind Waiter.coro with
        | none => exact ih hqueued
        | some other =>
            refine ⟨⟨other, rfl⟩, .inr ⟨hqueued, ?_⟩⟩
            exact (List.getElem?_modify_ne _ _ hfirst).trans hpresent

/-- The only one that waits is the one that is woken. -/
theorem Waits.signal_alone (h : self.Waits waiter coro) (halone : self.queue = [waiter]) :
    self.signal.1 = some coro ∧ self.signal.2.queue = [] ∧ self.signal.2.wokenAt waiter = true := by
  have hempty : self.signal.2.queue = [] := by
    rw [Cond.signal, halone, signalFrom, h.present]
    rfl
  rcases h.signal.2 with ⟨hcoro, hwoken⟩ | hwaits
  · exact ⟨hcoro, hempty, hwoken⟩
  · have hqueued := hwaits.queued
    rw [hempty] at hqueued
    cases hqueued

theorem signal_nil (h : self.queue = []) : self.signal = (none, self) := by
  obtain ⟨waiters, queue⟩ := self
  cases h
  rfl

end Cond

end CondVar
