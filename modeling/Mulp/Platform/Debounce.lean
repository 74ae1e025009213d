import Mulp.Lib.Debounce

/-! The debouncer (`platform/debounce.mbt`), and what it has answered.

It keeps one deadline, which each push puts off. Time is given with the calls, in
milliseconds of 64 bits, and the deadline may wrap around. -/
namespace Mulp.Platform

open Labelled

structure Debouncer where
  delayMs : Int64
  deadlineMs : Option Int64
  deriving DecidableEq

def debouncer (delayMs : Int64) : Debouncer := ⟨delayMs, none⟩

namespace Debouncer

def push (self : Debouncer) (nowMs : Int64) : Debouncer :=
  { self with deadlineMs := some (nowMs + self.delayMs) }

def takeReady (self : Debouncer) (nowMs : Int64) : Bool × Debouncer :=
  match self.deadlineMs with
  | some deadline => if nowMs ≥ deadline then (true, { self with deadlineMs := none }) else (false, self)
  | none => (false, self)

inductive Call where
  | push (nowMs : Int64)
  | takeReady (nowMs : Int64)

/-- A call that has returned. -/
inductive Past where
  | pushed (nowMs : Int64)
  | took (nowMs : Int64) (ready : Bool)
  deriving DecidableEq

def call (self : Debouncer) : Call → Past × Debouncer
  | .push nowMs => (.pushed nowMs, self.push nowMs)
  | .takeReady nowMs => (.took nowMs (self.takeReady nowMs).1, (self.takeReady nowMs).2)

/-- The calls one after the other, and what has become of them. -/
def run (self : Debouncer) : List Call → List Past
  | [] => []
  | c :: calls => (self.call c).1 :: run (self.call c).2 calls

/-! ## The debouncer as such -/

open Debounce

/-- Time goes on as the code reckons it, with an overflow: the deadline is a sum of 64 bits, and a
time counts as late if it is no less than that as a signed number. -/
def Due (delayMs pushed now : Int64) : Prop := now ≥ pushed + delayMs

def Past.op : Past → Op Unit Int64
  | pushed nowMs => .feed () nowMs
  | took nowMs true => .release () nowMs
  | took nowMs false => .wait nowMs

/-- What is pending has set the deadline: the fields of the debouncer are those of the abstract one,
which keeps the time of the last push. -/
def Holds (delayMs : Int64) (pending : Option (Unit × Int64)) (self : Debouncer) : Prop :=
  self = ⟨delayMs, pending.map fun fed => fed.2 + delayMs⟩

variable {delayMs nowMs pushed : Int64} {pending : Option (Unit × Int64)} {self : Debouncer}
  {before after : List Past}

theorem Holds.call (h : Holds delayMs pending self) (c : Call) :
    ∃ later, Step (Due delayMs) pending (self.call c).1.op later ∧
      Holds delayMs later (self.call c).2 := by
  obtain rfl : self = ⟨delayMs, pending.map fun fed => fed.2 + delayMs⟩ := h
  cases c with
  | push nowMs => exact ⟨some ((), nowMs), .feed pending () nowMs, rfl⟩
  | takeReady nowMs =>
      cases pending with
      | none => exact ⟨none, .wait (by simp), rfl⟩
      | some fed =>
          unfold Debouncer.call takeReady
          by_cases hdue : nowMs ≥ fed.2 + delayMs
          · refine ⟨none, ?_, ?_⟩
            · simp only [Option.map_some, if_pos hdue]
              exact .release hdue
            · simp only [Option.map_some, if_pos hdue]
              rfl
          · refine ⟨some fed, ?_, ?_⟩
            · simp only [Option.map_some, if_neg hdue]
              refine .wait ?_
              rintro other ⟨⟩
              exact hdue
            · simp only [Option.map_some, if_neg hdue]
              rfl

theorem Holds.run (h : Holds delayMs pending self) (calls : List Call) :
    ∃ later, Run (Step (Due delayMs)) ((self.run calls).map Past.op) pending later := by
  induction calls generalizing self pending with
  | nil => exact ⟨pending, rfl⟩
  | cons c calls ih =>
      obtain ⟨next, hstep, hnext⟩ := h.call c
      obtain ⟨later, hrun⟩ := ih hnext
      exact ⟨later, next, hstep, hrun⟩

theorem op_eq_wait {past : Past} (h : past.op = .wait nowMs) : past = .took nowMs false := by
  cases past with
  | pushed time => cases h
  | took time ready =>
      cases ready with
      | true => cases h
      | false =>
          cases h
          rfl

theorem op_eq_feed {past : Past} (h : past.op = .feed () nowMs) : past = .pushed nowMs := by
  cases past with
  | pushed time =>
      cases h
      rfl
  | took time ready => cases ready <;> cases h

/-- Whenever the debouncer is asked, it says yes if and only if something has been pushed since it
last said so and the delay has passed since the last push. -/
theorem run_took (delayMs : Int64) (calls : List Call) {ready : Bool}
    (h : (debouncer delayMs).run calls = before ++ .took nowMs ready :: after) :
    ready = true ↔ ∃ earlier pushedMs waits, before = earlier ++ .pushed pushedMs :: waits ∧
      (∀ past ∈ waits, ∃ askedMs, past = .took askedMs false) ∧ nowMs ≥ pushedMs + delayMs := by
  obtain ⟨later, hrun⟩ := (show Holds delayMs none (debouncer delayMs) from rfl).run calls
  rw [h, List.map_append, List.map_cons] at hrun
  constructor
  · rintro rfl
    obtain ⟨earlier, pushedMs, waits, hsplit, hwaits, hdue⟩ := fed_of_release hrun
    obtain ⟨earlierPast, rest, rfl, -, hrest⟩ := List.map_eq_append_iff.mp hsplit
    obtain ⟨push, waitsPast, rfl, hpush, hwaitsPast⟩ := List.map_eq_cons_iff.mp hrest
    refine ⟨earlierPast, pushedMs, waitsPast, by rw [op_eq_feed hpush], ?_, hdue⟩
    intro past hpast
    obtain ⟨askedMs, hasked, -⟩ := hwaits past.op (hwaitsPast ▸ List.mem_map_of_mem hpast)
    exact ⟨askedMs, op_eq_wait hasked⟩
  · rintro ⟨earlier, pushedMs, waits, rfl, hwaits, hdue⟩
    by_contra hready
    rw [Bool.not_eq_true] at hready
    rw [hready, List.map_append, List.map_cons] at hrun
    obtain ⟨mid, hbefore, next, hwait, -⟩ := run_append.mp hrun
    obtain ⟨start, -, fed, hfeed, hmid⟩ := run_append.mp hbefore
    cases hfeed with
    | feed =>
        have hpending := run_waits hmid fun op hop => by
          obtain ⟨past, hpast, rfl⟩ := List.mem_map.mp hop
          obtain ⟨askedMs, rfl⟩ := hwaits past hpast
          exact ⟨askedMs, rfl⟩
        rw [hpending] at hwait
        cases hwait with
        | wait hnot => exact hnot _ rfl hdue

/-- The push before is too late for the second question, and 200 ms before the third one. -/
theorem run_took_late :
    ∃ earlier pushedMs waits,
      [Past.pushed 0, .took 100 false, .pushed 150, .took 250 false] =
        earlier ++ Past.pushed pushedMs :: waits ∧
      (∀ past ∈ waits, ∃ askedMs, past = Past.took askedMs false) ∧ (350 : Int64) ≥ pushedMs + 200 := by
  have h : (debouncer 200).run
      [.push 0, .takeReady 100, .push 150, .takeReady 250, .takeReady 350] =
      [.pushed 0, .took 100 false, .pushed 150, .took 250 false] ++ .took 350 true :: [] := by
    decide
  exact (run_took 200 _ h).mp rfl

end Debouncer

end Mulp.Platform
