import Mulp.Core.Scheduler

/-! When a tree cancels the token, and when it looks at it.

The queue makes a clock: what a coroutine hands on to another runs one round
later. A group takes a round for the function that spawns, one for its children,
and one for its parent to go on. A leaf that suspends may take any time, so the
clock gives the earliest cancel, where no leaf suspends, and the latest check,
which there is only where no leaf comes before it. -/
namespace Mulp.Core

/-! ## Of a tree -/

mutual
/-- The leaves whose closures may still run: behind a failing item of a series there are none. -/
def AsyncTask.leaves : AsyncTask → Nat
  | .newAsyncTask _ _ _ => 1
  | .asyncSeries _ tasks => allLeaves tasks
  | .asyncParallel _ tasks => allLeaves tasks
  | .asyncParallelSettle _ tasks => allLeaves tasks
  | .asyncTaskFrom _ _ source => source.leaves

def allLeaves : List AsyncTask → Nat
  | [] => 0
  | t :: rest => t.leaves + allLeaves rest
end

mutual
/-- The rounds from the start of `execute` to its end, if no leaf suspends. -/
def AsyncTask.rounds : AsyncTask → Nat
  | .newAsyncTask _ _ _ => 0
  | .asyncSeries _ tasks => seriesRounds tasks
  | .asyncParallel _ tasks => 2 + childRounds tasks
  | .asyncParallelSettle _ tasks => 2 + childRounds tasks
  | .asyncTaskFrom _ _ source => source.rounds

/-- Behind a failing item none is run. -/
def seriesRounds : List AsyncTask → Nat
  | [] => 0
  | t :: rest => t.rounds + if t.fails then 0 else seriesRounds rest

def childRounds : List AsyncTask → Nat
  | [] => 0
  | t :: rest => max (t.rounds + 1) (childRounds rest)
end

/-- The earlier of two rounds, of which there may be none. -/
def earlier : Option Nat → Option Nat → Option Nat := Option.merge min

/-- The later of two rounds, of which there may be no bound. -/
def later : Option Nat → Option Nat → Option Nat
  | some k, some l => some (max k l)
  | _, _ => none

mutual
/-- The first round in which the tree may cancel the token. -/
def AsyncTask.firstCancel : AsyncTask → Option Nat
  | .newAsyncTask _ _ _ => none
  | .asyncSeries _ tasks => seriesFirstCancel tasks
  | .asyncParallel _ tasks => (childFirstCancel .parallel tasks).map (2 + ·)
  | .asyncParallelSettle _ tasks => (childFirstCancel .settle tasks).map (2 + ·)
  | .asyncTaskFrom _ _ source => source.firstCancel

def seriesFirstCancel : List AsyncTask → Option Nat
  | [] => none
  | t :: rest =>
      if t.fails then t.firstCancel else (seriesFirstCancel rest).map (t.rounds + ·)

/-- A child of `async_parallel` that fails cancels the token when it ends. -/
def childFirstCancel (kind : GroupKind) : List AsyncTask → Option Nat
  | [] => none
  | t :: rest =>
      earlier (if kind = .parallel ∧ t.fails then some t.rounds else none)
        (earlier t.firstCancel (childFirstCancel kind rest))
end

mutual
/-- The last round in which the tree may look at the token, unless this is
behind a leaf. -/
def AsyncTask.lastCheck : AsyncTask → Option Nat
  | .newAsyncTask _ _ _ => some 0
  | .asyncSeries _ tasks => seriesLastCheck tasks
  | .asyncParallel _ tasks => childLastCheck tasks
  | .asyncParallelSettle _ tasks => childLastCheck tasks
  | .asyncTaskFrom _ _ source => source.lastCheck

def seriesLastCheck : List AsyncTask → Option Nat
  | [] => some 0
  | t :: rest =>
      if rest.isEmpty then t.lastCheck
      else if t.leaves = 0 then later t.lastCheck ((seriesLastCheck rest).map (t.rounds + ·))
      else none

def childLastCheck : List AsyncTask → Option Nat
  | [] => some 0
  | t :: rest => later (t.lastCheck.map (2 + ·)) (childLastCheck rest)
end

/-- No cancel before the time, if the round 0 is at `start`: there is none at all, or the earliest
of them is no earlier. A leaf that suspends can only put a cancel off. -/
def CancelFrom (unit start time : Nat) (first : Option Nat) : Prop :=
  ∀ k, first = some k → time ≤ start + unit * k

/-- No check after the time, if the round 0 is at `start`: the tree has a last check, and that is no
later. A tree with a check behind a leaf has none, and this is never so. -/
def CheckBy (unit start time : Nat) (last : Option Nat) : Prop :=
  ∃ l, last = some l ∧ start + unit * l ≤ time

section Tree

variable {unit start time : Nat}

@[simp] theorem cancelFrom_none : CancelFrom unit start time none := by
  intro k hk
  cases hk

theorem cancelFrom_some {k : Nat} :
    CancelFrom unit start time (some k) ↔ time ≤ start + unit * k := by
  simp [CancelFrom]

theorem cancelFrom_map {first : Option Nat} {rounds : Nat} :
    CancelFrom unit start time (first.map (rounds + ·)) ↔
      CancelFrom unit (start + unit * rounds) time first := by
  cases first with
  | none => simp
  | some k => rw [Option.map_some, cancelFrom_some, cancelFrom_some, Nat.mul_add, Nat.add_assoc]

theorem cancelFrom_earlier {first other : Option Nat} :
    CancelFrom unit start time (earlier first other) ↔
      CancelFrom unit start time first ∧ CancelFrom unit start time other := by
  cases first with
  | none => cases other <;> simp [earlier]
  | some k =>
      cases other with
      | none => simp [earlier]
      | some l =>
          show CancelFrom unit start time (some (min k l)) ↔ _
          have hk := Nat.mul_le_mul_left unit (Nat.min_le_left k l)
          have hl := Nat.mul_le_mul_left unit (Nat.min_le_right k l)
          rw [cancelFrom_some, cancelFrom_some, cancelFrom_some]
          constructor
          · intro h
            exact ⟨by omega, by omega⟩
          · intro h
            rcases Nat.le_total k l with hle | hle
            · rw [Nat.min_eq_left hle]; exact h.1
            · rw [Nat.min_eq_right hle]; exact h.2

theorem checkBy_some {l : Nat} :
    CheckBy unit start time (some l) ↔ start + unit * l ≤ time := by
  simp [CheckBy]

theorem not_checkBy_none : ¬ CheckBy unit start time none := by
  rintro ⟨l, hl, -⟩
  cases hl

theorem checkBy_map {last : Option Nat} {rounds : Nat} :
    CheckBy unit start time (last.map (rounds + ·)) ↔
      CheckBy unit (start + unit * rounds) time last := by
  cases last with
  | none => exact iff_of_false not_checkBy_none not_checkBy_none
  | some l => rw [Option.map_some, checkBy_some, checkBy_some, Nat.mul_add, Nat.add_assoc]

theorem checkBy_later {last other : Option Nat} :
    CheckBy unit start time (later last other) ↔
      CheckBy unit start time last ∧ CheckBy unit start time other := by
  cases last with
  | none => cases other <;> exact iff_of_false not_checkBy_none fun h => not_checkBy_none h.1
  | some k =>
      cases other with
      | none => exact iff_of_false not_checkBy_none fun h => not_checkBy_none h.2
      | some l =>
          show CheckBy unit start time (some (max k l)) ↔ _
          have hk := Nat.mul_le_mul_left unit (Nat.le_max_left k l)
          have hl := Nat.mul_le_mul_left unit (Nat.le_max_right k l)
          rw [checkBy_some, checkBy_some, checkBy_some]
          constructor
          · intro h
            exact ⟨by omega, by omega⟩
          · intro h
            rcases Nat.le_total k l with hle | hle
            · rw [Nat.max_eq_right hle]; exact h.2
            · rw [Nat.max_eq_left hle]; exact h.1

theorem CheckBy.start_le {last : Option Nat} (h : CheckBy unit start time last) : start ≤ time := by
  obtain ⟨l, -, hl⟩ := h
  omega

theorem cancelFrom_series {t : AsyncTask} {rest : List AsyncTask} :
    CancelFrom unit start time (seriesFirstCancel (t :: rest)) ↔
      if t.fails then CancelFrom unit start time t.firstCancel
      else CancelFrom unit (start + unit * t.rounds) time (seriesFirstCancel rest) := by
  rw [seriesFirstCancel]
  split
  · rfl
  · exact cancelFrom_map

theorem cancelFrom_child {kind : GroupKind} (tasks : List AsyncTask) :
    CancelFrom unit start time (childFirstCancel kind tasks) ↔
      ∀ t ∈ tasks, CancelFrom unit start time t.firstCancel ∧
        (kind = .parallel → t.fails = true → time ≤ start + unit * t.rounds) := by
  induction tasks with
  | nil => simp [childFirstCancel]
  | cons t rest ih =>
      rw [childFirstCancel, cancelFrom_earlier, cancelFrom_earlier, ih, List.forall_mem_cons]
      have hown : CancelFrom unit start time
          (if kind = .parallel ∧ t.fails then some t.rounds else none) ↔
            (kind = .parallel → t.fails = true → time ≤ start + unit * t.rounds) := by
        split
        · rename_i h
          rw [cancelFrom_some]
          exact ⟨fun hle _ _ => hle, fun hle => hle h.1 h.2⟩
        · rename_i h
          exact iff_of_true cancelFrom_none fun hk hf => absurd ⟨hk, hf⟩ h
      rw [hown]
      tauto

theorem checkBy_series {t : AsyncTask} {rest : List AsyncTask} :
    CheckBy unit start time (seriesLastCheck (t :: rest)) ↔
      CheckBy unit start time t.lastCheck ∧ (rest = [] ∨ t.leaves = 0 ∧
        CheckBy unit (start + unit * t.rounds) time (seriesLastCheck rest)) := by
  rw [seriesLastCheck]
  cases rest with
  | nil => simp
  | cons u rest =>
      rw [if_neg (by simp)]
      split
      · rename_i hleaves
        rw [checkBy_later, checkBy_map]
        simp [hleaves]
      · rename_i hleaves
        exact iff_of_false not_checkBy_none fun h => by simp [hleaves] at h

theorem checkBy_child (tasks : List AsyncTask) :
    CheckBy unit start time (childLastCheck tasks) ↔
      start ≤ time ∧ ∀ t ∈ tasks, CheckBy unit (start + unit * 2) time t.lastCheck := by
  induction tasks with
  | nil => simp [childLastCheck, checkBy_some]
  | cons t rest ih =>
      rw [childLastCheck, checkBy_later, checkBy_map, ih, List.forall_mem_cons]
      tauto

end Tree

mutual
/-- Only a tree that fails cancels. -/
theorem AsyncTask.firstCancel_eq_none : (t : AsyncTask) → t.fails = false → t.firstCancel = none
  | .newAsyncTask _ _ _, _ => rfl
  | .asyncSeries _ tasks, h => seriesFirstCancel_eq_none tasks h
  | .asyncParallel _ tasks, h => by
      rw [AsyncTask.firstCancel, childFirstCancel_eq_none .parallel tasks h, Option.map_none]
  | .asyncParallelSettle _ tasks, h => by
      rw [AsyncTask.firstCancel, childFirstCancel_eq_none .settle tasks h, Option.map_none]
  | .asyncTaskFrom _ _ source, h => source.firstCancel_eq_none h

theorem seriesFirstCancel_eq_none :
    (tasks : List AsyncTask) → anyFails tasks = false → seriesFirstCancel tasks = none
  | [], _ => rfl
  | t :: rest, h => by
      rw [anyFails, Bool.or_eq_false_iff] at h
      rw [seriesFirstCancel, h.1, seriesFirstCancel_eq_none rest h.2]
      rfl

theorem childFirstCancel_eq_none (kind : GroupKind) :
    (tasks : List AsyncTask) → anyFails tasks = false → childFirstCancel kind tasks = none
  | [], _ => rfl
  | t :: rest, h => by
      rw [anyFails, Bool.or_eq_false_iff] at h
      rw [childFirstCancel, t.firstCancel_eq_none h.1, childFirstCancel_eq_none kind rest h.2, h.1]
      simp [earlier]
end

end Mulp.Core
