import Mathlib.Data.List.Induction

/-! Lexical path resolution: what a path means when its `..` are resolved without
looking at the file system.

A path is a list of steps. It leads to a position: a number of levels above the
place where the path starts, and the names below that. A rooted path starts at a
place that is its own parent. -/
namespace Lexical

variable {α : Type*}

inductive Step (α : Type*) where
  | stay
  | up
  | down (name : α)

structure Pos (α : Type*) where
  ups : Nat
  names : List α
  deriving DecidableEq

namespace Pos

def start : Pos α := ⟨0, []⟩

def step (rooted : Bool) (p : Pos α) : Step α → Pos α
  | .stay => p
  | .up =>
      match p.names with
      | [] => if rooted then p else ⟨p.ups + 1, []⟩
      | first :: rest => ⟨p.ups, (first :: rest).dropLast⟩
  | .down name => ⟨p.ups, p.names ++ [name]⟩

def walk (rooted : Bool) (p : Pos α) (steps : List (Step α)) : Pos α :=
  steps.foldl (step rooted) p

/-- The shortest path to a position. -/
def steps (p : Pos α) : List (Step α) := List.replicate p.ups .up ++ p.names.map .down

@[simp] theorem walk_nil (rooted : Bool) (p : Pos α) : p.walk rooted [] = p := rfl

@[simp] theorem walk_cons (rooted : Bool) (p : Pos α) (s : Step α) (steps : List (Step α)) :
    p.walk rooted (s :: steps) = (p.step rooted s).walk rooted steps := rfl

theorem walk_append (rooted : Bool) (p : Pos α) (first second : List (Step α)) :
    p.walk rooted (first ++ second) = (p.walk rooted first).walk rooted second :=
  List.foldl_append

theorem walk_down (rooted : Bool) (p : Pos α) (names : List α) :
    p.walk rooted (names.map .down) = ⟨p.ups, p.names ++ names⟩ := by
  induction names generalizing p with
  | nil => simp
  | cons name rest ih =>
      rw [List.map_cons, walk_cons, ih]
      simp [step]

theorem step_up_concat (rooted : Bool) (ups : Nat) (names : List α) (name : α) :
    (⟨ups, names ++ [name]⟩ : Pos α).step rooted .up = ⟨ups, names⟩ := by
  cases h : names ++ [name] with
  | nil => simp at h
  | cons first rest =>
      simp only [step]
      rw [← h, List.dropLast_concat]

theorem step_down_up (rooted : Bool) (p : Pos α) (name : α) :
    (p.step rooted (.down name)).step rooted .up = p :=
  step_up_concat rooted p.ups p.names name

/-- Going up leaves names first, and levels after them. -/
theorem walk_ups (p : Pos α) (k : Nat) :
    p.walk false (List.replicate k .up) =
      ⟨p.ups + (k - p.names.length), p.names.take (p.names.length - k)⟩ := by
  induction k with
  | zero => simp
  | succ k ih =>
      rw [List.replicate_succ', walk_append, ih, walk_cons, walk_nil]
      by_cases hk : k < p.names.length
      · have htake : p.names.take (p.names.length - k) =
            p.names.take (p.names.length - (k + 1)) ++ [p.names[p.names.length - (k + 1)]] := by
          rw [List.take_append_getElem]
          congr 1
          omega
        rw [htake, step_up_concat]
        congr 1
        omega
      · have hnone : p.names.length - k = 0 := by omega
        have hnone' : p.names.length - (k + 1) = 0 := by omega
        rw [hnone, hnone', List.take_zero]
        simp only [step, Bool.false_eq_true, if_false]
        congr 1
        omega

/-- Going up no more levels than there are names. -/
theorem walk_ups_le (rooted : Bool) (ups : Nat) {names : List α} {k : Nat} (h : k ≤ names.length) :
    (⟨ups, names⟩ : Pos α).walk rooted (List.replicate k .up) =
      ⟨ups, names.take (names.length - k)⟩ := by
  induction k with
  | zero => simp
  | succ k ih =>
      have htake : names.take (names.length - k) =
          names.take (names.length - (k + 1)) ++ [names[names.length - (k + 1)]] := by
        rw [List.take_append_getElem]
        congr 1
        omega
      rw [List.replicate_succ', walk_append, ih (Nat.le_of_succ_le h), walk_cons, walk_nil, htake,
        step_up_concat]

/-- A rooted walk stays below the root. -/
theorem walk_rooted (p : Pos α) (steps : List (Step α)) :
    (p.walk true steps).ups = p.ups := by
  induction steps generalizing p with
  | nil => rfl
  | cons s rest ih =>
      rw [walk_cons, ih]
      cases s with
      | stay => rfl
      | up => cases hnames : p.names <;> simp [step, hnames]
      | down name => rfl

/-- A walk makes no names of its own. -/
theorem mem_walk_names {rooted : Bool} {p : Pos α} {steps : List (Step α)} {name : α}
    (h : name ∈ (p.walk rooted steps).names) : name ∈ p.names ∨ .down name ∈ steps := by
  induction steps generalizing p with
  | nil => exact .inl h
  | cons s rest ih =>
      rcases ih h with h | h
      · cases s with
        | stay => exact .inl h
        | up =>
            refine .inl ?_
            cases hnames : p.names with
            | nil => cases rooted <;> simp [step, hnames] at h
            | cons first others =>
                simp only [step, hnames] at h
                exact (List.dropLast_sublist (first :: others)).subset h
        | down other =>
            rcases List.mem_append.mp h with h | h
            · exact .inl h
            · exact .inr (by rw [List.mem_singleton.mp h]; exact List.mem_cons_self)
      · exact .inr (List.mem_cons_of_mem _ h)

/-- The shortest path leads where it should. -/
theorem walk_steps {rooted : Bool} (p : Pos α) (h : rooted = true → p.ups = 0) :
    start.walk rooted p.steps = p := by
  rw [steps, walk_append]
  cases rooted with
  | true =>
      obtain ⟨ups, names⟩ := p
      cases h rfl
      rw [List.replicate_zero, walk_nil, walk_down]
      rfl
  | false =>
      rw [walk_ups, walk_down]
      simp [start]

/-- The shortest path leads from anywhere to where the steps lead. -/
theorem walk_start_steps (rooted : Bool) (p : Pos α) (steps : List (Step α)) :
    p.walk rooted (start.walk false steps).steps = p.walk rooted steps := by
  induction steps using List.reverseRecOn with
  | nil => rfl
  | append_singleton steps s ih =>
      rw [walk_append, walk_append, ← ih]
      obtain ⟨ups, names⟩ := start.walk false steps
      simp only [walk_cons, walk_nil]
      cases s with
      | stay => rfl
      | up =>
          rcases names.eq_nil_or_concat with rfl | ⟨rest, name, rfl⟩
          · have hup : (⟨ups, []⟩ : Pos α).step false .up = ⟨ups + 1, []⟩ := rfl
            rw [hup, Pos.steps, Pos.steps, List.map_nil, List.append_nil, List.append_nil,
              List.replicate_succ', walk_append]
            rfl
          · have hsteps : (⟨ups, rest ++ [name]⟩ : Pos α).steps =
              (⟨ups, rest⟩ : Pos α).steps ++ [.down name] := by
              simp [Pos.steps]
            rw [List.concat_eq_append, step_up_concat, hsteps, walk_append]
            exact (step_down_up ..).symm
      | down name =>
          have hsteps : ((⟨ups, names⟩ : Pos α).step false (.down name)).steps =
              (⟨ups, names⟩ : Pos α).steps ++ [.down name] := by
            simp [Pos.steps, step]
          rw [hsteps, walk_append]
          rfl

/-- The names do not depend on whether the place has a parent. -/
theorem names_step (rooted rooted' : Bool) {p q : Pos α} (h : p.names = q.names) (s : Step α) :
    (p.step rooted s).names = (q.step rooted' s).names := by
  cases s with
  | stay => exact h
  | down name =>
      show p.names ++ [name] = q.names ++ [name]
      rw [h]
  | up =>
      simp only [step, ← h]
      cases hnames : p.names with
      | nil => cases rooted <;> cases rooted' <;> simp [hnames, ← h]
      | cons first rest => rfl

theorem names_walk (rooted rooted' : Bool) {p q : Pos α} (h : p.names = q.names)
    (steps : List (Step α)) :
    (p.walk rooted steps).names = (q.walk rooted' steps).names := by
  induction steps generalizing p q with
  | nil => exact h
  | cons s rest ih =>
      rw [walk_cons, walk_cons]
      exact ih (names_step rooted rooted' h s)

/-- The way to a position, from below the root. -/
theorem names_walk_steps (rooted : Bool) (p q : Pos α) :
    (p.walk rooted q.steps).names = p.names.take (p.names.length - q.ups) ++ q.names := by
  rw [names_walk rooted false rfl, steps, walk_append, walk_ups, walk_down]

theorem ups_le_walk (rooted : Bool) (p : Pos α) (steps : List (Step α)) :
    p.ups ≤ (p.walk rooted steps).ups := by
  induction steps generalizing p with
  | nil => exact Nat.le_refl _
  | cons s rest ih =>
      refine Nat.le_trans ?_ (ih (p.step rooted s))
      cases s with
      | stay => exact Nat.le_refl _
      | up => cases hnames : p.names <;> cases rooted <;> simp [step, hnames]
      | down name => exact Nat.le_refl _

/-- The second position is the first one or below it. -/
def Below (p q : Pos α) : Prop := q.ups = p.ups ∧ p.names <+: q.names

instance [DecidableEq α] (p q : Pos α) : Decidable (p.Below q) :=
  inferInstanceAs (Decidable (_ ∧ _))

/-- The path to `q` from the start, followed from `p`, leads to `q` by chance if
there are as many names as levels to leave. -/
theorem walk_steps_eq_iff {p q : Pos α} (h : p.ups ≤ q.ups) :
    p.walk false q.steps = q ↔ p.ups = p.names.length := by
  rw [steps, walk_append, walk_ups, walk_down]
  obtain ⟨ups, names⟩ := q
  simp only at h
  simp only [mk.injEq, List.append_left_eq_self, List.take_eq_nil_iff]
  constructor
  · rintro ⟨hups, hnames⟩
    rcases hnames with hnames | hnames
    · omega
    · rw [hnames] at hups ⊢
      simp only [List.length_nil] at hups ⊢
      omega
  · intro hp
    exact ⟨by omega, .inl (by omega)⟩

theorem walk_true_steps_eq_iff {p q : Pos α} (hp : p.ups = 0) (hq : q.ups = 0) :
    p.walk true q.steps = q ↔ p.names = [] := by
  rw [steps, hq, List.replicate_zero, List.nil_append, walk_down, hp]
  obtain ⟨ups, names⟩ := q
  simp only at hq
  simp [hq]

end Pos

/-- Where a run of one element ends is determined by the list. -/
theorem replicate_append_inj {d : α} {u k : Nat} {m n : List α} (hm : ∀ x ∈ m.head?, x ≠ d)
    (hn : ∀ x ∈ n.head?, x ≠ d) (h : List.replicate u d ++ m = List.replicate k d ++ n) :
    u = k ∧ m = n := by
  induction u generalizing k with
  | zero =>
      cases k with
      | zero => exact ⟨rfl, h⟩
      | succ k =>
          rw [List.replicate_zero, List.nil_append] at h
          exact absurd rfl (hm d (by simp [h, List.replicate_succ]))
  | succ u ih =>
      cases k with
      | zero =>
          rw [List.replicate_zero, List.nil_append] at h
          exact absurd rfl (hn d (by simp [← h, List.replicate_succ]))
      | succ k =>
          rw [List.replicate_succ, List.replicate_succ, List.cons_append, List.cons_append] at h
          obtain ⟨rfl, hmn⟩ := ih (List.cons.inj h).2
          exact ⟨rfl, hmn⟩

end Lexical
