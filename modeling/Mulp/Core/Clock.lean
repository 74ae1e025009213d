import Mulp.Core.Rounds
import Mulp.Core.Tickets

/-! The clock along a run.

Here the tickets are times, and what a coroutine hands on is due a round, which
is `unit` long, after it. A step in a tree whose token is live keeps the time of
its end, its cancels and its checks; that a leaf suspends can only put off its
end and its cancels, and a check behind a leaf has no bound to begin with. -/
namespace Mulp.Core

namespace Coroutine

mutual
/-- The leaves whose closures may still run. It does not change as long as none of these ends, which
is how leaves are held back. -/
def leaves : Coroutine → Nat
  | .pending _ t => t.leaves
  | .body _ _ _ _ _ => 1
  | .seriesHead _ _ rest => allLeaves rest
  | .series _ current rest => current.leaves + allLeaves rest
  | .fork _ _ _ _ tasks => allLeaves tasks
  | .group _ _ _ _ children _ => childLeaves children
  | .source _ _ inner => inner.leaves
  | .finished _ _ _ _ => 0

def childLeaves : List Coroutine → Nat
  | [] => 0
  | p :: rest => p.leaves + childLeaves rest
end

mutual
/-- The time at which it ends, if no leaf suspends from here. -/
def endAt (unit : Nat) : Coroutine → Nat
  | .pending now t => now + unit * t.rounds
  | .body now _ _ _ _ => now
  | .seriesHead now _ rest => now + unit * seriesRounds rest
  | .series _ current rest =>
      current.endAt unit + if current.erase.fails then 0 else unit * seriesRounds rest
  | .fork now _ _ _ tasks => now + unit * (1 + childRounds tasks)
  | .group (some now) _ _ _ _ _ => now
  | .group none _ _ _ children _ => unit + lastEnd unit children
  | .source _ _ inner => inner.endAt unit
  | .finished now _ _ _ => now

def lastEnd (unit : Nat) : List Coroutine → Nat
  | [] => 0
  | p :: rest => max (p.endAt unit) (lastEnd unit rest)
end

mutual
/-- A group waits for a child, or its last child has woken it. -/
def Joined : Coroutine → Prop
  | .series _ current _ => current.Joined
  | .group none _ _ _ children _ => (∃ p ∈ children, p.isFinished = false) ∧ AllJoined children
  | .group (some _) _ _ _ children _ => ∀ p ∈ children, p.isFinished = true
  | .source _ _ inner => inner.Joined
  | _ => True

def AllJoined : List Coroutine → Prop
  | [] => True
  | p :: rest => p.Joined ∧ AllJoined rest
end

mutual
/-- The children that are over ended at the time `now` or before. -/
def Past (unit now : Nat) : Coroutine → Prop
  | .series _ current _ => current.Past unit now
  | .group _ _ _ _ children _ => AllPast unit now children
  | .source _ _ inner => inner.Past unit now
  | _ => True

def AllPast (unit now : Nat) : List Coroutine → Prop
  | [] => True
  | p :: rest => ((p.isFinished = true → p.endAt unit ≤ now) ∧ p.Past unit now) ∧
      AllPast unit now rest
end

mutual
/-- No cancel before the time: none of what is queued, when it runs with all leaves ending at once,
comes to a cancel any earlier. -/
def CancelsFrom (unit time : Nat) : Coroutine → Prop
  | .pending now t => CancelFrom unit now time t.firstCancel
  | .body _ _ _ _ _ => True
  | .seriesHead now _ rest => CancelFrom unit now time (seriesFirstCancel rest)
  | .series _ current rest => current.CancelsFrom unit time ∧
      (current.erase.fails = false →
        CancelFrom unit (current.endAt unit) time (seriesFirstCancel rest))
  | .fork now kind _ _ tasks => CancelFrom unit (now + unit) time (childFirstCancel kind tasks)
  | .group _ kind _ _ children _ => ChildrenCancelFrom unit time kind children
  | .source _ _ inner => inner.CancelsFrom unit time
  | .finished _ _ _ _ => True

/-- A child of `async_parallel` that fails cancels the token when it ends. -/
def ChildrenCancelFrom (unit time : Nat) (kind : GroupKind) : List Coroutine → Prop
  | [] => True
  | p :: rest => (p.CancelsFrom unit time ∧
      (kind = .parallel → p.isFinished = false → p.erase.fails = true → time ≤ p.endAt unit)) ∧
        ChildrenCancelFrom unit time kind rest
end

mutual
/-- No check after the time. A tree in which a check stands behind a leaf that may still run has
none such time. -/
def ChecksBy (unit time : Nat) : Coroutine → Prop
  | .pending now t => CheckBy unit now time t.lastCheck
  | .body _ _ _ _ _ => True
  | .seriesHead now _ rest => rest = [] ∨ CheckBy unit now time (seriesLastCheck rest)
  | .series _ current rest => current.ChecksBy unit time ∧ (rest = [] ∨ current.leaves = 0 ∧
      CheckBy unit (current.endAt unit) time (seriesLastCheck rest))
  | .fork now _ _ _ tasks => ∀ t ∈ tasks, CheckBy unit (now + unit) time t.lastCheck
  | .group _ _ _ _ children _ => ChildrenCheckBy unit time children
  | .source _ _ inner => inner.ChecksBy unit time
  | .finished _ _ _ _ => True

def ChildrenCheckBy (unit time : Nat) : List Coroutine → Prop
  | [] => True
  | p :: rest => p.ChecksBy unit time ∧ ChildrenCheckBy unit time rest
end

theorem allJoined_iff (ps : List Coroutine) : AllJoined ps ↔ ∀ p ∈ ps, p.Joined := by
  induction ps with
  | nil => simp [AllJoined]
  | cons p rest ih => rw [AllJoined, ih, List.forall_mem_cons]

theorem allPast_iff {unit now : Nat} (ps : List Coroutine) : AllPast unit now ps ↔
    ∀ p ∈ ps, (p.isFinished = true → p.endAt unit ≤ now) ∧ p.Past unit now := by
  induction ps with
  | nil => simp [AllPast]
  | cons p rest ih => rw [AllPast, ih, List.forall_mem_cons]

theorem childrenCancelFrom_iff {unit time : Nat} {kind : GroupKind} (ps : List Coroutine) :
    ChildrenCancelFrom unit time kind ps ↔ ∀ p ∈ ps, p.CancelsFrom unit time ∧
      (kind = .parallel → p.isFinished = false → p.erase.fails = true → time ≤ p.endAt unit) := by
  induction ps with
  | nil => simp [ChildrenCancelFrom]
  | cons p rest ih => rw [ChildrenCancelFrom, ih, List.forall_mem_cons]

theorem childrenCheckBy_iff {unit time : Nat} (ps : List Coroutine) :
    ChildrenCheckBy unit time ps ↔ ∀ p ∈ ps, p.ChecksBy unit time := by
  induction ps with
  | nil => simp [ChildrenCheckBy]
  | cons p rest ih => rw [ChildrenCheckBy, ih, List.forall_mem_cons]

theorem childLeaves_append (pre post : List Coroutine) (p : Coroutine) :
    childLeaves (pre ++ p :: post) = childLeaves pre + (p.leaves + childLeaves post) := by
  induction pre with
  | nil => simp [childLeaves]
  | cons q pre ih => simp [childLeaves, ih]; omega

theorem lastEnd_append (unit : Nat) (pre post : List Coroutine) (p : Coroutine) :
    lastEnd unit (pre ++ p :: post) =
      max (lastEnd unit pre) (max (p.endAt unit) (lastEnd unit post)) := by
  induction pre with
  | nil => simp [lastEnd]
  | cons q pre ih => rw [List.cons_append, lastEnd, lastEnd, ih, Nat.max_assoc]

theorem lastEnd_le_iff {unit bound : Nat} (ps : List Coroutine) :
    lastEnd unit ps ≤ bound ↔ ∀ p ∈ ps, p.endAt unit ≤ bound := by
  induction ps with
  | nil => simp [lastEnd]
  | cons p rest ih => rw [lastEnd, Nat.max_le, ih, List.forall_mem_cons]

theorem endAt_le_lastEnd {unit : Nat} {ps : List Coroutine} {p : Coroutine} (h : p ∈ ps) :
    p.endAt unit ≤ lastEnd unit ps :=
  (lastEnd_le_iff ps).mp (Nat.le_refl _) p h

theorem joined_map {f : Nat → Nat} {p : Coroutine} : (p.map f).Joined ↔ p.Joined := by
  induction p with
  | series _ _ _ ih => exact ih
  | group join _ _ _ children _ ih =>
      cases join with
      | some ticket => simp [map, Joined, mapChildren_eq_map]
      | none =>
          have hone : (∃ p ∈ children.map (map f), p.isFinished = false) ↔
              ∃ p ∈ children, p.isFinished = false := by
            simp
          simp only [map, Option.map_none, Joined, allJoined_iff, mapChildren_eq_map,
            List.forall_mem_map]
          exact and_congr hone (forall₂_congr ih)
  | source _ _ _ ih => exact ih
  | _ => rfl

theorem leaves_map (f : Nat → Nat) (p : Coroutine) : (p.map f).leaves = p.leaves := by
  induction p with
  | series _ _ _ ih => rw [map, leaves, leaves, ih]
  | group _ _ _ _ children _ ih =>
      show childLeaves (mapChildren f children) = childLeaves children
      induction children with
      | nil => rfl
      | cons p rest ihrest =>
          rw [List.forall_mem_cons] at ih
          rw [mapChildren, childLeaves, childLeaves, ihrest ih.2, ih.1]
  | source _ _ _ ih => exact ih
  | _ => rfl

theorem Past.mono {unit now later : Nat} {p : Coroutine} (h : p.Past unit now)
    (hle : now ≤ later) : p.Past unit later := by
  induction p with
  | series _ _ _ ih => exact ih h
  | group _ _ _ _ children _ ih =>
      have hall := (allPast_iff children).mp h
      exact (allPast_iff children).mpr fun p hp =>
        ⟨fun hfin => Nat.le_trans ((hall p hp).1 hfin) hle, ih p hp (hall p hp).2⟩
  | source _ _ _ ih => exact ih h
  | _ => trivial

end Coroutine

/-! ## Steps on a live token -/

section Live

variable {ctx : Context} {unit now used : Nat} {fresh : Nat → Nat} {sh sh' : Shared}
  {p p' : Coroutine}

/-- On a live token a step neither mends nor breaks what is to come. -/
theorem Resumes.fails_eq (h : Resumes ctx now fresh sh p sh' p' used) (hwf : p.erase.WF)
    (hlive : sh.cancelled = false) : p'.erase.fails = p.erase.fails := by
  rcases h.erase with hstep | ⟨-, hp⟩
  · exact hstep.fails_eq hwf hlive
  · rw [hp]

theorem Resumes.wf (h : Resumes ctx now fresh sh p sh' p' used) (hwf : p.erase.WF) :
    p'.erase.WF := by
  rcases h.erase with hstep | ⟨-, hp⟩
  · exact hstep.wf hwf
  · rwa [hp]

/-- What ends, ends now. -/
theorem Resumes.endAt_finished (unit : Nat) (h : Resumes ctx now fresh sh p sh' p' used)
    (hfin : p'.isFinished = true) : p'.endAt unit = now := by
  cases h
  case enter t _ => cases t <;> cases hfin
  all_goals first | rfl | cases hfin

theorem Coroutine.joined_group {join : Option Nat × Nat} {kind : GroupKind} {state : Nat}
    {name : String} {children : List Coroutine} {errors : List (String × String)}
    (hjoin : join = joinTicket fresh used children) (h : ∀ p ∈ children, p.Joined) :
    (Coroutine.group join.1 kind state name children errors).Joined := by
  rcases joinTicket_cases fresh used children with ⟨hall, heq⟩ | ⟨hone, heq⟩
  · rw [hjoin, heq]
    exact hall
  · rw [hjoin, heq]
    exact ⟨hone, (Coroutine.allJoined_iff children).mpr h⟩

theorem Resumes.joined (h : Resumes ctx now fresh sh p sh' p' used) (hjoined : p.Joined) :
    p'.Joined := by
  induction h with
  | enter _ => rename_i t _; cases t <;> trivial
  | seriesStep _ ih => exact ih hjoined
  | fork =>
      refine Coroutine.joined_group rfl fun q hq => ?_
      obtain ⟨i, -, t, -, rfl⟩ := spawned_mem hq
      trivial
  | child _ ih =>
      have hall := (Coroutine.allJoined_iff _).mp hjoined.2
      exact Coroutine.joined_group rfl (forall_mem_replace hall (ih (hall _ (by simp))))
  | sourceStep _ ih => exact ih hjoined
  | _ => trivial

theorem Resumes.past (h : Resumes ctx now fresh sh p sh' p' used) (hpast : p.Past unit now) :
    p'.Past unit now := by
  induction h with
  | enter _ => rename_i t _; cases t <;> trivial
  | seriesStep _ ih => exact ih hpast
  | fork =>
      refine (Coroutine.allPast_iff _).mpr fun q hq => ?_
      obtain ⟨i, -, t, -, rfl⟩ := spawned_mem hq
      exact ⟨nofun, trivial⟩
  | child h ih =>
      have hall := (Coroutine.allPast_iff _).mp hpast
      refine (Coroutine.allPast_iff _).mpr (forall_mem_replace hall ⟨fun hfin => ?_, ?_⟩)
      · exact Nat.le_of_eq (h.endAt_finished unit hfin)
      · exact ih (hall _ (by simp)).2
  | sourceStep _ ih => exact ih hpast
  | _ => trivial

theorem lastEnd_spawned {tasks : List AsyncTask} (hfresh : ∀ i, fresh i = now + unit)
    (hne : tasks ≠ []) :
    Coroutine.lastEnd unit (spawned fresh tasks) = now + unit * childRounds tasks := by
  induction tasks generalizing fresh with
  | nil => exact absurd rfl hne
  | cons t rest ih =>
      have hfirst : fresh 0 + unit * t.rounds = now + unit * (t.rounds + 1) := by
        rw [hfresh, Nat.mul_add, Nat.mul_one]
        omega
      rw [spawned, Coroutine.lastEnd, Coroutine.endAt, hfirst, childRounds]
      by_cases hrest : rest = []
      · subst hrest
        simp [spawned, Coroutine.lastEnd, childRounds]
      · rw [ih (fun i => hfresh (i + 1)) hrest, ← Nat.mul_max_mul_left, Nat.add_max_add_left]

theorem Proc.WF.child {join : Option Nat} {kind : GroupKind} {state : Nat} {name : String}
    {children : List Coroutine} {errors : List (String × String)}
    (h : (Coroutine.group join kind state name children errors).erase.WF) {q : Coroutine}
    (hq : q ∈ children) : q.erase.WF := by
  cases h with
  | group h _ =>
      rw [Coroutine.eraseAll_eq_map] at h
      exact h _ (List.mem_map_of_mem hq)

/-- On a live token a step keeps the time of the end. -/
theorem Resumes.endAt_eq (h : Resumes ctx now fresh sh p sh' p' used)
    (hfresh : ∀ i, fresh i = now + unit) (hwf : p.erase.WF) (hlive : sh.cancelled = false)
    (hjoined : p.Joined) (hpast : p.Past unit now) : p'.endAt unit = p.endAt unit := by
  have htwo (c : Nat) : unit * (2 + c) = unit + unit * (1 + c) := by
    rw [Nat.mul_add, Nat.mul_add, Nat.mul_one]
    omega
  induction h with
  | refuse hc => rw [hlive] at hc; cases hc
  | @enter t _ =>
      cases t with
      | newAsyncTask => rfl
      | asyncSeries => rfl
      | asyncParallel | asyncParallelSettle =>
          simp only [AsyncTask.enterAt, Coroutine.endAt, AsyncTask.rounds, hfresh]
          rw [htwo, Nat.add_assoc]
      | asyncTaskFrom => rfl
  | bodyCancel _ => rfl
  | bodySuspend => rfl
  | bodyEnd _ => rfl
  | seriesEnd => rfl
  | seriesCancelled hc => rw [hlive] at hc; cases hc
  | @seriesNext _ t rest _ =>
      simp only [Coroutine.endAt, Coroutine.erase, Proc.fails, seriesRounds]
      split
      · rw [Nat.add_zero, Nat.add_zero]
      · rw [Nat.mul_add, Nat.add_assoc]
  | seriesStep h ih =>
      cases hwf with
      | series hcur _ =>
          simp only [Coroutine.endAt]
          rw [ih hcur hjoined hpast, h.fails_eq hcur hlive]
  | seriesOk => rfl
  | seriesErr => rfl
  | seriesRaise => rfl
  | @fork kind state name tasks =>
      cases tasks with
      | nil =>
          show fresh 0 = now + unit * (1 + 0)
          rw [hfresh, Nat.add_zero, Nat.mul_one]
      | cons t rest =>
          show unit + Coroutine.lastEnd unit (spawned fresh (t :: rest)) = _
          rw [lastEnd_spawned hfresh (List.cons_ne_nil t rest), Coroutine.endAt, Nat.mul_add,
            Nat.mul_one]
          omega
  | @child _ kind state name p p' pre post errors used h ih =>
      have hp := hwf.child (q := p) (by simp)
      have hjoined' := (Coroutine.allJoined_iff _).mp hjoined.2 p (by simp)
      have hall := (Coroutine.allPast_iff _).mp hpast
      have hend := ih hp hjoined' (hall p (by simp)).2
      rcases joinTicket_cases fresh used (pre ++ p' :: post) with ⟨hfin, heq⟩ | ⟨-, heq⟩
      · -- the last child ends now, and the others have ended
        have hnow := h.endAt_finished unit (hfin p' (by simp))
        have hlast : Coroutine.lastEnd unit (pre ++ p :: post) = now := by
          apply Nat.le_antisymm
          · have hended : ∀ q ∈ pre ++ p' :: post, q.isFinished = true → q.endAt unit ≤ now :=
              forall_mem_replace (fun q hq => (hall q hq).1) fun _ => Nat.le_of_eq hnow
            exact (Coroutine.lastEnd_le_iff _).mpr (forall_mem_replace
              (fun q hq => hended q hq (hfin q hq)) (Nat.le_of_eq (hend.symm.trans hnow)))
          · rw [← hnow, hend]
            exact Coroutine.endAt_le_lastEnd (by simp)
        rw [heq]
        simp only [Coroutine.endAt, hfresh, hlast]
        exact Nat.add_comm now unit
      · rw [heq]
        simp only [Coroutine.endAt, Coroutine.lastEnd_append, hend]
  | groupEnd _ => rfl
  | sourceStep _ ih =>
      cases hwf with
      | source hwf => exact ih hwf hjoined hpast
  | sourceEnd => rfl

/-- The shared state of a group's step, and what it cancels. -/
theorem onChild_cancelled_iff {kind : GroupKind} {q : Coroutine} {errors : List (String × String)}
    (hwf : q.erase.WF) : (onChild kind q.erase sh errors).1.cancelled = true ↔
      sh.cancelled = true ∨
        (kind = .parallel ∧ q.isFinished = true ∧ q.erase.fails = true) := by
  rw [← Coroutine.isFinished_erase]
  generalize q.erase = proc at hwf
  cases hwf with
  | finished name entered r =>
      cases r with
      | ok u => simp [onChild, Proc.fails, Completion.isOk]
      | error err => cases kind <;> simp [onChild, Proc.fails, Completion.isOk, Proc.isFinished]
  | pending _ | body _ _ _ | seriesHead _ | series _ _ | group _ _ | source _ =>
      simp [onChild, Proc.isFinished]

theorem Coroutine.cancelsFrom_finished {unit time : Nat} {q : Coroutine}
    (h : q.isFinished = true) : q.CancelsFrom unit time := by
  cases q <;> trivial

/-- While the token stays live a step keeps the time of the first cancel. -/
theorem Resumes.cancelsFrom_iff {time : Nat} (h : Resumes ctx now fresh sh p sh' p' used)
    (hfresh : ∀ i, fresh i = now + unit) (hwf : p.erase.WF) (hlive : sh.cancelled = false)
    (hlive' : sh'.cancelled = false) (hjoined : p.Joined) (hpast : p.Past unit now) :
    p'.CancelsFrom unit time ↔ p.CancelsFrom unit time := by
  induction h with
  | refuse hc => rw [hlive] at hc; cases hc
  | @enter t _ =>
      cases t with
      | newAsyncTask => exact iff_of_true trivial cancelFrom_none
      | asyncSeries => rfl
      | asyncParallel | asyncParallelSettle =>
          simp only [AsyncTask.enterAt, Coroutine.CancelsFrom, AsyncTask.firstCancel,
            cancelFrom_map, hfresh]
          rw [Nat.add_assoc, Nat.mul_two]
      | asyncTaskFrom => rfl
  | bodyCancel _ => rfl
  | bodySuspend => rfl
  | bodyEnd _ => rfl
  | seriesEnd => exact iff_of_true trivial cancelFrom_none
  | seriesCancelled hc => rw [hlive] at hc; cases hc
  | @seriesNext _ t rest _ =>
      simp only [Coroutine.CancelsFrom, Coroutine.endAt, Coroutine.erase, Proc.fails,
        cancelFrom_series]
      cases hf : t.fails with
      | true => simp
      | false => simp [t.firstCancel_eq_none hf]
  | seriesStep h ih =>
      cases hwf with
      | series hcur _ =>
          simp only [Coroutine.CancelsFrom]
          rw [ih hcur hlive' hjoined hpast, h.fails_eq hcur hlive,
            h.endAt_eq hfresh hcur hlive hjoined hpast]
  | seriesOk => simp [Coroutine.CancelsFrom, Coroutine.endAt, Coroutine.erase, Proc.fails,
      Completion.isOk]
  | seriesErr => simp [Coroutine.CancelsFrom, Coroutine.erase, Proc.fails, Completion.isOk]
  | seriesRaise => simp [Coroutine.CancelsFrom, Coroutine.erase, Proc.fails, Completion.isOk]
  | @fork kind state name tasks =>
      simp only [Coroutine.CancelsFrom]
      rw [cancelFrom_child, Coroutine.childrenCancelFrom_iff]
      constructor
      · intro hall t ht
        obtain ⟨i, hi⟩ := mem_spawned fresh ht
        have hq := hall _ hi
        rw [hfresh] at hq
        exact ⟨hq.1, fun hkind hf => hq.2 hkind rfl hf⟩
      · intro hall q hq
        obtain ⟨i, -, t, ht, rfl⟩ := spawned_mem hq
        rw [hfresh]
        exact ⟨(hall t ht).1, fun hkind _ hf => (hall t ht).2 hkind hf⟩
  | @child sh' kind state name p p' pre post errors used h ih =>
      have hp := hwf.child (q := p) (by simp)
      have hjoined' := (Coroutine.allJoined_iff _).mp hjoined.2 p (by simp)
      have hpast' := ((Coroutine.allPast_iff _).mp hpast p (by simp)).2
      have hquiet := mt (onChild_cancelled_iff (h.wf hp)).mpr (Bool.eq_false_iff.mp hlive')
      rw [not_or, Bool.not_eq_true] at hquiet
      have hend := h.endAt_eq hfresh hp hlive hjoined' hpast'
      have hfails := h.fails_eq hp hlive
      -- a child of `async_parallel` that has ended now has not failed
      have hown : (kind = .parallel → p'.isFinished = false → p'.erase.fails = true →
          time ≤ p'.endAt unit) ↔ (kind = .parallel → p.isFinished = false →
            p.erase.fails = true → time ≤ p.endAt unit) := by
        rw [hend, hfails]
        constructor
        · intro hle hkind _ hf
          cases hfin : p'.isFinished with
          | false => exact hle hkind hfin hf
          | true => exact absurd ⟨hkind, hfin, hfails.trans hf⟩ hquiet.2
        · intro hle hkind _ hf
          exact hle hkind h.not_finished hf
      simp only [Coroutine.CancelsFrom, Coroutine.childrenCancelFrom_iff, List.forall_mem_append,
        List.forall_mem_cons]
      rw [ih hp hquiet.1 hjoined' hpast', hown]
  | groupEnd hfin =>
      refine iff_of_true trivial ((Coroutine.childrenCancelFrom_iff _).mpr fun q hq => ?_)
      refine ⟨Coroutine.cancelsFrom_finished (hfin q hq), fun _ hnot => ?_⟩
      rw [hfin q hq] at hnot
      cases hnot
  | sourceStep _ ih =>
      cases hwf with
      | source hwf => exact ih hwf hlive' hjoined hpast
  | sourceEnd => rfl

/-- The step that cancels the token comes at the time of the first cancel, or later. -/
theorem Resumes.cancel_time {time : Nat} (h : Resumes ctx now fresh sh p sh' p' used)
    (hfresh : ∀ i, fresh i = now + unit) (hwf : p.erase.WF) (hlive : sh.cancelled = false)
    (hcancel : sh'.cancelled = true) (hjoined : p.Joined) (hpast : p.Past unit now)
    (hfrom : p.CancelsFrom unit time) : time ≤ now := by
  induction h with
  | bodyCancel hc =>
      cases hwf with
      | body => cases hc
  | seriesStep _ ih =>
      cases hwf with
      | series hcur _ => exact ih hcur hcancel hjoined hpast hfrom.1
  | @child sh' kind state name p p' pre post errors used h ih =>
      have hp := hwf.child (q := p) (by simp)
      have hjoined' := (Coroutine.allJoined_iff _).mp hjoined.2 p (by simp)
      have hpast' := ((Coroutine.allPast_iff _).mp hpast p (by simp)).2
      have hown := (Coroutine.childrenCancelFrom_iff _).mp hfrom p (by simp)
      rcases (onChild_cancelled_iff (h.wf hp)).mp hcancel with hc | ⟨hkind, hfin, hf⟩
      · exact ih hp hc hjoined' hpast' hown.1
      · rw [h.fails_eq hp hlive] at hf
        have hle := hown.2 hkind h.not_finished hf
        rwa [← h.endAt_eq hfresh hp hlive hjoined' hpast', h.endAt_finished unit hfin] at hle
  | sourceStep _ ih =>
      cases hwf with
      | source hwf => exact ih hwf hcancel hjoined hpast hfrom
  | _ => simp [hlive] at hcancel

theorem childLeaves_spawned (tasks : List AsyncTask) :
    Coroutine.childLeaves (spawned fresh tasks) = allLeaves tasks := by
  induction tasks generalizing fresh with
  | nil => rfl
  | cons t rest ih => rw [spawned, Coroutine.childLeaves, ih, Coroutine.leaves, allLeaves]

theorem Resumes.leaves_le (h : Resumes ctx now fresh sh p sh' p' used) : p'.leaves ≤ p.leaves := by
  induction h with
  | @enter t _ => cases t <;> exact Nat.le_refl _
  | bodyCancel _ => exact Nat.le_refl _
  | bodySuspend => exact Nat.le_refl _
  | seriesNext _ => exact Nat.le_refl _
  | seriesStep _ ih => exact Nat.add_le_add_right ih _
  | seriesOk => exact Nat.le_add_left _ _
  | fork => exact Nat.le_of_eq (childLeaves_spawned _)
  | child _ ih =>
      simp only [Coroutine.leaves, Coroutine.childLeaves_append]
      omega
  | sourceStep _ ih => exact ih
  | _ => exact Nat.zero_le _

/-- No step on a live token puts the last check off. -/
theorem Resumes.checksBy {time : Nat} (h : Resumes ctx now fresh sh p sh' p' used)
    (hfresh : ∀ i, fresh i = now + unit) (hwf : p.erase.WF) (hlive : sh.cancelled = false)
    (hjoined : p.Joined) (hpast : p.Past unit now) (hby : p.ChecksBy unit time) :
    p'.ChecksBy unit time := by
  induction h with
  | refuse hc => rw [hlive] at hc; cases hc
  | @enter t _ =>
      cases t with
      | newAsyncTask => trivial
      | asyncSeries => exact .inr hby
      | asyncParallel | asyncParallelSettle =>
          intro t ht
          have ht' := ((checkBy_child _).mp hby).2 t ht
          rw [hfresh, Nat.add_assoc, ← Nat.mul_two]
          exact ht'
      | asyncTaskFrom => exact hby
  | bodyCancel _ => trivial
  | bodySuspend => trivial
  | bodyEnd _ => trivial
  | seriesEnd => trivial
  | seriesCancelled hc => rw [hlive] at hc; cases hc
  | seriesNext _ => exact checkBy_series.mp (hby.resolve_left (List.cons_ne_nil _ _))
  | seriesStep h ih =>
      cases hwf with
      | series hcur _ =>
          refine ⟨ih hcur hjoined hpast hby.1, hby.2.imp_right fun hrest => ?_⟩
          rw [h.endAt_eq hfresh hcur hlive hjoined hpast]
          exact ⟨Nat.le_zero.mp (hrest.1 ▸ h.leaves_le), hrest.2⟩
  | seriesOk => exact hby.2.imp_right And.right
  | seriesErr => trivial
  | seriesRaise => trivial
  | fork =>
      refine (Coroutine.childrenCheckBy_iff _).mpr fun q hq => ?_
      obtain ⟨i, -, t, ht, rfl⟩ := spawned_mem hq
      rw [Coroutine.ChecksBy, hfresh]
      exact hby t ht
  | @child sh' kind state name p p' pre post errors used h ih =>
      have hp := hwf.child (q := p) (by simp)
      have hjoined' := (Coroutine.allJoined_iff _).mp hjoined.2 p (by simp)
      have hpast' := ((Coroutine.allPast_iff _).mp hpast p (by simp)).2
      have hall := (Coroutine.childrenCheckBy_iff _).mp hby
      exact (Coroutine.childrenCheckBy_iff _).mpr
        (forall_mem_replace hall (ih hp hjoined' hpast' (hall p (by simp))))
  | groupEnd _ => trivial
  | sourceStep _ ih =>
      cases hwf with
      | source hwf => exact ih hwf hjoined hpast hby
  | sourceEnd => trivial

theorem Coroutine.checksBy_finished {unit time : Nat} {q : Coroutine}
    (h : q.isFinished = true) : q.ChecksBy unit time := by
  cases q <;> trivial

/-- And where it ends no leaf, and comes itself at the time or before, it does not draw the
last check nearer either. -/
theorem Resumes.checksBy_of_leaves {time : Nat} (h : Resumes ctx now fresh sh p sh' p' used)
    (hfresh : ∀ i, fresh i = now + unit) (hwf : p.erase.WF) (hlive : sh.cancelled = false)
    (hjoined : p.Joined) (hpast : p.Past unit now) (hfails : p.erase.fails = false)
    (hleaves : p'.leaves = p.leaves) (hnow : now ≤ time) (hby : p'.ChecksBy unit time) :
    p.ChecksBy unit time := by
  induction h with
  | refuse hc => rw [hlive] at hc; cases hc
  | @enter t _ =>
      cases t with
      | newAsyncTask => exact checkBy_some.mpr hnow
      | asyncSeries _ tasks =>
          rcases hby with rfl | hby
          · exact checkBy_some.mpr hnow
          · exact hby
      | asyncParallel | asyncParallelSettle =>
          refine (checkBy_child _).mpr ⟨hnow, fun t ht => ?_⟩
          have ht' := hby t ht
          rwa [hfresh, Nat.add_assoc, ← Nat.mul_two] at ht'
      | asyncTaskFrom => exact hby
  | bodyCancel _ => trivial
  | bodySuspend => trivial
  | bodyEnd _ => cases hleaves
  | seriesEnd => exact .inl rfl
  | seriesCancelled hc => rw [hlive] at hc; cases hc
  | seriesNext _ => exact .inr (checkBy_series.mpr hby)
  | seriesStep h ih =>
      cases hwf with
      | series hcur _ =>
          simp only [Coroutine.erase, Proc.fails, Bool.or_eq_false_iff] at hfails
          have hsame := Nat.add_right_cancel hleaves
          refine ⟨ih hcur hjoined hpast hfails.1 hsame hby.1, hby.2.imp_right fun hrest => ?_⟩
          rw [← hsame, ← h.endAt_eq hfresh hcur hlive hjoined hpast]
          exact hrest
  | seriesOk => exact ⟨trivial, hby.imp_right fun hrest => ⟨rfl, hrest⟩⟩
  | seriesErr => simp [Coroutine.erase, Proc.fails, Completion.isOk] at hfails
  | seriesRaise => simp [Coroutine.erase, Proc.fails, Completion.isOk] at hfails
  | fork =>
      intro t ht
      obtain ⟨i, hi⟩ := mem_spawned fresh ht
      have hq := (Coroutine.childrenCheckBy_iff _).mp hby _ hi
      rwa [Coroutine.ChecksBy, hfresh] at hq
  | @child sh' kind state name p p' pre post errors used h ih =>
      have hp := hwf.child (q := p) (by simp)
      have hjoined' := (Coroutine.allJoined_iff _).mp hjoined.2 p (by simp)
      have hpast' := ((Coroutine.allPast_iff _).mp hpast p (by simp)).2
      have hall := (Coroutine.childrenCheckBy_iff _).mp hby
      simp only [Coroutine.erase, Coroutine.eraseAll_eq_map, List.map_append, List.map_cons,
        Proc.fails, childFails_append, Bool.or_eq_false_iff] at hfails
      simp only [Coroutine.leaves, Coroutine.childLeaves_append] at hleaves
      have hchild := ih hp hjoined' hpast' hfails.2.2.1 (by omega) (hall p' (by simp))
      exact (Coroutine.childrenCheckBy_iff _).mpr (forall_mem_replace hall hchild)
  | groupEnd hfin =>
      exact (Coroutine.childrenCheckBy_iff _).mpr fun q hq =>
        Coroutine.checksBy_finished (hfin q hq)
  | sourceStep _ ih =>
      cases hwf with
      | source hwf => exact ih hwf hjoined hpast hfails hleaves hby
  | sourceEnd => trivial

end Live

/-! ## What the queue says of the times -/

namespace Coroutine

mutual
/-- No leaf has suspended: each that has been entered is in the queue, so that what it waits for is
its turn and nothing else. -/
def Awake : Coroutine → Prop
  | .body _ ready _ _ _ => ready = true
  | .series _ current _ => current.Awake
  | .group _ _ _ _ children _ => AllAwake children
  | .source _ _ inner => inner.Awake
  | _ => True

def AllAwake : List Coroutine → Prop
  | [] => True
  | p :: rest => p.Awake ∧ AllAwake rest
end

theorem allAwake_iff (ps : List Coroutine) : AllAwake ps ↔ ∀ p ∈ ps, p.Awake := by
  induction ps with
  | nil => simp [AllAwake]
  | cons p rest ih => rw [AllAwake, ih, List.forall_mem_cons]

theorem childLeaves_eq_zero {ps : List Coroutine} (h : childLeaves ps = 0) :
    ∀ p ∈ ps, p.leaves = 0 := by
  induction ps with
  | nil => simp
  | cons p rest ih =>
      rw [childLeaves] at h
      exact List.forall_mem_cons.mpr ⟨by omega, ih (by omega)⟩

theorem awake_of_leaves {p : Coroutine} (h : p.leaves = 0) : p.Awake := by
  induction p with
  | body => cases h
  | series _ _ _ ih => exact ih (Nat.eq_zero_of_add_eq_zero_right h)
  | group _ _ _ _ children _ ih =>
      exact (allAwake_iff children).mpr fun p hp => ih p hp (childLeaves_eq_zero h p hp)
  | source _ _ _ ih => exact ih h
  | _ => trivial

theorem awake_map {f : Nat → Nat} {p : Coroutine} : (p.map f).Awake ↔ p.Awake := by
  induction p with
  | series _ _ _ ih => exact ih
  | group _ _ _ _ children _ ih =>
      simp only [map, Awake, allAwake_iff, mapChildren_eq_map, List.forall_mem_map]
      exact forall₂_congr ih
  | source _ _ _ ih => exact ih
  | _ => rfl

variable {unit time : Nat} {p : Coroutine}

/-- As long as it is not over, something of it is due before its end. -/
theorem exists_queued_le_endAt (unit : Nat) (hawake : p.Awake) (hjoined : p.Joined) :
    ∃ k ∈ p.queued, k ≤ p.endAt unit := by
  induction p with
  | body ticket ready _ _ _ =>
      rw [show ready = true from hawake]
      exact ⟨ticket, List.mem_cons_self, Nat.le_refl ticket⟩
  | series _ _ _ ih =>
      obtain ⟨k, hk, hle⟩ := ih hawake hjoined
      exact ⟨k, hk, Nat.le_add_right_of_le hle⟩
  | group join _ _ _ children _ ih =>
      cases join with
      | some ticket => exact ⟨ticket, List.mem_cons_self, Nat.le_refl ticket⟩
      | none =>
          obtain ⟨⟨q, hq, hfin⟩, hall⟩ := hjoined
          obtain ⟨k, hk, hle⟩ :=
            ih q hq ((allAwake_iff children).mp hawake q hq) ((allJoined_iff children).mp hall q hq)
          refine ⟨k, (mem_queuedAll children).mpr ⟨q, hq, hfin, hk⟩, ?_⟩
          exact Nat.le_add_left_of_le (Nat.le_trans hle (endAt_le_lastEnd hq))
  | source _ _ _ ih => exact ih hawake hjoined
  | pending | seriesHead | fork => exact ⟨_, List.mem_cons_self, Nat.le_add_right _ _⟩
  | finished => exact ⟨_, List.mem_cons_self, Nat.le_refl _⟩

/-- Where a cancel is to come by a time, something is due by then. -/
theorem exists_queued_of_cancel (hawake : p.Awake) (hjoined : p.Joined)
    (hcancel : ¬ p.CancelsFrom unit (time + 1)) : ∃ k ∈ p.queued, k ≤ time := by
  have hstart {start : Nat} {first : Option Nat} (h : ¬ CancelFrom unit start (time + 1) first) :
      start ≤ time := by
    by_contra hlate
    exact h fun k _ => by omega
  induction p with
  | body => exact absurd trivial hcancel
  | series _ current _ ih =>
      rw [CancelsFrom, Classical.not_and_iff_not_or_not] at hcancel
      rcases hcancel with hcurrent | hrest
      · exact ih hawake hjoined hcurrent
      · rw [Classical.not_imp] at hrest
        obtain ⟨k, hk, hle⟩ := exists_queued_le_endAt (p := current) unit hawake hjoined
        exact ⟨k, hk, Nat.le_trans hle (hstart hrest.2)⟩
  | group join _ _ _ children _ ih =>
      rw [CancelsFrom, childrenCancelFrom_iff] at hcancel
      push Not at hcancel
      obtain ⟨q, hq, hcancel⟩ := hcancel
      cases join with
      | some ticket =>
          have hfin := hjoined q hq
          have hown := hcancel (cancelsFrom_finished hfin)
          rw [hfin] at hown
          cases hown.2.1
      | none =>
          have hawake := (allAwake_iff children).mp hawake q hq
          have hjoined := (allJoined_iff children).mp hjoined.2 q hq
          have hfin : q.isFinished = false := by
            by_contra hfin
            rw [Bool.not_eq_false] at hfin
            have hown := hcancel (cancelsFrom_finished hfin)
            rw [hfin] at hown
            cases hown.2.1
          have hdue : ∃ k ∈ q.queued, k ≤ time := by
            by_cases hin : q.CancelsFrom unit (time + 1)
            · obtain ⟨k, hk, hle⟩ := exists_queued_le_endAt unit hawake hjoined
              have hlate := (hcancel hin).2.2.2
              exact ⟨k, hk, by omega⟩
            · exact ih q hq hawake hjoined hin
          obtain ⟨k, hk, hle⟩ := hdue
          exact ⟨k, (mem_queuedAll children).mpr ⟨q, hq, hfin, hk⟩, hle⟩
  | source _ _ _ ih => exact ih hawake hjoined hcancel
  | finished => exact absurd trivial hcancel
  | pending | seriesHead => exact ⟨_, List.mem_cons_self, hstart hcancel⟩
  | fork ticket => exact ⟨ticket, List.mem_cons_self, by have := hstart hcancel; omega⟩

/-- Where all that is due comes after the last check, no check is left. -/
theorem checkFree_of_late (hlate : ∀ k ∈ p.queued, time < k) (hby : p.ChecksBy unit time)
    (hjoined : p.Joined) : p.erase.checkFree = true := by
  induction p with
  | pending ticket =>
      have hdue := hlate ticket List.mem_cons_self
      have hle := CheckBy.start_le hby
      omega
  | seriesHead ticket _ rest =>
      have hdue := hlate ticket List.mem_cons_self
      rcases hby with rfl | hby
      · rfl
      · have hle := hby.start_le
        omega
  | series _ current rest ih =>
      have hcurrent := ih hlate hby.1 hjoined
      rcases hby.2 with rfl | ⟨hleaves, hby⟩
      · rw [erase, Proc.checkFree, hcurrent]
        rfl
      · obtain ⟨k, hk, hle⟩ :=
          exists_queued_le_endAt unit (awake_of_leaves hleaves) hjoined
        have hdue := hlate k hk
        have hend := hby.start_le
        omega
  | fork ticket _ _ _ tasks =>
      cases tasks with
      | nil => rfl
      | cons t rest =>
          have hdue := hlate ticket List.mem_cons_self
          have hle := (hby t List.mem_cons_self).start_le
          omega
  | group join _ _ _ children _ ih =>
      rw [erase, Proc.checkFree, eraseAll_eq_map, childrenCheckFree_iff]
      intro r hr
      obtain ⟨q, hq, rfl⟩ := List.mem_map.mp hr
      cases hfin : q.isFinished with
      | true => exact Proc.checkFree_finished ((isFinished_erase q).trans hfin)
      | false =>
          cases join with
          | some _ =>
              rw [hjoined q hq] at hfin
              cases hfin
          | none =>
              have hlate' : ∀ k ∈ q.queued, time < k := fun k hk =>
                hlate k ((mem_queuedAll children).mpr ⟨q, hq, hfin, hk⟩)
              exact ih q hq hlate' ((childrenCheckBy_iff children).mp hby q hq)
                ((allJoined_iff children).mp hjoined.2 q hq)
  | source _ _ _ ih => exact ih hlate hby hjoined
  | body | finished => rfl

/-- And where no check is left there is none after any time. -/
theorem checksBy_of_checkFree (hfree : p.erase.checkFree = true) : p.ChecksBy unit time := by
  induction p with
  | pending => cases hfree
  | seriesHead _ _ rest => exact .inl (List.isEmpty_iff.mp hfree)
  | series _ _ _ ih =>
      simp only [erase, Proc.checkFree, Bool.and_eq_true, List.isEmpty_iff] at hfree
      exact ⟨ih hfree.1, .inl hfree.2⟩
  | fork _ _ _ _ tasks =>
      cases tasks with
      | nil => simp [ChecksBy]
      | cons t rest => cases hfree
  | group _ _ _ _ children _ ih =>
      rw [erase, Proc.checkFree, eraseAll_eq_map, childrenCheckFree_iff] at hfree
      exact (childrenCheckBy_iff children).mpr fun q hq =>
        ih q hq (hfree q.erase (List.mem_map_of_mem hq))
  | source _ _ _ ih => exact ih hfree
  | body | finished => trivial

end Coroutine

/-! ## A leaf is woken -/

section Wakes

variable {unit time ticket : Nat} {p p' : Coroutine}

theorem Wakes.joined (h : Wakes ticket p p') (hjoined : p.Joined) : p'.Joined := by
  induction h with
  | body => trivial
  | series _ ih => exact ih hjoined
  | child h ih =>
      obtain ⟨hone, hall⟩ := hjoined
      rw [Coroutine.allJoined_iff] at hall
      exact ⟨⟨_, by simp, h.not_finished.2⟩, (Coroutine.allJoined_iff _).mpr
        (forall_mem_replace hall (ih (hall _ (by simp))))⟩
  | source _ ih => exact ih hjoined

theorem Wakes.past {now : Nat} (h : Wakes ticket p p') (hpast : p.Past unit now) :
    p'.Past unit now := by
  induction h with
  | body => trivial
  | series _ ih => exact ih hpast
  | @child kind state name p p' pre post errors h ih =>
      have hall := (Coroutine.allPast_iff _).mp hpast
      refine (Coroutine.allPast_iff _).mpr (forall_mem_replace hall ⟨fun hfin => ?_, ?_⟩)
      · rw [h.not_finished.2] at hfin
        cases hfin
      · exact ih (hall p (by simp)).2
  | source _ ih => exact ih hpast

theorem Wakes.leaves_pos (h : Wakes ticket p p') : 0 < p.leaves := by
  induction h with
  | body => exact Nat.zero_lt_one
  | series _ ih => exact Nat.add_pos_left ih _
  | child _ ih =>
      simp only [Coroutine.leaves, Coroutine.childLeaves_append]
      omega
  | source _ ih => exact ih

/-- It only puts the end off. -/
theorem Wakes.endAt_le (h : Wakes ticket p p') (hle : ∀ m ∈ p.tickets, m ≤ ticket) :
    p.endAt unit ≤ p'.endAt unit := by
  induction h with
  | body => exact hle _ List.mem_cons_self
  | series h ih =>
      simp only [Coroutine.endAt, h.erase]
      exact Nat.add_le_add_right (ih hle) _
  | @child kind state name p p' pre post errors _ ih =>
      have hend := ih fun m hm => hle m ((Coroutine.mem_childTickets _).mpr ⟨p, by simp, hm⟩)
      simp only [Coroutine.endAt, Coroutine.lastEnd_append]
      omega
  | source _ ih => exact ih hle

theorem Wakes.cancelsFrom (h : Wakes ticket p p') (hle : ∀ m ∈ p.tickets, m ≤ ticket)
    (hfrom : p.CancelsFrom unit time) : p'.CancelsFrom unit time := by
  induction h with
  | body => trivial
  | series h ih =>
      refine ⟨ih hle hfrom.1, fun hf k hk => ?_⟩
      rw [h.erase] at hf
      exact Nat.le_trans (hfrom.2 hf k hk) (Nat.add_le_add_right (h.endAt_le hle) _)
  | @child kind state name p p' pre post errors h ih =>
      have hle' : ∀ m ∈ p.tickets, m ≤ ticket := fun m hm =>
        hle m ((Coroutine.mem_childTickets _).mpr ⟨p, by simp, hm⟩)
      have hall := (Coroutine.childrenCancelFrom_iff _).mp hfrom
      have hp := hall p (by simp)
      refine (Coroutine.childrenCancelFrom_iff _).mpr (forall_mem_replace hall
        ⟨ih hle' hp.1, fun hkind _ hf => ?_⟩)
      rw [h.erase] at hf
      exact Nat.le_trans (hp.2 hkind h.not_finished.1 hf) (h.endAt_le hle')
  | source _ ih => exact ih hle hfrom

/-- A check behind the leaf had no bound before. -/
theorem Wakes.checksBy (h : Wakes ticket p p') (hby : p.ChecksBy unit time) :
    p'.ChecksBy unit time := by
  induction h with
  | body => trivial
  | series h ih =>
      refine ⟨ih hby.1, .inl (hby.2.resolve_right fun hrest => ?_)⟩
      have hpos := h.leaves_pos
      rw [hrest.1] at hpos
      exact Nat.lt_irrefl 0 hpos
  | @child kind state name p p' pre post errors _ ih =>
      have hall := (Coroutine.childrenCheckBy_iff _).mp hby
      exact (Coroutine.childrenCheckBy_iff _).mpr
        (forall_mem_replace hall (ih (hall p (by simp))))
  | source _ ih => exact ih hby

end Wakes

end Mulp.Core
