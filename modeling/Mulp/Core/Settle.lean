import Mulp.Core.Cancelled
import Mulp.Core.Turns

/-! Whether `async_parallel_settle` isolates its children.

The children share one token. A nested `async_parallel` with a failing child
cancels it, and a sibling whose last check is still to come may then end with
`cancelled`. So it comes to which is first in the queue: the first cancel of the
one or the last check of the other. -/
namespace Mulp.Core

/-- The child `u` at `j` looks at the token for the last time before any other one can cancel it: in
an earlier round, or in the same one if it comes before the other. The two times are those of the
trees, counted from the round in which the children start, and so this is a condition on the list of
children alone. -/
def Spared (tasks : List AsyncTask) (j : Nat) (u : AsyncTask) : Prop :=
  ∀ (i k : Nat) (t : AsyncTask), tasks[i]? = some t → i ≠ j → t.firstCancel = some k →
    ∃ l, u.lastCheck = some l ∧ (l < k ∨ (l = k ∧ j < i))

namespace Scheduler

end Scheduler

open Scheduler

/-- A direct child, of which the clock says when it starts.

While the token is live it cancels no earlier and looks no later than it may: this is what a step
on a live token keeps, and when another child cancels, it says that no look is left. From then on
there is no use for times. What is kept instead is that the child is settled, for which it has to
be spared; the child that has cancelled is, for it waits for a group that fails. A child that is
not spared may still be known to fail. -/
structure Child (unit start : Nat) (clock : Nat → Nat) (spared : Prop) (sh : Shared) (t : AsyncTask)
    (p : Coroutine) : Prop where
  fails : t.fails = true ∨ spared → p.erase.fails = t.fails
  ends : spared → p.erase.endsCancelled = t.endsCancelled
  cancels : sh.cancelled = false → ∀ time, CancelFrom unit start time t.firstCancel →
    (p.map clock).CancelsFrom unit time
  checks : sh.cancelled = false → ∀ time, CheckBy unit start time t.lastCheck →
    (p.map clock).ChecksBy unit time
  settled : sh.cancelled = true → spared → p.erase.Settled
  fresh : ∀ ticket u, p = .pending ticket u → sh.cancelled = false ∧ clock ticket = start
  entered : ∀ ticket name entered c, p = .finished ticket name entered c → entered = true

section Child

variable {ctx : Context} {now unit start next used : Nat} {clock : Nat → Nat}
  {fresh : Nat → Nat} {spared : Prop} {sh sh' : Shared} {t : AsyncTask} {p p' : Coroutine}

/-- `execute` is called once. -/
theorem Resumes.not_pending {ticket : Nat} {u : AsyncTask} :
    ¬ Resumes ctx now fresh sh p sh' (.pending ticket u) used := by
  intro h
  generalize hq : Coroutine.pending ticket u = q at h
  cases h
  case enter t _ => cases t <;> cases hq
  all_goals cases hq

/-- Only a cancelled token keeps `execute` from entering `run`. -/
theorem Resumes.entered {ticket : Nat} {name : String} {entered : Bool} {c : Completion}
    (h : Resumes ctx now fresh sh p sh' (.finished ticket name entered c) used) :
    entered = true ∨ (sh.cancelled = true ∧ ∃ ticket t, p = .pending ticket t) := by
  generalize hq : Coroutine.finished ticket name entered c = q at h
  cases h
  case refuse hc => exact .inr ⟨hc, _, _, rfl⟩
  case enter t _ => cases t <;> cases hq
  all_goals first | (cases hq; exact .inl rfl) | cases hq

theorem Step.cancelled_mono {ctx : Context} {sh sh' : Shared} {q q' : Proc}
    (h : Step ctx sh q sh' q') (hc : sh.cancelled = true) : sh'.cancelled = true := by
  induction h with
  | child _ ih =>
      unfold onChild
      split
      · split
        · rfl
        · exact ih
      · exact ih
  | seriesStep _ ih => exact ih
  | sourceStep _ ih => exact ih
  | _ => simp [hc]

/-- Nothing makes the token live again. -/
theorem Resumes.live_of_live (h : Resumes ctx now fresh sh p sh' p' used)
    (hlive : sh'.cancelled = false) : sh.cancelled = false := by
  by_contra hc
  rw [Bool.not_eq_false] at hc
  rcases h.erase with hstep | ⟨rfl, -⟩
  · rw [hstep.cancelled_mono hc] at hlive
    cases hlive
  · rw [hc] at hlive
    cases hlive

/-- The step as one of coroutines whose tickets are times. -/
theorem Resumes.timed (clock : Nat → Nat) (h : Resumes ctx now (next + ·) sh p sh' p' used)
    (hbelow : ∀ m ∈ p.tickets, m < next) (hnow : now < next) (due : Nat) :
    Resumes ctx (clock now) (fun _ => due) sh (p.map clock) sh'
      (p'.map (tick clock next due)) used := by
  have hmap := h.map (tick clock next due)
  have hfresh : (fun i => tick clock next due (next + i)) = fun _ => due :=
    funext fun i => tick_of_le (Nat.le_add_right next i)
  rw [map_tick hbelow, tick_of_lt hnow, hfresh] at hmap
  exact hmap

theorem Resumes.fails_mono (h : Resumes ctx now fresh sh p sh' p' used) (hwf : p.erase.WF)
    (hf : p.erase.fails = true) : p'.erase.fails = true := by
  rcases h.erase with hstep | ⟨-, hsame⟩
  · exact hstep.fails_mono hwf hf
  · rwa [hsame]

/-- `Step.outcome` of a coroutine. -/
theorem Resumes.outcome (h : Resumes ctx now fresh sh p sh' p' used) (hwf : p.erase.WF)
    (hsettled : sh.cancelled = false ∨ p.erase.Settled) :
    p'.erase.fails = p.erase.fails ∧ p'.erase.endsCancelled = p.erase.endsCancelled ∧
      (sh'.cancelled = false ∨ p'.erase.Settled) := by
  rcases h.erase with hstep | ⟨rfl, hsame⟩
  · exact hstep.outcome hwf hsettled
  · rw [hsame]
    exact ⟨rfl, rfl, hsettled⟩

theorem Child.live_or_settled (hchild : Child unit start clock spared sh t p) (hspared : spared) :
    sh.cancelled = false ∨ p.erase.Settled := by
  cases hc : sh.cancelled with
  | false => exact .inl rfl
  | true => exact .inr (hchild.settled hc hspared)

/-- The child that runs. -/
theorem Child.resume (hchild : Child unit start clock spared sh t p) (hwf : p.erase.WF)
    (hjoined : p.Joined) (hpast : (p.map clock).Past unit (clock now))
    (hbelow : ∀ m ∈ p.tickets, m < next) (hnow : now < next)
    (h : Resumes ctx now (next + ·) sh p sh' p' used) :
    Child unit start (tick clock next (clock now + unit)) spared sh' t p' := by
  have htimed := h.timed clock hbelow hnow (clock now + unit)
  have hjoined' : (p.map clock).Joined := Coroutine.joined_map.mpr hjoined
  have hwf' : (p.map clock).erase.WF := by rwa [Coroutine.erase_map]
  constructor
  · intro hknown
    cases hf : t.fails with
    | true => exact h.fails_mono hwf ((hchild.fails (.inl hf)).trans hf)
    | false =>
        have hspared : spared := hknown.resolve_left (by rw [hf]; exact Bool.false_ne_true)
        have houtcome := h.outcome hwf (hchild.live_or_settled hspared)
        exact houtcome.1.trans ((hchild.fails hknown).trans hf)
  · intro hspared
    have houtcome := h.outcome hwf (hchild.live_or_settled hspared)
    exact houtcome.2.1.trans (hchild.ends hspared)
  · intro hlive' time hfrom
    have hlive := h.live_of_live hlive'
    exact (htimed.cancelsFrom_iff (fun _ => rfl) hwf' hlive hlive' hjoined' hpast).mpr
      (hchild.cancels hlive time hfrom)
  · intro hlive' time hby
    have hlive := h.live_of_live hlive'
    exact htimed.checksBy (fun _ => rfl) hwf' hlive hjoined' hpast (hchild.checks hlive time hby)
  · intro hc' hspared
    have houtcome := h.outcome hwf (hchild.live_or_settled hspared)
    exact houtcome.2.2.resolve_left (by rw [hc']; exact Bool.noConfusion)
  · rintro ticket u rfl
    exact absurd h Resumes.not_pending
  · rintro ticket name entered c rfl
    rcases h.entered with hent | ⟨hc, last, u, rfl⟩
    · exact hent
    · rw [(hchild.fresh last u rfl).1] at hc
      cases hc

/-- The child of which a leaf is woken. -/
theorem Child.wake (hchild : Child unit start clock spared sh t p) {due : Nat}
    (hbelow : ∀ m ∈ p.tickets, m < next) (hdue : ∀ m < next, clock m ≤ due)
    (h : Wakes next p p') : Child unit start (tick clock next due) spared sh t p' := by
  have htimed := h.map (tick clock next due)
  rw [map_tick hbelow, tick_of_le (Nat.le_refl next)] at htimed
  have hle : ∀ m ∈ (p.map clock).tickets, m ≤ due := by
    intro m hm
    rw [Coroutine.tickets_map] at hm
    obtain ⟨a, ha, rfl⟩ := List.mem_map.mp hm
    exact hdue a (hbelow a ha)
  constructor
  · rw [h.erase]
    exact hchild.fails
  · rw [h.erase]
    exact hchild.ends
  · exact fun hlive time hfrom => htimed.cancelsFrom hle (hchild.cancels hlive time hfrom)
  · exact fun hlive time hby => htimed.checksBy (hchild.checks hlive time hby)
  · rw [h.erase]
    exact hchild.settled
  · rintro ticket u rfl
    cases h
  · rintro ticket name entered c rfl
    cases h

/-- A child that does not run, while the token stays as it is. -/
theorem Child.tick (hchild : Child unit start clock spared sh t p) {due : Nat}
    (hbelow : ∀ m ∈ p.tickets, m < next) (hsame : sh'.cancelled = sh.cancelled) :
    Child unit start (tick clock next due) spared sh' t p where
  fails := hchild.fails
  ends := hchild.ends
  cancels := by
    rw [map_tick hbelow, hsame]
    exact hchild.cancels
  checks := by
    rw [map_tick hbelow, hsame]
    exact hchild.checks
  settled := by
    rw [hsame]
    exact hchild.settled
  fresh := by
    rintro ticket u rfl
    rw [tick_of_lt (hbelow ticket List.mem_cons_self), hsame]
    exact hchild.fresh ticket u rfl
  entered := hchild.entered

/-- A child that does not run, while another one cancels the token: if it is spared, it has looked
for the last time. -/
theorem Child.cancelled (hchild : Child unit start clock spared sh t p)
    (hlive : sh.cancelled = false) (hjoined : p.Joined) (hbelow : ∀ m ∈ p.tickets, m < next)
    {due : Nat} (hlater : p.isFinished = false → ∀ m ∈ p.queued, clock now ≤ clock m)
    (hstart : start < clock now)
    (hspared : spared → ∃ time < clock now, CheckBy unit start time t.lastCheck)
    (hdead : sh'.cancelled = true) :
    Child unit start (Scheduler.tick clock next due) spared sh' t p where
  fails := hchild.fails
  ends := hchild.ends
  cancels := fun h => by rw [hdead] at h; cases h
  checks := fun h => by rw [hdead] at h; cases h
  settled := by
    intro _ hs
    obtain ⟨time, htime, hby⟩ := hspared hs
    cases hfin : p.isFinished with
    | true => exact .inl (Proc.checkFree_finished ((Coroutine.isFinished_erase p).trans hfin))
    | false =>
        have hlate : ∀ k ∈ (p.map clock).queued, time < k := by
          intro k hk
          rw [Coroutine.queued_map] at hk
          obtain ⟨m, hm, rfl⟩ := List.mem_map.mp hk
          exact Nat.lt_of_lt_of_le htime (hlater hfin m hm)
        have hfree := Coroutine.checkFree_of_late hlate (hchild.checks hlive time hby)
          (Coroutine.joined_map.mpr hjoined)
        rw [Coroutine.erase_map] at hfree
        exact .inl hfree
  fresh := by
    rintro ticket u rfl
    have hle := hlater rfl ticket List.mem_cons_self
    rw [(hchild.fresh ticket u rfl).2] at hle
    omega
  entered := hchild.entered

/-- The child whose step cancels the token: its first cancel is now, or was to come before. -/
theorem Child.cancelling (hchild : Child unit start clock spared sh t p) (hwf : p.erase.WF)
    (hjoined : p.Joined) (hpast : (p.map clock).Past unit (clock now))
    (hbelow : ∀ m ∈ p.tickets, m < next) (hnow : now < next)
    (h : Resumes ctx now (next + ·) sh p sh' p' used) (hlive : sh.cancelled = false)
    (hdead : sh'.cancelled = true) : ∃ k, t.firstCancel = some k ∧ start + unit * k ≤ clock now := by
  have htimed := h.timed clock hbelow hnow (clock now + unit)
  have hjoined' : (p.map clock).Joined := Coroutine.joined_map.mpr hjoined
  have hwf' : (p.map clock).erase.WF := by rwa [Coroutine.erase_map]
  have htime : ∀ time, CancelFrom unit start time t.firstCancel → time ≤ clock now :=
    fun time hfrom => htimed.cancel_time (fun _ => rfl) hwf' hlive hdead hjoined' hpast
      (hchild.cancels hlive time hfrom)
  cases hfirst : t.firstCancel with
  | none =>
      have hle := htime (clock now + 1) (by rw [hfirst]; exact cancelFrom_none)
      omega
  | some k =>
      exact ⟨k, rfl, htime _ (by rw [hfirst]; exact cancelFrom_some.mpr (Nat.le_refl _))⟩

end Child

/-! ## What holds of all children -/

/-- The clock's round has a tick for each child, in their order. -/
def roundOf (tasks : List AsyncTask) : Nat := tasks.length + 1

/-- The scheduler is in the group with the children: it has gone through the two turns before they
are spawned, and has not left the group. The clock fits the tickets that have been given out. -/
structure Grouped (tasks : List AsyncTask) (clock : Nat → Nat) (s : Scheduler)
    (children : List Coroutine) : Prop where
  timed : Timed (roundOf tasks) clock s
  root : ∃ join state name errors, s.root = .group join .settle state name children errors
  length : children.length = tasks.length

/-- And each of them is as it may be. The rounds of all of them are counted from the first round in
which they run, and the child at `i` has its turn in a round after `i` others. -/
structure Running (tasks : List AsyncTask) (clock : Nat → Nat) (s : Scheduler)
    (children : List Coroutine) : Prop extends Grouped tasks clock s children where
  child : ∀ i t p, tasks[i]? = some t → children[i]? = some p →
    Child (roundOf tasks) (roundOf tasks + i) clock (Spared tasks i t) s.shared t p

section Replace

variable {α : Type} {pre post : List α} {a b : α} {i : Nat}

theorem getElem?_replace_self : (pre ++ a :: post)[pre.length]? = some a := by
  simp

theorem getElem?_replace_ne (h : i ≠ pre.length) :
    (pre ++ a :: post)[i]? = (pre ++ b :: post)[i]? := by
  rcases Nat.lt_or_gt_of_ne h with hlt | hgt
  · rw [List.getElem?_append_left hlt, List.getElem?_append_left hlt]
  · rw [List.getElem?_append_right (Nat.le_of_lt hgt), List.getElem?_append_right (Nat.le_of_lt hgt)]
    obtain ⟨n, hn⟩ := Nat.exists_eq_add_of_lt hgt
    rw [show i - pre.length = n + 1 by omega, List.getElem?_cons_succ, List.getElem?_cons_succ]

end Replace

mutual
/-- A cancel takes a group, and that takes two rounds. -/
theorem AsyncTask.two_le_firstCancel : (t : AsyncTask) → ∀ k, t.firstCancel = some k → 2 ≤ k
  | .newAsyncTask _ _ _, _, h => by cases h
  | .asyncSeries _ tasks, k, h => two_le_seriesFirstCancel tasks k h
  | .asyncParallel _ _, k, h => by
      obtain ⟨l, -, rfl⟩ := Option.map_eq_some_iff.mp h
      exact Nat.le_add_right 2 l
  | .asyncParallelSettle _ _, k, h => by
      obtain ⟨l, -, rfl⟩ := Option.map_eq_some_iff.mp h
      exact Nat.le_add_right 2 l
  | .asyncTaskFrom _ _ source, k, h => source.two_le_firstCancel k h

theorem two_le_seriesFirstCancel :
    (tasks : List AsyncTask) → ∀ k, seriesFirstCancel tasks = some k → 2 ≤ k
  | [], _, h => by cases h
  | t :: rest, k, h => by
      rw [seriesFirstCancel] at h
      split at h
      · exact t.two_le_firstCancel k h
      · obtain ⟨l, hl, rfl⟩ := Option.map_eq_some_iff.mp h
        exact Nat.le_add_left_of_le (two_le_seriesFirstCancel rest l hl)
end

section Running

variable {ctx : Context} {tasks : List AsyncTask} {clock : Nat → Nat} {s s' : Scheduler}
  {children : List Coroutine}

theorem Grouped.mem_tickets (h : Grouped tasks clock s children) {p : Coroutine}
    (hp : p ∈ children) : ∀ m ∈ p.tickets, m < s.next := by
  intro m hm
  obtain ⟨join, state, name, errors, hroot⟩ := h.root
  apply h.timed.below
  rw [hroot]
  exact List.mem_append_right _ ((Coroutine.mem_childTickets children).mpr ⟨p, hp, hm⟩)

theorem Grouped.exists_getElem? (h : Grouped tasks clock s children) {i : Nat}
    (hi : i < tasks.length) : ∃ p, children[i]? = some p :=
  ⟨_, List.getElem?_eq_getElem (h.length ▸ hi)⟩

theorem Grouped.wf (h : Grouped tasks clock s children) {p : Coroutine} (hp : p ∈ children) :
    p.erase.WF := by
  obtain ⟨join, state, name, errors, hroot⟩ := h.root
  have hwf := h.timed.wf
  rw [hroot] at hwf
  exact Proc.WF.child hwf hp

theorem Grouped.joined (h : Grouped tasks clock s children) {p : Coroutine} (hp : p ∈ children) :
    p.Joined := by
  obtain ⟨join, state, name, errors, hroot⟩ := h.root
  have hjoined := h.timed.joined
  rw [hroot] at hjoined
  cases join with
  | none => exact (Coroutine.allJoined_iff children).mp hjoined.2 p hp
  | some _ =>
      have hfin := hjoined p hp
      cases p with
      | finished => trivial
      | _ => cases hfin

theorem Grouped.past (h : Grouped tasks clock s children) {now : Nat} (hnow : now ∈ s.root.queued)
    {p : Coroutine} (hp : p ∈ children) : (p.map clock).Past (roundOf tasks) (clock now) := by
  obtain ⟨join, state, name, errors, hroot⟩ := h.root
  obtain ⟨last, -, hpast, hfirst⟩ := h.timed.past
  rw [hroot] at hpast
  have hall := (Coroutine.allPast_iff _).mp hpast
  rw [Coroutine.mapChildren_eq_map] at hall
  exact (hall _ (List.mem_map_of_mem hp)).2.mono (hfirst now hnow)

theorem Running.exists_child (h : Running tasks clock s children) {i : Nat} {p : Coroutine}
    (hp : children[i]? = some p) : ∃ t, tasks[i]? = some t ∧
      Child (roundOf tasks) (roundOf tasks + i) clock (Spared tasks i t) s.shared t p := by
  have hi := (List.getElem?_eq_some_iff.mp hp).1
  rw [h.length] at hi
  have ht : tasks[i]? = some tasks[i] := List.getElem?_eq_getElem hi
  exact ⟨_, ht, h.child i _ p ht hp⟩

/-- Where a child cancels the token, another that is spared has looked at it for the last time. -/
theorem Running.cancelled (h : Running tasks clock s children)
    (hlive : s.shared.cancelled = false) {now i j k : Nat} {t u : AsyncTask} {q : Coroutine}
    (hlater : q.isFinished = false → ∀ m ∈ q.queued, clock now ≤ clock m) (hij : j ≠ i)
    (ht : tasks[i]? = some t) (hu : tasks[j]? = some u) (hq : children[j]? = some q)
    (hk : t.firstCancel = some k) (hnow : roundOf tasks + i + roundOf tasks * k ≤ clock now)
    {sh' : Shared} (hdead : sh'.cancelled = true) {due : Nat} :
    Child (roundOf tasks) (roundOf tasks + j) (tick clock s.next due) (Spared tasks j u) sh' u q := by
  have hmem := List.mem_of_getElem? hq
  have hj : j < roundOf tasks := Nat.lt_succ_of_lt (List.getElem?_eq_some_iff.mp hu).1
  refine (h.child j u q hu hq).cancelled hlive (h.joined hmem) (h.mem_tickets hmem) hlater ?_ ?_
    hdead
  · -- a cancel takes two rounds, and the children start within one
    have htwo := Nat.mul_le_mul_left (roundOf tasks) (t.two_le_firstCancel k hk)
    omega
  · intro hspared
    obtain ⟨l, hl, hround⟩ := hspared i k t ht hij.symm hk
    refine ⟨roundOf tasks + j + roundOf tasks * l, ?_, l, hl, Nat.le_refl _⟩
    rcases hround with hlt | ⟨rfl, hji⟩
    · have hle := Nat.mul_le_mul_left (roundOf tasks) (Nat.succ_le_of_lt hlt)
      rw [Nat.mul_succ] at hle
      omega
    · omega

/-- Each turn keeps it, until the group is over. -/
theorem Running.turn (h : Running tasks clock s children)
    (hturn : Turn ctx s s') :
    s'.root.isFinished = true ∨ ∃ clock' children', Running tasks clock' s' children' := by
  obtain ⟨join, state, name, errors, hroot⟩ := h.root
  have hqueued := congrArg Coroutine.queued hroot
  cases hturn with
  | @resume ticket used sh' root' hhead hres =>
      have htimed := h.timed.resume hhead hres
      have hnow := hres.now_mem
      have hlt := h.timed.queued_lt hnow
      rw [hroot] at hres
      cases join with
      | some _ => cases hres; exact .inl rfl
      | none =>
          cases hres with
          | @child sh₁ _ _ _ p p' pre post _ used hstep =>
              refine .inr ⟨_, pre ++ p' :: post, ⟨htimed, ⟨_, _, _, _, rfl⟩, ?_⟩, fun i t q ht hq => ?_⟩
              · rw [← h.length, List.length_append, List.length_append]
                rfl
              · have hp : p ∈ pre ++ p :: post := by simp
                rw [onChild_settle]
                by_cases hi : i = pre.length
                · subst hi
                  rw [getElem?_replace_self] at hq
                  cases hq
                  exact (h.child _ t p ht getElem?_replace_self).resume (h.wf hp) (h.joined hp)
                    (h.past hnow hp) (h.mem_tickets hp) hlt hstep
                · have hq' : (pre ++ p :: post)[i]? = some q := by
                    rw [← hq]
                    exact getElem?_replace_ne hi
                  have hqmem := List.mem_of_getElem? hq'
                  have hkept : sh₁.cancelled = s.shared.cancelled → Child (roundOf tasks)
                      (roundOf tasks + i) (tick clock s.next (clock ticket + roundOf tasks))
                      (Spared tasks i t) sh₁ t q :=
                    (h.child i t q ht hq').tick (h.mem_tickets hqmem)
                  cases hc : s.shared.cancelled with
                  | true =>
                      apply hkept
                      by_contra hne
                      rw [hc, Bool.not_eq_true] at hne
                      rw [hstep.live_of_live hne] at hc
                      cases hc
                  | false =>
                      cases hc' : sh₁.cancelled with
                      | false => exact hkept (hc'.trans hc.symm)
                      | true =>
                          obtain ⟨t₀, ht₀, hchild⟩ := h.exists_child getElem?_replace_self
                          obtain ⟨k, hk, htime⟩ := hchild.cancelling (h.wf hp) (h.joined hp)
                            (h.past hnow hp) (h.mem_tickets hp) hlt hstep hc hc'
                          refine h.cancelled hc (fun hfin m hm => ?_) hi ht₀ ht hq' hk htime
                            hc'
                          have hm' : m ∈ s.root.queued := by
                            rw [hqueued]
                            exact (Coroutine.mem_queuedAll _).mpr ⟨q, hqmem, hfin, hm⟩
                          exact h.timed.mono ticket m (hhead m hm') (h.timed.queued_lt hm')
  | @wake root' hwakes =>
      have htimed := h.timed.wake hwakes
      rw [hroot] at hwakes
      cases hwakes with
      | @child _ _ _ p p' pre post _ hstep =>
          refine .inr ⟨_, pre ++ p' :: post, ⟨htimed, ⟨_, _, _, _, rfl⟩, ?_⟩, fun i t q ht hq => ?_⟩
          · rw [← h.length, List.length_append, List.length_append]
            rfl
          · have hp : p ∈ pre ++ p :: post := by simp
            by_cases hi : i = pre.length
            · subst hi
              rw [getElem?_replace_self] at hq
              cases hq
              have hdue : ∀ m < s.next, clock m ≤ clock (s.next - 1) := fun m hm =>
                h.timed.mono m _ (by omega) (by omega)
              exact (h.child _ t p ht getElem?_replace_self).wake (h.mem_tickets hp) hdue hstep
            · have hq' : (pre ++ p :: post)[i]? = some q := by
                rw [← hq]
                exact getElem?_replace_ne hi
              exact (h.child i t q ht hq').tick (h.mem_tickets (List.mem_of_getElem? hq')) rfl

/-! ## Runs -/

theorem getElem?_spawned (fresh : Nat → Nat) (tasks : List AsyncTask) (i : Nat) :
    (spawned fresh tasks)[i]? = (tasks[i]?).map (Coroutine.pending (fresh i)) := by
  induction tasks generalizing fresh i with
  | nil => rfl
  | cons t rest ih =>
      cases i with
      | zero => rfl
      | succ i => exact ih (fun i => fresh (i + 1)) i

theorem length_spawned (fresh : Nat → Nat) (tasks : List AsyncTask) :
    (spawned fresh tasks).length = tasks.length := by
  induction tasks generalizing fresh with
  | nil => rfl
  | cons t rest ih => rw [spawned, List.length_cons, ih, List.length_cons]

/-- The clock at the start: the children are due one after the other, in the round after the one
in which they are spawned. -/
def startClock (tasks : List AsyncTask) (m : Nat) : Nat :=
  if m < 2 then 0 else roundOf tasks + (m - 2)

theorem startClock_add (tasks : List AsyncTask) (i : Nat) :
    startClock tasks (2 + i) = roundOf tasks + i := by
  rw [startClock, if_neg (by omega), Nat.add_sub_cancel_left]

theorem Grouped.start {state : Nat} {name : String} {sh sh' : Shared} {root : Coroutine}
    {used : Nat} (hplain : ∀ t ∈ tasks, t.Plain)
    (h : Resumes ctx 1 (2 + ·) sh (.fork 1 .settle state name tasks) sh' root used) :
    Grouped tasks (startClock tasks) ⟨2 + used, sh', root⟩ (spawned (2 + ·) tasks) := by
  have hwf : (Coroutine.fork 1 .settle state name tasks).erase.WF := wf_spawnAll hplain
  have hpast : (root.map (startClock tasks)).Past (roundOf tasks) (startClock tasks 1) :=
    (h.map (startClock tasks)).past trivial
  have hbelow : ∀ m ∈ root.tickets, m < 2 + used := by
    intro m hm
    rcases h.tickets hm with hold | ⟨i, hi, rfl⟩
    · rw [List.mem_singleton.mp hold]
      omega
    · omega
  have hrootwf := h.wf hwf
  have hjoined := h.joined trivial
  cases h with
  | fork =>
      have hused : (joinTicket (2 + ·) tasks.length (spawned (2 + ·) tasks)).2 ≤ roundOf tasks := by
        rcases joinTicket_cases (2 + ·) tasks.length (spawned (2 + ·) tasks) with
          ⟨-, heq⟩ | ⟨-, heq⟩ <;> rw [heq]
        · exact Nat.le_refl _
        · exact Nat.le_succ _
      have hqueued : ∀ a ∈ (Coroutine.group (joinTicket (2 + ·) tasks.length
          (spawned (2 + ·) tasks)).1 .settle state name (spawned (2 + ·) tasks) []).queued,
            roundOf tasks ≤ startClock tasks a := by
        intro a ha
        obtain ⟨i, -, rfl⟩ := mem_queued_spawned ha
        rw [startClock_add]
        exact Nat.le_add_right _ _
      refine ⟨⟨hrootwf, hjoined, hbelow, ?_, ?_, 1, ?_, hpast, ?_⟩, ⟨_, _, _, _, rfl⟩,
        length_spawned _ tasks⟩
      · intro a b hab _
        unfold startClock
        split <;> split <;> omega
      · intro a ha b hb
        have hle := hqueued a ha
        have hb' : b < 2 + (joinTicket (2 + ·) tasks.length (spawned (2 + ·) tasks)).2 := hb
        have hle' : startClock tasks b ≤ roundOf tasks + roundOf tasks := by
          unfold startClock
          split <;> omega
        omega
      · show 1 < 2 + _
        omega
      · exact fun a _ => Nat.zero_le _

/-- Each child is due at its own time. -/
theorem map_spawned {i : Nat} {t : AsyncTask} {p : Coroutine} (ht : tasks[i]? = some t)
    (hp : (spawned (2 + ·) tasks)[i]? = some p) :
    p = .pending (2 + i) t ∧
      p.map (startClock tasks) = .pending (roundOf tasks + i) t := by
  rw [getElem?_spawned, ht, Option.map_some, Option.some.injEq] at hp
  subst hp
  rw [Coroutine.map, startClock_add]
  exact ⟨rfl, rfl⟩

theorem Running.start {state : Nat} {name : String} {sh : Shared} {root : Coroutine}
    {used : Nat} (hplain : ∀ t ∈ tasks, t.Plain) (hlive : sh.cancelled = false)
    (h : Resumes ctx 1 (2 + ·) sh (.fork 1 .settle state name tasks) sh root used) :
    Running tasks (startClock tasks) ⟨2 + used, sh, root⟩ (spawned (2 + ·) tasks) := by
  refine ⟨.start hplain h, fun i t p ht hp => ?_⟩
  obtain ⟨rfl, hmap⟩ := map_spawned ht hp
  constructor
  · exact fun _ => rfl
  · exact fun _ => rfl
  · intro _ time hfrom
    rw [hmap]
    exact hfrom
  · intro _ time hby
    rw [hmap]
    exact hby
  · intro hc
    rw [hlive] at hc
    cases hc
  · rintro ticket u ⟨⟩
    exact ⟨hlive, startClock_add tasks i⟩
  · nofun

end Running

end Mulp.Core
