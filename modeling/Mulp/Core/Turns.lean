import Mulp.Core.Clock

/-! The clock of a whole run, and that every run can be brought to its end.

The clock gives each ticket its time: a round after the coroutine that gave it
out, or, where a leaf is woken, the time of the last ticket. As the queue is
served in the order of the tickets, it never goes back, and what is in the queue
is never more than a round apart. -/
namespace Mulp.Core

namespace Scheduler

/-- The clock, where all tickets from `next` on are due at `due`. -/
def tick (clock : Nat → Nat) (next due m : Nat) : Nat := if m < next then clock m else due

theorem tick_of_lt {clock : Nat → Nat} {next due m : Nat} (h : m < next) :
    tick clock next due m = clock m := if_pos h

theorem tick_of_le {clock : Nat → Nat} {next due m : Nat} (h : next ≤ m) :
    tick clock next due m = due := if_neg (Nat.not_lt.mpr h)

theorem map_tick {clock : Nat → Nat} {next due : Nat} {p : Coroutine}
    (h : ∀ m ∈ p.tickets, m < next) : p.map (tick clock next due) = p.map clock :=
  Coroutine.map_congr fun m hm => tick_of_lt (h m hm)

/-- The clock fits the tickets that have been given out. What is over ended when the last coroutine
ran, or before, and all that is ready is due from then on; and nothing is due more than a round
later than anything else. By this the coroutine at the head of the queue is one that is due first,
and what it hands on is due last. -/
structure Timed (unit : Nat) (clock : Nat → Nat) (s : Scheduler) : Prop where
  wf : s.root.erase.WF
  joined : s.root.Joined
  below : ∀ m ∈ s.root.tickets, m < s.next
  mono : ∀ a b, a ≤ b → b < s.next → clock a ≤ clock b
  span : ∀ a ∈ s.root.queued, ∀ b < s.next, clock b ≤ clock a + unit
  past : ∃ last < s.next, (s.root.map clock).Past unit (clock last) ∧
    ∀ a ∈ s.root.queued, clock last ≤ clock a

section Run

variable {ctx : Context} {unit : Nat} {clock : Nat → Nat} {s : Scheduler}

theorem Timed.queued_lt (ht : Timed unit clock s) {m : Nat} (hm : m ∈ s.root.queued) :
    m < s.next := ht.below m (Coroutine.queued_subset_tickets hm)

/-- The clock goes on: later tickets are due no earlier. -/
theorem tick_mono (ht : Timed unit clock s) {due bound : Nat} (hdue : ∀ a < s.next, clock a ≤ due) :
    ∀ a b, a ≤ b → b < bound → tick clock s.next due a ≤ tick clock s.next due b := by
  intro a b hab hb
  rcases Nat.lt_or_ge b s.next with hb | hb
  · rw [tick_of_lt hb, tick_of_lt (Nat.lt_of_le_of_lt hab hb)]
    exact ht.mono a b hab hb
  · rw [tick_of_le hb]
    rcases Nat.lt_or_ge a s.next with ha | ha
    · rw [tick_of_lt ha]
      exact hdue a ha
    · exact Nat.le_of_eq (tick_of_le ha)

theorem Timed.resume (ht : Timed unit clock s) {ticket used : Nat} {sh : Shared} {p : Coroutine}
    (hhead : ∀ other ∈ s.root.queued, ticket ≤ other)
    (h : Resumes ctx ticket (s.next + ·) s.shared s.root sh p used) :
    Timed unit (tick clock s.next (clock ticket + unit)) ⟨s.next + used, sh, p⟩ := by
  have hticket := ht.queued_lt h.now_mem
  have hdue : ∀ a < s.next, clock a ≤ clock ticket + unit := ht.span ticket h.now_mem
  -- what is in the queue is as late as the ticket that has left it, and no more than a round later
  have hready : ∀ a ∈ p.queued,
      clock ticket ≤ tick clock s.next (clock ticket + unit) a ∧ a < s.next + used := by
    intro a ha
    rcases h.queued ha with hold | ⟨i, hi, rfl⟩
    · have hlt := ht.queued_lt hold
      rw [tick_of_lt hlt]
      exact ⟨ht.mono ticket a (hhead a hold) hlt, by omega⟩
    · rw [tick_of_le (Nat.le_add_right _ _)]
      exact ⟨Nat.le_add_right _ _, by omega⟩
  constructor
  · exact h.wf ht.wf
  · exact h.joined ht.joined
  · intro m hm
    rcases h.tickets hm with hold | ⟨i, hi, rfl⟩
    · exact Nat.lt_add_right used (ht.below m hold)
    · show s.next + i < s.next + used
      omega
  · exact tick_mono ht hdue
  · intro a ha b _
    have hle := (hready a ha).1
    rcases Nat.lt_or_ge b s.next with hb | hb
    · rw [tick_of_lt hb]
      exact Nat.le_trans (hdue b hb) (Nat.add_le_add_right hle unit)
    · rw [tick_of_le hb]
      exact Nat.add_le_add_right hle unit
  · refine ⟨ticket, Nat.lt_add_right used hticket, ?_, fun a ha => ?_⟩
    · obtain ⟨last, hlast, hpast, hfirst⟩ := ht.past
      have hstep := h.map (tick clock s.next (clock ticket + unit))
      rw [map_tick ht.below] at hstep
      exact hstep.past (by
        rw [tick_of_lt hticket]
        exact hpast.mono (hfirst ticket h.now_mem))
    · rw [tick_of_lt hticket]
      exact (hready a ha).1

theorem Timed.wake (ht : Timed unit clock s) {p : Coroutine} (h : Wakes s.next s.root p) :
    Timed unit (tick clock s.next (clock (s.next - 1))) ⟨s.next + 1, s.shared, p⟩ := by
  obtain ⟨last, hlast, hpast, hfirst⟩ := ht.past
  have hlatest : s.next - 1 < s.next := by omega
  have hdue : ∀ a < s.next, clock a ≤ clock (s.next - 1) := fun a ha =>
    ht.mono a _ (by omega) hlatest
  constructor
  · rw [h.erase]
    exact ht.wf
  · exact h.joined ht.joined
  · intro m hm
    rcases h.tickets hm with hold | rfl
    · exact Nat.lt_add_right 1 (ht.below m hold)
    · exact Nat.lt_succ_self _
  · exact tick_mono ht hdue
  · intro a ha b _
    have hb : tick clock s.next (clock (s.next - 1)) b ≤ clock (s.next - 1) := by
      rcases Nat.lt_or_ge b s.next with hb | hb
      · rw [tick_of_lt hb]
        exact hdue b hb
      · exact Nat.le_of_eq (tick_of_le hb)
    refine Nat.le_trans hb ?_
    rcases h.queued ha with hold | rfl
    · rw [tick_of_lt (ht.queued_lt hold)]
      exact ht.span a hold _ hlatest
    · rw [tick_of_le (Nat.le_refl _)]
      exact Nat.le_add_right _ _
  · refine ⟨last, Nat.lt_add_right 1 hlast, ?_, fun a ha => ?_⟩
    · have hstep := h.map (tick clock s.next (clock (s.next - 1)))
      rw [map_tick ht.below] at hstep
      rw [tick_of_lt hlast]
      exact hstep.past hpast
    · rw [tick_of_lt hlast]
      rcases h.queued ha with hold | rfl
      · rw [tick_of_lt (ht.queued_lt hold)]
        exact hfirst a hold
      · rw [tick_of_le (Nat.le_refl _)]
        exact hdue last hlast

end Run

end Scheduler

/-! ## To the end -/

namespace Coroutine

mutual
/-- What is left to do: a leaf that suspends takes a little off, and one that is
woken adds as much, but every other step takes off more. -/
def weight : Coroutine → Nat
  | .pending _ t => 3 * t.work
  | .body _ ready _ _ _ => if ready then 4 else 3
  | .seriesHead _ _ rest => 3 * seriesWork rest
  | .series _ current rest => current.weight + 3 + 3 * seriesWork rest
  | .fork _ _ _ _ tasks => 3 * groupWork tasks + 4
  | .group _ _ _ _ children _ => childWeight children + 2
  | .source _ _ inner => inner.weight + 3
  | .finished _ _ _ _ => 0

def childWeight : List Coroutine → Nat
  | [] => 0
  | p :: rest => p.weight + childWeight rest
end

theorem childWeight_append (pre post : List Coroutine) (p : Coroutine) :
    childWeight (pre ++ p :: post) = childWeight pre + (p.weight + childWeight post) := by
  induction pre with
  | nil => simp [childWeight]
  | cons q pre ih => simp [childWeight, ih]; omega

theorem childLeaves_finished {ps : List Coroutine} (h : ∀ p ∈ ps, p.isFinished = true) :
    childLeaves ps = 0 := by
  induction ps with
  | nil => rfl
  | cons p rest ih =>
      rw [List.forall_mem_cons] at h
      rw [childLeaves, ih h.2]
      cases p with
      | finished => rfl
      | _ => cases h.1

end Coroutine

theorem childWeight_spawned (fresh : Nat → Nat) (tasks : List AsyncTask) :
    Coroutine.childWeight (spawned fresh tasks) = 3 * groupWork tasks := by
  induction tasks generalizing fresh with
  | nil => rfl
  | cons t rest ih =>
      rw [spawned, Coroutine.childWeight, ih, Coroutine.weight, groupWork, Nat.mul_add]

theorem AsyncTask.weight_enterAt (ticket : Nat) (fresh : Nat → Nat) (t : AsyncTask) :
    (t.enterAt ticket fresh).1.weight + 2 ≤ 3 * t.work := by
  cases t <;> simp only [AsyncTask.enterAt, Coroutine.weight, AsyncTask.work, if_true] <;> omega

theorem AsyncTask.awake_enterAt (ticket : Nat) (fresh : Nat → Nat) (t : AsyncTask) :
    (t.enterAt ticket fresh).1.Awake := by
  cases t <;> trivial

theorem AsyncTask.leaves_enterAt (ticket : Nat) (fresh : Nat → Nat) (t : AsyncTask) :
    (t.enterAt ticket fresh).1.leaves = t.leaves := by
  cases t <;> rfl

theorem awake_spawned (fresh : Nat → Nat) (tasks : List AsyncTask) :
    Coroutine.AllAwake (spawned fresh tasks) := by
  refine (Coroutine.allAwake_iff _).mpr fun q hq => ?_
  obtain ⟨i, -, t, -, rfl⟩ := spawned_mem hq
  trivial

/-- What a step does that lets leaves end, or, if `hold` is set, suspends them instead. A weight
falls with every such step, by two where leaves end, so that there is room for the wake that an
awake leaf would take: this is why there is an end of a run, and a run that comes to a given point.
-/
structure Goes (ctx : Context) (hold : Bool) (now : Nat) (fresh : Nat → Nat) (sh : Shared)
    (p : Coroutine) (sh' : Shared) (p' : Coroutine) (used : Nat) : Prop where
  resumes : Resumes ctx now fresh sh p sh' p' used
  weight : p'.weight < p.weight
  goes : hold = false → p'.weight + 2 ≤ p.weight ∧ (p.Awake → p'.Awake)
  holds : hold = true → sh.cancelled = false → p.erase.fails = false → p'.leaves = p.leaves

/-- What stands in the queue can go on. -/
theorem Coroutine.exists_goes (ctx : Context) (hold : Bool) {now : Nat} (fresh : Nat → Nat)
    (sh : Shared) {p : Coroutine} (hwf : p.erase.WF) (hjoined : p.Joined)
    (hfin : p.isFinished = false) (hnow : now ∈ p.queued) :
    ∃ sh' p' used, Goes ctx hold now fresh sh p sh' p' used := by
  induction p with
  | pending ticket t =>
      obtain rfl := List.mem_singleton.mp hnow
      have hwork := t.work_pos
      cases hc : sh.cancelled with
      | true =>
          refine ⟨_, _, _, .refuse hc, ?_, fun _ => ⟨?_, fun _ => trivial⟩, fun _ hlive => ?_⟩
          · show 0 < 3 * t.work
            omega
          · show 0 + 2 ≤ 3 * t.work
            omega
          · rw [hc] at hlive
            cases hlive
      | false =>
          have hweight := t.weight_enterAt now fresh
          refine ⟨_, _, _, .enter hc, ?_, fun _ => ⟨hweight, fun _ => t.awake_enterAt now fresh⟩,
            fun _ _ _ => t.leaves_enterAt now fresh⟩
          show _ < 3 * t.work
          omega
  | body ticket ready state name run =>
      cases ready with
      | false => cases hnow
      | true =>
          obtain rfl := List.mem_singleton.mp hnow
          cases hold with
          | true => exact ⟨_, _, _, .bodySuspend, Nat.lt_succ_self 3, nofun, fun _ _ _ => rfl⟩
          | false =>
              cases hwf with
              | body => exact ⟨_, _, _, .bodyEnd List.mem_cons_self, Nat.zero_lt_succ 3,
                  fun _ => ⟨Nat.le_add_left 2 2, fun _ => trivial⟩, nofun⟩
  | seriesHead ticket state rest =>
      obtain rfl := List.mem_singleton.mp hnow
      cases rest with
      | nil => exact ⟨_, _, _, .seriesEnd, Nat.zero_lt_succ 2,
          fun _ => ⟨Nat.le_add_left 2 1, fun _ => trivial⟩, fun _ _ _ => rfl⟩
      | cons t rest =>
          have hwork : seriesWork (t :: rest) = t.work + 2 + seriesWork rest := rfl
          cases hc : sh.cancelled with
          | true =>
              refine ⟨_, _, _, .seriesCancelled hc, ?_, fun _ => ⟨?_, fun _ => trivial⟩,
                fun _ hlive => ?_⟩
              · show 0 < 3 * seriesWork (t :: rest)
                omega
              · show 0 + 2 ≤ 3 * seriesWork (t :: rest)
                omega
              · rw [hc] at hlive
                cases hlive
          | false =>
              refine ⟨_, _, _, .seriesNext hc, ?_, fun _ => ⟨?_, fun _ => trivial⟩,
                fun _ _ _ => rfl⟩
              · show 3 * t.work + 3 + 3 * seriesWork rest < 3 * seriesWork (t :: rest)
                omega
              · show 3 * t.work + 3 + 3 * seriesWork rest + 2 ≤ 3 * seriesWork (t :: rest)
                omega
  | series state current rest ih =>
      cases hwf with
      | series hcur hrest =>
          cases hcurfin : current.isFinished with
          | false =>
              obtain ⟨sh', p', used, h, hlt, hgoes, hholds⟩ := ih hcur hjoined hcurfin hnow
              refine ⟨sh', _, used, .seriesStep h, ?_, fun hno => ⟨?_, (hgoes hno).2⟩,
                fun hyes hlive hf => ?_⟩
              · simp only [Coroutine.weight]
                omega
              · have hle := (hgoes hno).1
                simp only [Coroutine.weight]
                omega
              · simp only [Coroutine.erase, Proc.fails, Bool.or_eq_false_iff] at hf
                rw [Coroutine.leaves, hholds hyes hlive hf.1, Coroutine.leaves]
          | true =>
              cases current with
              | finished ticket name entered c =>
                  obtain rfl := List.mem_singleton.mp hnow
                  cases hcur with
                  | finished _ _ r =>
                      cases r with
                      | ok u =>
                          refine ⟨_, _, _, .seriesOk, ?_, fun _ => ⟨?_, fun _ => trivial⟩,
                            fun _ _ _ => (Nat.zero_add _).symm⟩ <;>
                          simp only [Coroutine.weight] <;> omega
                      | error err =>
                          refine ⟨_, _, _, .seriesErr, ?_, fun _ => ⟨?_, fun _ => trivial⟩,
                            fun _ _ hf => ?_⟩
                          · simp only [Coroutine.weight]; omega
                          · simp only [Coroutine.weight]; omega
                          · simp [Coroutine.erase, Proc.fails, Completion.isOk] at hf
              | _ => cases hcurfin
  | fork ticket kind state name tasks =>
      obtain rfl := List.mem_singleton.mp hnow
      have hweight : Coroutine.childWeight (spawned fresh tasks) + 2 + 2 ≤
          3 * groupWork tasks + 4 := by
        have hspawned := childWeight_spawned fresh tasks
        omega
      exact ⟨_, _, _, .fork, Nat.lt_of_lt_of_le (Nat.lt_add_of_pos_right Nat.zero_lt_two) hweight,
        fun _ => ⟨hweight, fun _ => awake_spawned fresh tasks⟩,
        fun _ _ _ => childLeaves_spawned tasks⟩
  | group join kind state name children errors ih =>
      cases join with
      | some ticket =>
          obtain rfl := List.mem_singleton.mp hnow
          refine ⟨_, _, _, .groupEnd hjoined, Nat.zero_lt_succ _,
            fun _ => ⟨Nat.le_add_left 2 _, fun _ => trivial⟩, fun _ _ _ => ?_⟩
          exact (Coroutine.childLeaves_finished hjoined).symm
      | none =>
          obtain ⟨q, hq, hqfin, hqnow⟩ := (Coroutine.mem_queuedAll children).mp hnow
          have hqwf := hwf.child hq
          have hqjoined := (Coroutine.allJoined_iff children).mp hjoined.2 q hq
          obtain ⟨sh', q', used, h, hlt, hgoes, hholds⟩ := ih q hq hqwf hqjoined hqfin hqnow
          obtain ⟨pre, post, rfl⟩ := List.append_of_mem hq
          refine ⟨_, _, _, .child h, ?_, fun hno => ⟨?_, fun hawake => ?_⟩, fun hyes hlive hf => ?_⟩
          · simp only [Coroutine.weight, Coroutine.childWeight_append]
            omega
          · have hle := (hgoes hno).1
            simp only [Coroutine.weight, Coroutine.childWeight_append]
            omega
          · have hall := (Coroutine.allAwake_iff _).mp hawake
            exact (Coroutine.allAwake_iff _).mpr
              (forall_mem_replace hall ((hgoes hno).2 (hall q hq)))
          · simp only [Coroutine.erase, Coroutine.eraseAll_eq_map, List.map_append, List.map_cons,
              Proc.fails, childFails_append, Bool.or_eq_false_iff] at hf
            simp only [Coroutine.leaves, Coroutine.childLeaves_append, hholds hyes hlive hf.2.2.1]
  | source state name inner ih =>
      cases hwf with
      | source hinner =>
          cases hinfin : inner.isFinished with
          | false =>
              obtain ⟨sh', p', used, h, hlt, hgoes, hholds⟩ := ih hinner hjoined hinfin hnow
              refine ⟨sh', _, used, .sourceStep h, Nat.add_lt_add_right hlt 3,
                fun hno => ⟨?_, (hgoes hno).2⟩, hholds⟩
              have hle := (hgoes hno).1
              simp only [Coroutine.weight]
              omega
          | true =>
              cases inner with
              | finished ticket name entered c =>
                  obtain rfl := List.mem_singleton.mp hnow
                  exact ⟨_, _, _, .sourceEnd, Nat.zero_lt_succ 2,
                    fun _ => ⟨by simp [Coroutine.weight], fun _ => trivial⟩, fun _ _ _ => rfl⟩
              | _ => cases hinfin
  | finished => cases hfin

theorem exists_least {l : List Nat} (h : l ≠ []) : ∃ k ∈ l, ∀ m ∈ l, k ≤ m := by
  induction l with
  | nil => exact absurd rfl h
  | cons a l ih =>
      by_cases hl : l = []
      · exact ⟨a, List.mem_cons_self, by simp [hl]⟩
      · obtain ⟨k, hk, hle⟩ := ih hl
        rcases Nat.le_total a k with hak | hka
        · exact ⟨a, List.mem_cons_self,
            List.forall_mem_cons.mpr ⟨Nat.le_refl a, fun m hm => Nat.le_trans hak (hle m hm)⟩⟩
        · exact ⟨k, List.mem_cons_of_mem a hk, List.forall_mem_cons.mpr ⟨hka, hle⟩⟩

namespace Scheduler

theorem Turn.wf {ctx s s'} (h : Turn ctx s s') (hwf : s.root.erase.WF) : s'.root.erase.WF := by
  cases h with
  | resume _ h => exact h.wf hwf
  | wake h => rw [h.erase]; exact hwf

theorem Turn.joined {ctx s s'} (h : Turn ctx s s') (hjoined : s.root.Joined) : s'.root.Joined := by
  cases h with
  | resume _ h => exact h.joined hjoined
  | wake h => exact h.joined hjoined

theorem Turns.wf {ctx s s'} (h : Turns ctx s s') (hwf : s.root.erase.WF) : s'.root.erase.WF := by
  induction h with
  | refl => exact hwf
  | tail _ hturn ih => exact hturn.wf ih

theorem Turns.joined {ctx s s'} (h : Turns ctx s s') (hjoined : s.root.Joined) :
    s'.root.Joined := by
  induction h with
  | refl => exact hjoined
  | tail _ hturn ih => exact hturn.joined ih

end Scheduler

end Mulp.Core
