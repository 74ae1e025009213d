import Mulp.Core.Settle

/-! Where a child does not spare another, a run in which it keeps that one from its end.

In this run every leaf ends at once, but for those of the child that is to be spared:
they suspend. So the first cancel comes when it can, and the last check is still to
come. The run is not written down: it is that there is a next turn which keeps things
so, until the token is cancelled, and that after this the child can only fail. -/
namespace Mulp.Core

open Scheduler

/-- The token is live. The child at `i` is to cancel it by the time, if nothing does so before, and
the child at `j`, that is not to fail, has a check after the time. Both are said of what is left of
the children, so that they go from one turn to the next; every child but that at `j` is awake, or
its leaves would keep it from being in time. Where the first cancel is an earlier one, of another
child, that does as well. -/
structure Holding (tasks : List AsyncTask) (i j time : Nat) (clock : Nat → Nat) (s : Scheduler)
    (children : List Coroutine) : Prop extends Grouped tasks clock s children where
  live : s.shared.cancelled = false
  awake : ∀ m p, m ≠ j → children[m]? = some p → p.Awake
  cancels : ∀ p, children[i]? = some p → ¬ (p.map clock).CancelsFrom (roundOf tasks) (time + 1)
  checks : ∀ p, children[j]? = some p →
    p.erase.fails = false ∧ ¬ (p.map clock).ChecksBy (roundOf tasks) time

/-- The token is cancelled, and the child at `j` is to look at it, or to fail. It is a look that
makes it fail, and nothing can undo this: so once it is so the child cannot end with `Ok`, and no
order of the turns that follow has to be known. -/
structure Spoiled (j : Nat) (s : Scheduler) (children : List Coroutine) : Prop where
  root : ∃ join state name errors, s.root = .group join .settle state name children errors
  wf : s.root.erase.WF
  joined : s.root.Joined
  dead : s.shared.cancelled = true
  spoiled : ∃ p, children[j]? = some p ∧ (p.erase.fails = true ∨ p.erase.checkFree = false)

section Holding

variable {ctx : Context} {tasks : List AsyncTask} {i j time : Nat} {clock : Nat → Nat}
  {s : Scheduler} {children : List Coroutine}

/-- Something is due by the time. -/
theorem Holding.exists_queued (h : Holding tasks i j time clock s children) (hij : i ≠ j)
    (hi : i < tasks.length) : ∃ k ∈ s.root.queued, clock k ≤ time := by
  obtain ⟨p, hp⟩ := h.exists_getElem? hi
  have hmem := List.mem_of_getElem? hp
  obtain ⟨k, hk, hle⟩ := Coroutine.exists_queued_of_cancel
    (Coroutine.awake_map.mpr (h.awake i p hij hp)) (Coroutine.joined_map.mpr (h.joined hmem))
    (h.cancels p hp)
  rw [Coroutine.queued_map] at hk
  obtain ⟨m, hm, rfl⟩ := List.mem_map.mp hk
  refine ⟨m, ?_, hle⟩
  -- it is not over, for then it would not cancel
  have hfin : p.isFinished = false := by
    by_contra hfin
    rw [Bool.not_eq_false] at hfin
    exact h.cancels p hp (Coroutine.cancelsFrom_finished ((Coroutine.isFinished_map _ _).trans hfin))
  obtain ⟨join, state, name, errors, hroot⟩ := h.root
  have hjoined := h.timed.joined
  rw [hroot] at hjoined ⊢
  cases join with
  | none => exact (Coroutine.mem_queuedAll children).mpr ⟨p, hmem, hfin, hm⟩
  | some _ =>
      rw [hjoined p hmem] at hfin
      cases hfin

/-- The head of the queue goes on, and is due by the time: so the last check is still to come, and
where the token is not cancelled now, the cancel is. -/
theorem Holding.goes (ctx : Context) (h : Holding tasks i j time clock s children) (hij : i ≠ j)
    (hi : i < tasks.length) (hj : j < tasks.length) :
    ∃ s', Turn ctx s s' ∧ s'.root.weight < s.root.weight ∧
      ((∃ clock' children', Holding tasks i j time clock' s' children') ∨
        ∃ children', Spoiled j s' children') := by
  obtain ⟨m, hm, hmtime⟩ := h.exists_queued hij hi
  obtain ⟨k, hk, hhead⟩ := exists_least (List.ne_nil_of_mem hm)
  have hlt := h.timed.queued_lt hk
  have hktime : clock k ≤ time :=
    Nat.le_trans (h.timed.mono k m (hhead m hm) (h.timed.queued_lt hm)) hmtime
  obtain ⟨join, state, name, errors, hroot⟩ := h.root
  have hqueued := congrArg Coroutine.queued hroot
  have hjoined := h.timed.joined
  rw [hroot] at hjoined
  obtain ⟨u, hu⟩ := h.exists_getElem? hj
  have humem := List.mem_of_getElem? hu
  cases join with
  | some _ =>
      have hfree := Proc.checkFree_finished ((Coroutine.isFinished_erase u).trans (hjoined u humem))
      rw [← Coroutine.erase_map clock u] at hfree
      exact absurd (Coroutine.checksBy_of_checkFree hfree) (h.checks u hu).2
  | none =>
      rw [hqueued] at hk
      obtain ⟨q, hq, hqfin, hqk⟩ := (Coroutine.mem_queuedAll children).mp hk
      obtain ⟨pre, post, rfl⟩ := List.append_of_mem hq
      obtain ⟨sh', q', used, hstep, hweight, hgoes, hholds⟩ := Coroutine.exists_goes ctx
        (decide (pre.length = j)) (s.next + ·) s.shared (h.wf hq) (h.joined hq) hqfin hqk
      have hres := @Resumes.child ctx k _ s.shared sh' .settle state name q q' pre post errors used
        hstep
      rw [← hroot, onChild_settle] at hres
      have hgrouped : Grouped tasks (tick clock s.next (clock k + roundOf tasks))
          ⟨s.next + (joinTicket (s.next + ·) used (pre ++ q' :: post)).2, sh',
            .group (joinTicket (s.next + ·) used (pre ++ q' :: post)).1 .settle state name
              (pre ++ q' :: post) (onChild .settle q'.erase sh' errors).2⟩ (pre ++ q' :: post) := by
        refine ⟨h.timed.resume hhead hres, ⟨_, _, _, _, rfl⟩, ?_⟩
        rw [← h.length, List.length_append, List.length_append]
        rfl
      have hold {m : Nat} {p : Coroutine} (hm : m ≠ pre.length)
          (hp : (pre ++ q' :: post)[m]? = some p) : (pre ++ q :: post)[m]? = some p ∧
            p.map (tick clock s.next (clock k + roundOf tasks)) = p.map clock := by
        rw [getElem?_replace_ne (b := q) hm] at hp
        exact ⟨hp, map_tick (h.mem_tickets (List.mem_of_getElem? hp))⟩
      have hself : (pre ++ q :: post)[pre.length]? = some q := getElem?_replace_self
      -- the step on the clock
      have htimed := hstep.timed clock (h.mem_tickets hq) hlt (clock k + roundOf tasks)
      have hwf : (q.map clock).erase.WF := by rw [Coroutine.erase_map]; exact h.wf hq
      have hjoin : (q.map clock).Joined := Coroutine.joined_map.mpr (h.joined hq)
      have hpast := h.past (hqueued ▸ hk) hq
      refine ⟨_, .resume hhead hres, ?_, ?_⟩
      · rw [hroot]
        simp only [Coroutine.weight, Coroutine.childWeight_append]
        omega
      by_cases hn : pre.length = j
      · subst hn
        obtain rfl := Option.some.inj (hself.symm.trans hu)
        obtain ⟨hf, hchecks⟩ := h.checks q hself
        have hlive : sh'.cancelled = false := by
          rcases hstep.erase with hstep | ⟨rfl, -⟩
          · exact (hstep.stays_live (h.wf hq) h.live hf).1
          · exact h.live
        refine .inl ⟨_, _, hgrouped, hlive, fun m p hm hp => ?_, fun p hp => ?_, fun p hp => ?_⟩
        · exact h.awake m p hm (hold hm hp).1
        · rw [(hold hij hp).2]
          exact h.cancels p (hold hij hp).1
        · rw [getElem?_replace_self] at hp
          cases hp
          refine ⟨(hstep.fails_eq (h.wf hq) h.live).trans hf, fun hby => hchecks ?_⟩
          refine htimed.checksBy_of_leaves (fun _ => rfl) hwf h.live hjoin hpast ?_ ?_ hktime hby
          · rwa [Coroutine.erase_map]
          · rw [Coroutine.leaves_map, Coroutine.leaves_map]
            exact hholds (decide_eq_true rfl) h.live hf
      · have hawake := (hgoes (decide_eq_false hn)).2 (h.awake _ q hn hself)
        have hn' : j ≠ pre.length := fun h => hn h.symm
        have huold : (pre ++ q' :: post)[j]? = some u := by
          rw [← hu]
          exact getElem?_replace_ne hn'
        cases hc : sh'.cancelled with
        | true =>
            refine .inr ⟨_, ⟨_, _, _, _, rfl⟩, hgrouped.timed.wf, hgrouped.timed.joined, hc, u, huold,
              .inr ?_⟩
            rw [← Bool.not_eq_true]
            intro hfree
            rw [← Coroutine.erase_map clock u] at hfree
            exact (h.checks u hu).2 (Coroutine.checksBy_of_checkFree hfree)
        | false =>
            refine .inl ⟨_, _, hgrouped, hc, fun m p hm hp => ?_, fun p hp => ?_, fun p hp => ?_⟩
            · by_cases hmq : m = pre.length
              · subst hmq
                rw [getElem?_replace_self] at hp
                cases hp
                exact hawake
              · exact h.awake m p hm (hold hmq hp).1
            · by_cases hiq : i = pre.length
              · subst hiq
                rw [getElem?_replace_self] at hp
                cases hp
                rw [htimed.cancelsFrom_iff (fun _ => rfl) hwf h.live hc hjoin hpast]
                exact h.cancels q hself
              · rw [(hold hiq hp).2]
                exact h.cancels p (hold hiq hp).1
            · rw [(hold hn' hp).2]
              exact h.checks p (hold hn' hp).1

end Holding

section Spoiled

variable {ctx : Context} {j : Nat} {s s' : Scheduler} {children : List Coroutine}

/-- The look that was to come is a failure, and a failure stays one. -/
theorem Spoiled.turn (h : Spoiled j s children) (hturn : Turn ctx s s')
    (hunfinished : ∀ p, children[j]? = some p → p.isFinished = false) :
    ∃ children', Spoiled j s' children' := by
  have hwf := hturn.wf h.wf
  have hjoined := hturn.joined h.joined
  obtain ⟨join, state, name, errors, hroot⟩ := h.root
  obtain ⟨u, hu, hbad⟩ := h.spoiled
  have huwf : u.erase.WF := by
    have hrootwf := h.wf
    rw [hroot] at hrootwf
    exact hrootwf.child (List.mem_of_getElem? hu)
  cases hturn with
  | @resume ticket used sh' root' hhead hres =>
      rw [hroot] at hres
      cases hres with
      | groupEnd hall =>
          have hfin := hunfinished u hu
          rw [hall u (List.mem_of_getElem? hu)] at hfin
          cases hfin
      | @child sh₁ _ _ _ p p' pre post _ used hstep =>
          have hdead : sh₁.cancelled = true := by
            rcases hstep.erase with hstep | ⟨rfl, -⟩
            · exact hstep.cancelled_mono h.dead
            · exact h.dead
          refine ⟨pre ++ p' :: post, ⟨_, _, _, _, rfl⟩, hwf, hjoined, ?_, ?_⟩
          · rw [onChild_settle]
            exact hdead
          by_cases hj : j = pre.length
          · subst hj
            obtain rfl := Option.some.inj (getElem?_replace_self.symm.trans hu)
            refine ⟨p', getElem?_replace_self, ?_⟩
            rcases hstep.erase with hstep | ⟨-, hsame⟩
            · rcases hbad with hf | hchecks
              · exact .inl (hstep.fails_mono huwf hf)
              · exact hstep.checks_dead h.dead hchecks
            · rwa [hsame]
          · exact ⟨u, (getElem?_replace_ne hj).trans hu, hbad⟩
  | @wake root' hwakes =>
      rw [hroot] at hwakes
      cases hwakes with
      | @child _ _ _ p p' pre post _ hstep =>
          refine ⟨pre ++ p' :: post, ⟨_, _, _, _, rfl⟩, hwf, hjoined, h.dead, ?_⟩
          by_cases hj : j = pre.length
          · subst hj
            obtain rfl := Option.some.inj (getElem?_replace_self.symm.trans hu)
            refine ⟨p', getElem?_replace_self, ?_⟩
            rwa [hstep.erase]
          · exact ⟨u, (getElem?_replace_ne hj).trans hu, hbad⟩

end Spoiled

/-- Such a run begins with every child that may cancel, and a sibling with a check that may come
after. -/
theorem Holding.start (ctx : Context) {tasks : List AsyncTask} (hplain : ∀ t ∈ tasks, t.Plain)
    {i j k : Nat} {t u : AsyncTask} (ht : tasks[i]? = some t) (hu : tasks[j]? = some u)
    (hk : t.firstCancel = some k) (hf : u.fails = false)
    (hlate : ∀ l, u.lastCheck = some l → ¬ (l < k ∨ (l = k ∧ j < i))) (hij : i ≠ j)
    {sh : Shared} (hlive : sh.cancelled = false) (state : Nat) :
    ∃ s children, Turns ctx (Scheduler.start sh (.asyncParallelSettle state tasks)) s ∧
      Holding tasks i j (roundOf tasks + i + roundOf tasks * k) (startClock tasks) s children := by
  have henter := @Turn.resume ctx (Scheduler.start sh (.asyncParallelSettle state tasks)) 0 _ _ _
    (fun _ _ => Nat.zero_le _) (.enter hlive)
  have hfork := @Resumes.fork ctx 1 (2 + ·) sh .settle state
    (AsyncTask.asyncParallelSettle state tasks).name tasks
  have hspawn := @Turn.resume ctx ⟨2, sh, .fork 1 .settle state
    (AsyncTask.asyncParallelSettle state tasks).name tasks⟩ 1 _ _ _
    (fun other hother => Nat.le_of_eq (List.mem_singleton.mp hother).symm) hfork
  refine ⟨_, _, .head henter (.single hspawn), .start hplain hfork, hlive, fun m p _ hp => ?_,
    fun p hp => ?_, fun p hp => ?_⟩
  · obtain ⟨m', -, t', -, rfl⟩ := spawned_mem (List.mem_of_getElem? hp)
    trivial
  · rw [(map_spawned ht hp).2]
    intro hfrom
    have hle := hfrom k hk
    omega
  · obtain ⟨rfl, hmap⟩ := map_spawned hu hp
    refine ⟨hf, ?_⟩
    rw [hmap]
    rintro ⟨l, hl, hle⟩
    have hi : i < roundOf tasks := Nat.lt_succ_of_lt (List.getElem?_eq_some_iff.mp ht).1
    refine hlate l hl ?_
    rcases Nat.lt_trichotomy l k with hlt | rfl | hgt
    · exact .inl hlt
    · exact .inr ⟨rfl, by omega⟩
    · have hmul := Nat.mul_le_mul_left (roundOf tasks) (Nat.succ_le_of_lt hgt)
      rw [Nat.mul_succ] at hmul
      omega

end Mulp.Core
