import Mulp.Core.Scheduler

/-! The tickets of a tree's coroutines.

A step uses up the ticket of the coroutine that runs and the ones it gives out,
and reads nothing off them: so any map of the tickets takes a run to a run. The
clock is such a map, which is why what is said about times can be proved of
coroutines whose tickets are times. -/
namespace Mulp.Core

namespace Coroutine

/-- Induction over the coroutines of a tree. -/
@[induction_eliminator] theorem induct {motive : Coroutine → Prop}
    (pending : ∀ ticket task, motive (.pending ticket task))
    (body : ∀ ticket ready state name run, motive (.body ticket ready state name run))
    (seriesHead : ∀ ticket state rest, motive (.seriesHead ticket state rest))
    (series : ∀ state current rest, motive current → motive (.series state current rest))
    (fork : ∀ ticket kind state name tasks, motive (.fork ticket kind state name tasks))
    (group : ∀ join kind state name children errors, (∀ p ∈ children, motive p) →
      motive (.group join kind state name children errors))
    (source : ∀ state name inner, motive inner → motive (.source state name inner))
    (finished : ∀ ticket name entered c, motive (.finished ticket name entered c))
    (p : Coroutine) : motive p :=
  @Coroutine.rec motive (fun ps => ∀ p ∈ ps, motive p) pending body seriesHead series fork group
    source finished (fun _ h => absurd h List.not_mem_nil)
    (fun _ _ hp hrest => List.forall_mem_cons.mpr ⟨hp, hrest⟩) p

mutual
/-- The tickets that the coroutines have, also those that are not ready. -/
def tickets : Coroutine → List Nat
  | .pending ticket _ => [ticket]
  | .body ticket _ _ _ _ => [ticket]
  | .seriesHead ticket _ _ => [ticket]
  | .series _ current _ => current.tickets
  | .fork ticket _ _ _ _ => [ticket]
  | .group join _ _ _ children _ => join.toList ++ childTickets children
  | .source _ _ inner => inner.tickets
  | .finished ticket _ _ _ => [ticket]

def childTickets : List Coroutine → List Nat
  | [] => []
  | p :: rest => p.tickets ++ childTickets rest
end

mutual
/-- The tree with other tickets. -/
def map (f : Nat → Nat) : Coroutine → Coroutine
  | .pending ticket t => .pending (f ticket) t
  | .body ticket ready state name run => .body (f ticket) ready state name run
  | .seriesHead ticket state rest => .seriesHead (f ticket) state rest
  | .series state current rest => .series state (current.map f) rest
  | .fork ticket kind state name tasks => .fork (f ticket) kind state name tasks
  | .group join kind state name children errors =>
      .group (join.map f) kind state name (mapChildren f children) errors
  | .source state name inner => .source state name (inner.map f)
  | .finished ticket name entered c => .finished (f ticket) name entered c

def mapChildren (f : Nat → Nat) : List Coroutine → List Coroutine
  | [] => []
  | p :: rest => p.map f :: mapChildren f rest
end

theorem mem_childTickets {m : Nat} (ps : List Coroutine) :
    m ∈ childTickets ps ↔ ∃ p ∈ ps, m ∈ p.tickets := by
  induction ps with
  | nil => simp [childTickets]
  | cons p rest ih => simp [childTickets, ih]

theorem mem_queuedAll {m : Nat} (ps : List Coroutine) :
    m ∈ queuedAll ps ↔ ∃ p ∈ ps, p.isFinished = false ∧ m ∈ p.queued := by
  induction ps with
  | nil => simp [queuedAll]
  | cons p rest ih =>
      rw [queuedAll, List.mem_append, ih]
      cases hfin : p.isFinished <;> simp [hfin]

theorem mapChildren_eq_map (f : Nat → Nat) (ps : List Coroutine) :
    mapChildren f ps = ps.map (map f) := by
  induction ps with
  | nil => rfl
  | cons p rest ih => rw [mapChildren, ih, List.map_cons]

@[simp] theorem isFinished_map (f : Nat → Nat) (p : Coroutine) :
    (p.map f).isFinished = p.isFinished := by
  cases p <;> rfl

@[simp] theorem erase_map (f : Nat → Nat) (p : Coroutine) : (p.map f).erase = p.erase := by
  induction p with
  | series _ _ _ ih => rw [map, erase, ih, erase]
  | group _ _ _ _ children _ ih =>
      have hchildren : (children.map (map f)).map erase = children.map erase := by
        rw [List.map_map]
        exact List.map_congr_left ih
      rw [map, erase, erase, eraseAll_eq_map, eraseAll_eq_map, mapChildren_eq_map, hchildren]
  | source _ _ _ ih => rw [map, erase, ih, erase]
  | _ => rfl

theorem queued_map (f : Nat → Nat) (p : Coroutine) : (p.map f).queued = p.queued.map f := by
  induction p with
  | body _ ready _ _ _ => cases ready <;> rfl
  | series _ _ _ ih => exact ih
  | group join _ _ _ children _ ih =>
      cases join with
      | some ticket => rfl
      | none =>
          show queuedAll (mapChildren f children) = (queuedAll children).map f
          induction children with
          | nil => rfl
          | cons p rest ihrest =>
              rw [List.forall_mem_cons] at ih
              rw [mapChildren, queuedAll, queuedAll, ihrest ih.2, isFinished_map, ih.1,
                List.map_append]
              cases p.isFinished <;> rfl
  | source _ _ _ ih => exact ih
  | _ => rfl

theorem tickets_map (f : Nat → Nat) (p : Coroutine) : (p.map f).tickets = p.tickets.map f := by
  induction p with
  | series _ _ _ ih => exact ih
  | group join _ _ _ children _ ih =>
      have hchildren : childTickets (mapChildren f children) = (childTickets children).map f := by
        induction children with
        | nil => rfl
        | cons p rest ihrest =>
            rw [List.forall_mem_cons] at ih
            rw [mapChildren, childTickets, childTickets, ihrest ih.2, ih.1, List.map_append]
      rw [map, tickets, tickets, hchildren, List.map_append]
      cases join <;> rfl
  | source _ _ _ ih => exact ih
  | _ => rfl

/-- Only the tickets that are there are mapped. -/
theorem map_congr {f g : Nat → Nat} {p : Coroutine} (h : ∀ m ∈ p.tickets, f m = g m) :
    p.map f = p.map g := by
  induction p with
  | series _ _ _ ih => rw [map, map, ih h]
  | group join _ _ _ children _ ih =>
      have hjoin : join.map f = join.map g :=
        Option.map_congr fun m hm => h m (List.mem_append_left _ (Option.mem_toList.mpr hm))
      have hchildren : mapChildren f children = mapChildren g children := by
        rw [mapChildren_eq_map, mapChildren_eq_map]
        refine List.map_congr_left fun p hp => ih p hp fun m hm => h m ?_
        exact List.mem_append_right _ ((mem_childTickets children).mpr ⟨p, hp, hm⟩)
      rw [map, map, hjoin, hchildren]
  | source _ _ _ ih => rw [map, map, ih h]
  | pending | body | seriesHead | fork | finished =>
      rw [map, map, h _ List.mem_cons_self]

theorem queued_subset_tickets {p : Coroutine} : p.queued ⊆ p.tickets := by
  induction p with
  | series _ _ _ ih => exact ih
  | group join _ _ _ children _ ih =>
      intro m hm
      cases join with
      | some ticket => exact List.mem_append_left _ hm
      | none =>
          obtain ⟨p, hp, -, hm⟩ := (mem_queuedAll children).mp hm
          exact (mem_childTickets children).mpr ⟨p, hp, ih p hp hm⟩
  | source _ _ _ ih => exact ih
  | body _ ready _ _ _ => cases ready <;> simp [queued, tickets]
  | _ => exact List.Subset.refl _

end Coroutine

theorem spawned_mem {fresh : Nat → Nat} {tasks : List AsyncTask} {q : Coroutine}
    (hq : q ∈ spawned fresh tasks) :
    ∃ i < tasks.length, ∃ t ∈ tasks, q = .pending (fresh i) t := by
  induction tasks generalizing fresh with
  | nil => cases hq
  | cons t rest ih =>
      rcases List.mem_cons.mp hq with rfl | hq
      · exact ⟨0, Nat.zero_lt_succ _, t, List.mem_cons_self, rfl⟩
      · obtain ⟨i, hi, u, hu, rfl⟩ := ih hq
        exact ⟨i + 1, Nat.succ_lt_succ hi, u, List.mem_cons_of_mem t hu, rfl⟩

theorem mem_spawned (fresh : Nat → Nat) {tasks : List AsyncTask} {t : AsyncTask} (ht : t ∈ tasks) :
    ∃ i, .pending (fresh i) t ∈ spawned fresh tasks := by
  induction tasks generalizing fresh with
  | nil => cases ht
  | cons u rest ih =>
      rcases List.mem_cons.mp ht with rfl | ht
      · exact ⟨0, List.mem_cons_self⟩
      · obtain ⟨i, hi⟩ := ih (fun i => fresh (i + 1)) ht
        exact ⟨i + 1, List.mem_cons_of_mem _ hi⟩

/-- Of the parent nothing is said but that it waits for a child, or goes on. -/
theorem joinTicket_cases (fresh : Nat → Nat) (used : Nat) (children : List Coroutine) :
    ((∀ p ∈ children, p.isFinished = true) ∧
      joinTicket fresh used children = (some (fresh used), used + 1)) ∨
    ((∃ p ∈ children, p.isFinished = false) ∧ joinTicket fresh used children = (none, used)) := by
  unfold joinTicket
  split
  · rename_i hall
    exact .inl ⟨by simpa using hall, rfl⟩
  · rename_i hall
    exact .inr ⟨by simpa using hall, rfl⟩

theorem mapChildren_spawned (f fresh : Nat → Nat) (tasks : List AsyncTask) :
    Coroutine.mapChildren f (spawned fresh tasks) = spawned (fun i => f (fresh i)) tasks := by
  induction tasks generalizing fresh with
  | nil => rfl
  | cons t rest ih => rw [spawned, Coroutine.mapChildren, ih, spawned, Coroutine.map]

theorem joinTicket_map (f fresh : Nat → Nat) (used : Nat) (children : List Coroutine) :
    joinTicket (fun i => f (fresh i)) used (Coroutine.mapChildren f children) =
      ((joinTicket fresh used children).1.map f, (joinTicket fresh used children).2) := by
  have hall : (Coroutine.mapChildren f children).all (·.isFinished) =
      children.all (·.isFinished) := by
    rw [Coroutine.mapChildren_eq_map, List.all_map]
    simp [Function.comp_def]
  rw [joinTicket, joinTicket, hall]
  split <;> rfl

theorem AsyncTask.enterAt_map (f : Nat → Nat) (ticket : Nat) (fresh : Nat → Nat) (t : AsyncTask) :
    t.enterAt (f ticket) (fun i => f (fresh i)) =
      ((t.enterAt ticket fresh).1.map f, (t.enterAt ticket fresh).2) := by
  cases t <;> rfl

theorem Coroutine.map_group (f fresh : Nat → Nat) (used : Nat) {kind : GroupKind} {state : Nat}
    {name : String} {children : List Coroutine} {errors : List (String × String)} :
    (Coroutine.group (joinTicket fresh used children).1 kind state name children errors).map f =
      .group (joinTicket (fun i => f (fresh i)) used (Coroutine.mapChildren f children)).1 kind
        state name (Coroutine.mapChildren f children) errors := by
  rw [joinTicket_map, Coroutine.map]

section Maps

variable {ctx : Context} {now used ticket : Nat} {fresh : Nat → Nat} {sh sh' : Shared}
  {p p' : Coroutine}

/-- A step does not depend on the numbers of its tickets. -/
theorem Resumes.map (h : Resumes ctx now fresh sh p sh' p' used) (f : Nat → Nat) :
    Resumes ctx (f now) (fun i => f (fresh i)) sh (p.map f) sh' (p'.map f) used := by
  induction h with
  | refuse h => exact .refuse h
  | @enter t h =>
      have henter := @Resumes.enter ctx (f now) (fun i => f (fresh i)) sh t h
      rw [AsyncTask.enterAt_map] at henter
      exact henter
  | bodyCancel h => exact .bodyCancel h
  | bodySuspend => exact .bodySuspend
  | bodyEnd h => exact .bodyEnd h
  | seriesEnd => exact .seriesEnd
  | seriesCancelled h => exact .seriesCancelled h
  | seriesNext h => exact .seriesNext h
  | seriesStep _ ih => exact .seriesStep ih
  | seriesOk => exact .seriesOk
  | seriesErr => exact .seriesErr
  | seriesRaise => exact .seriesRaise
  | @fork kind state name tasks =>
      have hfork := @Resumes.fork ctx (f now) (fun i => f (fresh i)) sh kind state name tasks
      rw [Coroutine.map_group, mapChildren_spawned]
      rw [← mapChildren_spawned, joinTicket_map] at hfork ⊢
      exact hfork
  | @child sh' kind state name p p' pre post errors used _ ih =>
      have hchild := @Resumes.child ctx (f now) _ sh sh' kind state name (p.map f) (p'.map f)
        (pre.map (Coroutine.map f)) (post.map (Coroutine.map f)) errors used ih
      have hmap (q : Coroutine) : Coroutine.mapChildren f (pre ++ q :: post) =
          pre.map (Coroutine.map f) ++ q.map f :: post.map (Coroutine.map f) := by
        rw [Coroutine.mapChildren_eq_map, List.map_append, List.map_cons]
      rw [Coroutine.map_group, Coroutine.map, hmap p, Option.map_none, joinTicket_map]
      rw [← hmap p', joinTicket_map, Coroutine.erase_map] at hchild
      exact hchild
  | groupEnd h =>
      refine .groupEnd fun q hq => ?_
      rw [Coroutine.mapChildren_eq_map] at hq
      obtain ⟨r, hr, rfl⟩ := List.mem_map.mp hq
      rw [Coroutine.isFinished_map]
      exact h r hr
  | sourceStep _ ih => exact .sourceStep ih
  | sourceEnd => exact .sourceEnd

theorem Wakes.map (h : Wakes ticket p p') (f : Nat → Nat) : Wakes (f ticket) (p.map f) (p'.map f) := by
  induction h with
  | body => exact .body
  | series _ ih => exact .series ih
  | @child kind state name p p' pre post errors _ ih =>
      simp only [Coroutine.map, Coroutine.mapChildren_eq_map, List.map_append, List.map_cons,
        Option.map_none]
      exact .child ih
  | source _ ih => exact .source ih

/-- The coroutine that runs stands in the queue. -/
theorem Resumes.now_mem (h : Resumes ctx now fresh sh p sh' p' used) : now ∈ p.queued := by
  induction h with
  | seriesStep _ ih => exact ih
  | child h ih => exact (Coroutine.mem_queuedAll _).mpr ⟨_, by simp, h.not_finished, ih⟩
  | sourceStep _ ih => exact ih
  | _ => exact List.mem_cons_self

/-- What the tickets of a group are, once one of its children has run. -/
theorem mem_joinTicket {m : Nat} {children : List Coroutine}
    (h : m ∈ (joinTicket fresh used children).1.toList) :
    ∃ i < (joinTicket fresh used children).2, m = fresh i := by
  rcases joinTicket_cases fresh used children with ⟨-, heq⟩ | ⟨-, heq⟩
  · rw [heq] at h ⊢
    exact ⟨used, Nat.lt_succ_self used, List.mem_singleton.mp h⟩
  · rw [heq] at h
    cases h

/-- What a group has in the queue, once its children have been spawned. -/
theorem mem_queued_spawned {m : Nat} {kind : GroupKind} {state : Nat} {name : String}
    {tasks : List AsyncTask} {errors : List (String × String)}
    (h : m ∈ (Coroutine.group (joinTicket fresh tasks.length (spawned fresh tasks)).1 kind state
      name (spawned fresh tasks) errors).queued) :
    ∃ i < (joinTicket fresh tasks.length (spawned fresh tasks)).2, m = fresh i := by
  rcases joinTicket_cases fresh tasks.length (spawned fresh tasks) with ⟨-, heq⟩ | ⟨-, heq⟩
  · rw [heq] at h ⊢
    exact ⟨tasks.length, Nat.lt_succ_self _, List.mem_singleton.mp h⟩
  · rw [heq] at h ⊢
    obtain ⟨q, hq, -, hm⟩ := (Coroutine.mem_queuedAll _).mp h
    obtain ⟨i, hi, t, -, rfl⟩ := spawned_mem hq
    exact ⟨i, hi, List.mem_singleton.mp hm⟩

theorem used_le_joinTicket (children : List Coroutine) :
    used ≤ (joinTicket fresh used children).2 := by
  rcases joinTicket_cases fresh used children with ⟨-, heq⟩ | ⟨-, heq⟩
  · exact heq ▸ Nat.le_succ used
  · exact heq ▸ Nat.le_refl used

/-- A step has no tickets but those that were there and those it gives out. -/
theorem Resumes.tickets (h : Resumes ctx now fresh sh p sh' p' used) {m : Nat}
    (hm : m ∈ p'.tickets) : m ∈ p.tickets ∨ ∃ i < used, m = fresh i := by
  induction h with
  | @enter t _ =>
      cases t with
      | asyncParallel | asyncParallelSettle =>
          exact .inr ⟨0, Nat.zero_lt_one, List.mem_singleton.mp hm⟩
      | _ => exact .inl hm
  | seriesStep _ ih => exact ih hm
  | @fork kind state name tasks =>
      rcases List.mem_append.mp hm with hm | hm
      · exact .inr (mem_joinTicket hm)
      · obtain ⟨q, hq, hm⟩ := (Coroutine.mem_childTickets _).mp hm
        obtain ⟨i, hi, t, -, rfl⟩ := spawned_mem hq
        exact .inr ⟨i, Nat.lt_of_lt_of_le hi (used_le_joinTicket _), List.mem_singleton.mp hm⟩
  | @child sh' kind state name p p' pre post errors used h ih =>
      rcases List.mem_append.mp hm with hm | hm
      · exact .inr (mem_joinTicket hm)
      · obtain ⟨q, hq, hmq⟩ := (Coroutine.mem_childTickets _).mp hm
        have hold {r : Coroutine} (hr : r ∈ pre ++ p :: post) (hmr : m ∈ r.tickets) :
            m ∈ (Coroutine.group none kind state name (pre ++ p :: post) errors).tickets :=
          List.mem_append_right _ ((Coroutine.mem_childTickets _).mpr ⟨r, hr, hmr⟩)
        rcases List.mem_append.mp hq with hq | hq
        · exact .inl (hold (List.mem_append_left _ hq) hmq)
        · rcases List.mem_cons.mp hq with rfl | hq
          · refine (ih hmq).imp (hold (by simp)) fun hnew => ?_
            obtain ⟨i, hi, rfl⟩ := hnew
            exact ⟨i, Nat.lt_of_lt_of_le hi (used_le_joinTicket _), rfl⟩
          · exact .inl (hold (List.mem_append_right _ (List.mem_cons_of_mem _ hq)) hmq)
  | sourceStep _ ih => exact ih hm
  | groupEnd _ => exact .inl (List.mem_append_left _ hm)
  | _ => exact .inl hm

/-- Nor has the queue. -/
theorem Resumes.queued (h : Resumes ctx now fresh sh p sh' p' used) {m : Nat}
    (hm : m ∈ p'.queued) : m ∈ p.queued ∨ ∃ i < used, m = fresh i := by
  induction h with
  | @enter t _ =>
      cases t with
      | asyncParallel | asyncParallelSettle =>
          exact .inr ⟨0, Nat.zero_lt_one, List.mem_singleton.mp hm⟩
      | _ => exact .inl hm
  | bodySuspend => cases hm
  | seriesStep _ ih => exact ih hm
  | fork => exact .inr (mem_queued_spawned hm)
  | @child sh' kind state name p p' pre post errors used h ih =>
      rcases joinTicket_cases fresh used (pre ++ p' :: post) with ⟨-, heq⟩ | ⟨-, heq⟩
      · rw [heq] at hm ⊢
        exact .inr ⟨used, Nat.lt_succ_self _, List.mem_singleton.mp hm⟩
      · rw [heq] at hm ⊢
        obtain ⟨q, hq, hfin, hmq⟩ := (Coroutine.mem_queuedAll _).mp hm
        have hold {r : Coroutine} (hr : r ∈ pre ++ p :: post) (hnot : r.isFinished = false)
            (hmr : m ∈ r.queued) :
            m ∈ (Coroutine.group none kind state name (pre ++ p :: post) errors).queued :=
          (Coroutine.mem_queuedAll _).mpr ⟨r, hr, hnot, hmr⟩
        rcases List.mem_append.mp hq with hq | hq
        · exact .inl (hold (List.mem_append_left _ hq) hfin hmq)
        · rcases List.mem_cons.mp hq with rfl | hq
          · exact (ih hmq).imp_left (hold (by simp) h.not_finished)
          · exact .inl (hold (List.mem_append_right _ (List.mem_cons_of_mem _ hq)) hfin hmq)
  | sourceStep _ ih => exact ih hm
  | _ => exact .inl hm

theorem Wakes.not_finished (h : Wakes ticket p p') :
    p.isFinished = false ∧ p'.isFinished = false := by
  cases h <;> exact ⟨rfl, rfl⟩

theorem Wakes.tickets (h : Wakes ticket p p') {m : Nat} (hm : m ∈ p'.tickets) :
    m ∈ p.tickets ∨ m = ticket := by
  induction h with
  | body => exact .inr (List.mem_singleton.mp hm)
  | series _ ih => exact ih hm
  | child _ ih =>
      obtain ⟨q, hq, hmq⟩ := (Coroutine.mem_childTickets _).mp hm
      rw [List.mem_append, List.mem_cons] at hq
      rcases hq with hq | rfl | hq
      · exact .inl ((Coroutine.mem_childTickets _).mpr ⟨q, by simp [hq], hmq⟩)
      · exact (ih hmq).imp_left fun hm => (Coroutine.mem_childTickets _).mpr ⟨_, by simp, hm⟩
      · exact .inl ((Coroutine.mem_childTickets _).mpr ⟨q, by simp [hq], hmq⟩)
  | source _ ih => exact ih hm

theorem Wakes.queued (h : Wakes ticket p p') {m : Nat} (hm : m ∈ p'.queued) :
    m ∈ p.queued ∨ m = ticket := by
  induction h with
  | body => exact .inr (List.mem_singleton.mp hm)
  | series _ ih => exact ih hm
  | child h ih =>
      obtain ⟨q, hq, hfin, hmq⟩ := (Coroutine.mem_queuedAll _).mp hm
      rw [List.mem_append, List.mem_cons] at hq
      rcases hq with hq | rfl | hq
      · exact .inl ((Coroutine.mem_queuedAll _).mpr ⟨q, by simp [hq], hfin, hmq⟩)
      · exact (ih hmq).imp_left fun hm =>
          (Coroutine.mem_queuedAll _).mpr ⟨_, by simp, h.not_finished.1, hm⟩
      · exact .inl ((Coroutine.mem_queuedAll _).mpr ⟨q, by simp [hq], hfin, hmq⟩)
  | source _ ih => exact ih hm

end Maps

end Mulp.Core
