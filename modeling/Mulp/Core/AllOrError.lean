import Mulp.Core.Task

/-! When a synchronous task tree is all-or-error: `Task::execute` on the root
returns `Ok` only if every task of the tree was executed.

The proofs go through the *fate* of a tree, what a run from a live token comes
to: `clean` when nothing failed and nobody cancelled, `cancelled skips` when
the root returns `Ok` with the token cancelled (`skips`: having left tasks
out), `failed` otherwise. -/
namespace Mulp.Core

/-! ## The leaves and the tasks of a tree -/

/-- An occurrence of a leaf in a tree: its cell and body, and whether it lies
in the last child of every `series`, and of every `parallel`, above it. -/
structure LeafAt where
  cell : Nat
  body : Body
  lastInSeries : Bool
  lastInParallel : Bool

/-- The leaf fails or cancels the token. Before the first such leaf a run is what it would be
without any, so it decides on the rest. -/
def LeafAt.eventful (l : LeafAt) : Bool := !succeeded l.body.result || l.body.cancels

mutual
/-- The leaf occurrences from left to right; the two flags are those of the
position of the tree itself. -/
def Task.leavesAt (inSeries inParallel : Bool) : Task → List LeafAt
  | .newTask cell _ run => [⟨cell, run, inSeries, inParallel⟩]
  | .series _ tasks => seriesLeaves inSeries inParallel tasks
  | .parallel _ tasks => parallelLeaves inSeries inParallel tasks
  | .taskFrom _ _ source => source.leavesAt inSeries inParallel

def seriesLeaves (inSeries inParallel : Bool) : List Task → List LeafAt
  | [] => []
  | item :: rest =>
      item.leavesAt (inSeries && rest.isEmpty) inParallel ++ seriesLeaves inSeries inParallel rest

def parallelLeaves (inSeries inParallel : Bool) : List Task → List LeafAt
  | [] => []
  | item :: rest =>
      item.leavesAt inSeries (inParallel && rest.isEmpty) ++ parallelLeaves inSeries inParallel rest
end

mutual
/-- The cells of the leaf occurrences, from left to right. -/
def Task.leaves : Task → List Nat
  | .newTask cell _ _ => [cell]
  | .series _ tasks => leavesAll tasks
  | .parallel _ tasks => leavesAll tasks
  | .taskFrom _ _ source => source.leaves

def leavesAll : List Task → List Nat
  | [] => []
  | item :: rest => item.leaves ++ leavesAll rest
end

mutual
/-- The cells of all task occurrences, each after its children: the order in
which their `execute` calls return when none is skipped. -/
def Task.nodes : Task → List Nat
  | .newTask cell _ _ => [cell]
  | .series cell tasks => nodesAll tasks ++ [cell]
  | .parallel cell tasks => nodesAll tasks ++ [cell]
  | .taskFrom cell _ source => source.nodes ++ [cell]

def nodesAll : List Task → List Nat
  | [] => []
  | item :: rest => item.nodes ++ nodesAll rest
end

theorem Task.nodes_length_pos (t : Task) : 0 < t.nodes.length := by
  cases t <;> simp [Task.nodes]

theorem nodesAll_length_pos {ts : List Task} (h : ts ≠ []) : 0 < (nodesAll ts).length := by
  cases ts with
  | nil => contradiction
  | cons item rest =>
      have := item.nodes_length_pos
      simp only [nodesAll, List.length_append]
      omega

/-! ## The fate of a tree -/

inductive Fate where
  | clean
  | cancelled (skips : Bool)
  | failed
  deriving DecidableEq

def Body.fate (run : Body) : Fate :=
  match run.result, run.cancels with
  | .error _, _ => .failed
  | .ok _, true => .cancelled false
  | .ok _, false => .clean

mutual
def Task.fate : Task → Fate
  | .newTask _ _ run => run.fate
  | .series _ tasks => seriesFate tasks
  | .parallel _ tasks => parallelFate tasks
  | .taskFrom _ _ source => source.fate

def seriesFate : List Task → Fate
  | [] => .clean
  | item :: rest =>
      match item.fate with
      | .clean => seriesFate rest
      | .cancelled skips => if rest.isEmpty then .cancelled skips else .failed
      | .failed => .failed

def parallelFate : List Task → Fate
  | [] => .clean
  | item :: rest =>
      match item.fate with
      | .clean => parallelFate rest
      | .cancelled skips => .cancelled (skips || !rest.isEmpty)
      | .failed => .failed
end

/-- The log of `execute` calls, or of bodies, that all returned `Ok`. -/
def okLog (cells : List Nat) : List (Nat × TaskResult) := cells.map fun c => (c, .ok ())

/-- Every leaf of `leaves` was entered and every task of `nodes` executed, once each and in order,
and all returned `Ok`. It is told by the logs of the run, which grow by exactly these entries, so
that a task that is executed twice or out of order would show. -/
structure Complete (leaves nodes : List Nat) (s s' : RunState) : Prop where
  entered : s'.entered = s.entered ++ okLog leaves
  returned : s'.returned = s.returned ++ okLog nodes

/-- What a run of each fate leaves behind: the result, whether the token is cancelled, and the logs.
-/
def Ends (leaves nodes : List Nat) (s : RunState) (p : TaskResult × RunState) : Fate → Prop
  | .clean => p.1 = .ok () ∧ p.2.cancelled = false ∧ Complete leaves nodes s p.2
  | .cancelled false => p.1 = .ok () ∧ p.2.cancelled = true ∧ Complete leaves nodes s p.2
  | .cancelled true => p.1 = .ok () ∧ p.2.cancelled = true ∧
      p.2.returned.length < s.returned.length + nodes.length
  | .failed => ∃ err, p.1 = .error err

theorem Complete.refl (s : RunState) : Complete [] [] s s := ⟨by simp [okLog], by simp [okLog]⟩

theorem Complete.trans {ls ls' ns ns' s s₁ s₂} (h : Complete ls ns s s₁)
    (h' : Complete ls' ns' s₁ s₂) : Complete (ls ++ ls') (ns ++ ns') s s₂ :=
  ⟨by rw [h'.entered, h.entered]; simp [okLog], by rw [h'.returned, h.returned]; simp [okLog]⟩

/-- A clean run followed by one of any fate. -/
theorem Ends.after {ls ls' ns ns' s s₁ p f} (h : Complete ls ns s s₁)
    (h' : Ends ls' ns' s₁ p f) : Ends (ls ++ ls') (ns ++ ns') s p f := by
  have hret : s₁.returned.length = s.returned.length + ns.length := by
    rw [h.returned]; simp [okLog]
  match f with
  | .clean => exact ⟨h'.1, h'.2.1, h.trans h'.2.2⟩
  | .cancelled false => exact ⟨h'.1, h'.2.1, h.trans h'.2.2⟩
  | .cancelled true =>
      obtain ⟨hok, hc, hlt⟩ := h'
      refine ⟨hok, hc, ?_⟩
      rw [List.length_append]
      omega
  | .failed => exact h'

/-- What `Task::execute` adds around a closure that ran from a live token. -/
theorem executeWith_ends {ctx cell name run s ls ns f} (hs : s.cancelled = false)
    (h : Ends ls ns s (run s) f) :
    Ends ls (ns ++ [cell]) s (executeWith ctx cell name run s) f := by
  rw [executeWith, hs]
  rcases hrun : run s with ⟨r, s'⟩
  rw [hrun] at h
  -- the task's own call comes last in the log
  have complete (hc : Complete ls ns s s') : Complete ls (ns ++ [cell]) s
      ((s'.stamp cell ctx.nowMs).return_ cell (.ok ())) :=
    ⟨hc.entered, by simp [hc.returned, okLog]⟩
  match f with
  | .clean =>
      obtain ⟨rfl, hc, hd⟩ := h
      exact ⟨rfl, hc, complete hd⟩
  | .cancelled false =>
      obtain ⟨rfl, hc, hd⟩ := h
      exact ⟨rfl, hc, complete hd⟩
  | .cancelled true =>
      obtain ⟨rfl, hc, hlt⟩ := h
      refine ⟨rfl, hc, ?_⟩
      simp only [Bool.false_eq_true, if_false, RunState.return_returned, RunState.stamp_returned,
        List.length_append, List.length_cons, List.length_nil]
      simp only at hlt
      omega
  | .failed =>
      obtain ⟨err, rfl⟩ := h
      exact ⟨err, rfl⟩

theorem Body.call_ends (cell : Nat) (run : Body) {s : RunState} (hs : s.cancelled = false) :
    Ends [cell] [] s (run.call cell s) run.fate := by
  obtain ⟨result, cancels⟩ := run
  cases result with
  | error err => exact ⟨err, rfl⟩
  | ok u =>
      cases cancels
      · exact ⟨rfl, hs, by simp [Body.call, okLog], by simp [Body.call, okLog]⟩
      · exact ⟨rfl, rfl, by simp [Body.call, okLog], by simp [Body.call, okLog]⟩

/-- Once `parallel` has a first error it returns that error. -/
theorem parallelLoop_error (ctx : Context) (ts : List Task) (err : MulpError) (s : RunState) :
    (parallelLoop ctx ts (some err) s).1 = .error err := by
  induction ts generalizing s with
  | nil => rfl
  | cons item rest ih =>
      rw [parallelLoop]
      split
      · rfl
      · split
        · exact ih _
        · exact ih _

mutual
theorem Task.execute_ends (ctx : Context) (t : Task) {s : RunState} (hs : s.cancelled = false) :
    Ends t.leaves t.nodes s (t.execute ctx s) t.fate := by
  match t with
  | .newTask cell name run => exact executeWith_ends hs (run.call_ends cell hs)
  | .series cell tasks => exact executeWith_ends hs (seriesLoop_ends ctx tasks hs)
  | .parallel cell tasks => exact executeWith_ends hs (parallelLoop_ends ctx tasks hs)
  | .taskFrom cell name source => exact executeWith_ends hs (source.execute_ends ctx hs)

theorem seriesLoop_ends (ctx : Context) (ts : List Task) {s : RunState}
    (hs : s.cancelled = false) :
    Ends (leavesAll ts) (nodesAll ts) s (seriesLoop ctx ts s) (seriesFate ts) := by
  match ts with
  | [] => exact ⟨rfl, hs, Complete.refl s⟩
  | item :: rest =>
      have hitem := item.execute_ends ctx hs
      simp only [seriesLoop, hs, Bool.false_eq_true, if_false, seriesFate]
      rcases hrun : item.execute ctx s with ⟨r, s'⟩
      rw [hrun] at hitem
      match hf : item.fate with
      | .clean =>
          rw [hf] at hitem
          obtain ⟨rfl, hc, hd⟩ := hitem
          exact Ends.after hd (seriesLoop_ends ctx rest hc)
      | .cancelled skips =>
          rw [hf] at hitem
          have hok : r = .ok () ∧ s'.cancelled = true := by
            cases skips <;> exact ⟨hitem.1, hitem.2.1⟩
          obtain ⟨rfl, hc⟩ := hok
          -- the loop sees the token only if there is an item left
          cases rest with
          | nil => simpa [seriesLoop, leavesAll, nodesAll] using hitem
          | cons next rest => exact ⟨.taskFailed next.name "cancelled", by simp [seriesLoop, hc]⟩
      | .failed =>
          rw [hf] at hitem
          obtain ⟨err, rfl⟩ := hitem
          exact ⟨err, rfl⟩

theorem parallelLoop_ends (ctx : Context) (ts : List Task) {s : RunState}
    (hs : s.cancelled = false) :
    Ends (leavesAll ts) (nodesAll ts) s (parallelLoop ctx ts none s) (parallelFate ts) := by
  match ts with
  | [] => exact ⟨rfl, hs, Complete.refl s⟩
  | item :: rest =>
      have hitem := item.execute_ends ctx hs
      simp only [parallelLoop, hs, Bool.false_eq_true, if_false, parallelFate]
      rcases hrun : item.execute ctx s with ⟨r, s'⟩
      rw [hrun] at hitem
      match hf : item.fate with
      | .clean =>
          rw [hf] at hitem
          obtain ⟨rfl, hc, hd⟩ := hitem
          exact Ends.after hd (parallelLoop_ends ctx rest hc)
      | .cancelled skips =>
          rw [hf] at hitem
          have hok : r = .ok () ∧ s'.cancelled = true ∧
              s'.returned.length ≤ s.returned.length + item.nodes.length := by
            cases skips
            · exact ⟨hitem.1, hitem.2.1, by rw [hitem.2.2.returned]; simp [okLog]⟩
            · exact ⟨hitem.1, hitem.2.1, Nat.le_of_lt hitem.2.2⟩
          obtain ⟨rfl, hc, hle⟩ := hok
          cases rest with
          | nil => simpa [parallelLoop, parallelResult, leavesAll, nodesAll] using hitem
          | cons next rest =>
              -- the token is seen before `next`: the loop breaks without an error
              have hpos := nodesAll_length_pos (List.cons_ne_nil next rest)
              simp only [List.isEmpty_cons, Bool.not_false, Bool.or_true, Ends, parallelLoop, hc,
                if_true, parallelResult, true_and, nodesAll, List.length_append] at hpos ⊢
              omega
      | .failed =>
          rw [hf] at hitem
          obtain ⟨err, rfl⟩ := hitem
          exact ⟨err, parallelLoop_error ctx rest err _⟩
end

/-- From a cancelled token nothing happens. -/
theorem Task.execute_cancelled (ctx : Context) (t : Task) {s : RunState}
    (hs : s.cancelled = true) : (t.execute ctx s).1 = .error (.taskFailed t.name "cancelled") := by
  cases t <;> simp [Task.execute, executeWith, hs, Task.name]

/-! ## The last-run stamps -/

/-- The `execute` calls that returned between `s` and `s'` are `calls`; the cells of those that
returned `Ok` are stamped, all others are as they were. One cell may belong to several of the calls,
when a task object is used in two places. -/
structure StampedBy (ctx : Context) (s s' : RunState) (calls : List (Nat × TaskResult)) : Prop where
  returned : s'.returned = s.returned ++ calls
  stamped : ∀ cell, (cell, .ok ()) ∈ calls → s'.lastRunMs cell = some ctx.nowMs
  unchanged : ∀ cell, (cell, .ok ()) ∉ calls → s'.lastRunMs cell = s.lastRunMs cell

def Stamped (ctx : Context) (s s' : RunState) : Prop := ∃ calls, StampedBy ctx s s' calls

theorem Stamped.of_eq {ctx s s'} (hr : s'.returned = s.returned)
    (hl : s'.lastRunMs = s.lastRunMs) : Stamped ctx s s' :=
  ⟨[], by simp [hr], by simp, by simp [hl]⟩

theorem Stamped.trans {ctx s s₁ s₂} (h : Stamped ctx s s₁) (h' : Stamped ctx s₁ s₂) :
    Stamped ctx s s₂ := by
  obtain ⟨calls, hr, hst, hun⟩ := h
  obtain ⟨calls', hr', hst', hun'⟩ := h'
  refine ⟨calls ++ calls', by rw [hr', hr, List.append_assoc], fun cell hc => ?_, fun cell hc => ?_⟩
  · by_cases hlate : (cell, .ok ()) ∈ calls'
    · exact hst' cell hlate
    · rw [hun' cell hlate]
      exact hst cell ((List.mem_append.mp hc).resolve_right hlate)
  · rw [List.mem_append, not_or] at hc
    rw [hun' cell hc.2, hun cell hc.1]

theorem Stamped.ok {ctx s s'} (h : Stamped ctx s s') (cell : Nat) :
    Stamped ctx s ((s'.stamp cell ctx.nowMs).return_ cell (.ok ())) := by
  refine h.trans ⟨[(cell, .ok ())], rfl, fun c hc => ?_, fun c hc => ?_⟩
  · have hcell : c = cell := by simpa using hc
    simp [RunState.stamp, hcell]
  · have hcell : c ≠ cell := by simpa using hc
    simp [RunState.stamp, hcell]

theorem Stamped.error {ctx s s'} (h : Stamped ctx s s') (cell : Nat) (err : MulpError) :
    Stamped ctx s (s'.return_ cell (.error err)) :=
  h.trans ⟨[(cell, .error err)], rfl, fun c hc => by simp at hc, fun _ _ => rfl⟩

theorem executeWith_stamped {ctx cell name run s} (h : Stamped ctx s (run s).2) :
    Stamped ctx s (executeWith ctx cell name run s).2 := by
  rw [executeWith]
  split
  · exact (Stamped.of_eq rfl rfl).error cell _
  · rcases hrun : run s with ⟨r | r, s'⟩
    · rw [hrun] at h
      exact h.error cell r
    · rw [hrun] at h
      exact h.ok cell

theorem Body.call_stamped (ctx : Context) (cell : Nat) (run : Body) (s : RunState) :
    Stamped ctx s (run.call cell s).2 := by
  rw [Body.call]
  split <;> exact .of_eq rfl rfl

mutual
theorem Task.execute_stamped (ctx : Context) (t : Task) (s : RunState) :
    Stamped ctx s (t.execute ctx s).2 := by
  match t with
  | .newTask cell name run => exact executeWith_stamped (run.call_stamped ctx cell s)
  | .series cell tasks => exact executeWith_stamped (seriesLoop_stamped ctx tasks s)
  | .parallel cell tasks => exact executeWith_stamped (parallelLoop_stamped ctx tasks none s)
  | .taskFrom cell name source => exact executeWith_stamped (source.execute_stamped ctx s)

theorem seriesLoop_stamped (ctx : Context) (ts : List Task) (s : RunState) :
    Stamped ctx s (seriesLoop ctx ts s).2 := by
  match ts with
  | [] => exact .of_eq rfl rfl
  | item :: rest =>
      rw [seriesLoop]
      split
      · exact .of_eq rfl rfl
      · have hitem := item.execute_stamped ctx s
        rcases hrun : item.execute ctx s with ⟨r | r, s'⟩
        · rwa [hrun] at hitem
        · rw [hrun] at hitem
          exact hitem.trans (seriesLoop_stamped ctx rest s')

theorem parallelLoop_stamped (ctx : Context) (ts : List Task) (firstError : Option MulpError)
    (s : RunState) : Stamped ctx s (parallelLoop ctx ts firstError s).2 := by
  match ts with
  | [] => exact .of_eq rfl rfl
  | item :: rest =>
      rw [parallelLoop]
      split
      · exact .of_eq rfl rfl
      · have hitem := item.execute_stamped ctx s
        rcases hrun : item.execute ctx s with ⟨r | r, s'⟩
        · rw [hrun] at hitem
          have hcancel : Stamped ctx s' s'.cancel := .of_eq rfl rfl
          exact (hitem.trans hcancel).trans (parallelLoop_stamped ctx rest _ s'.cancel)
        · rw [hrun] at hitem
          exact hitem.trans (parallelLoop_stamped ctx rest firstError s')
end

/-! ## The leaf that decides the fate -/

/-- The first leaf, from left to right, that fails or cancels the token. -/
def Task.firstEvent (t : Task) : Option LeafAt := (t.leavesAt true true).find? LeafAt.eventful

/-- The first eventful leaf returns `Ok` and cancels the token, lies in the last
child of every `series` above it and not in that of every `parallel`. -/
def Task.skipsChild (t : Task) : Bool :=
  match t.firstEvent with
  | some l => succeeded l.body.result && l.lastInSeries && !l.lastInParallel
  | none => false

/-- No leaf fails or cancels the token, or the first that does returns `Ok` and
lies in the last child of every `series` above it. -/
def Task.returnsOk (t : Task) : Bool :=
  match t.firstEvent with
  | some l => succeeded l.body.result && l.lastInSeries
  | none => true

/-- The first eventful leaf of a tree at a position with the flags `ls` and
`lp` tells the fate of the tree. -/
def Tells (ls lp : Bool) (first : Option LeafAt) : Fate → Prop
  | .clean => first = none
  | .cancelled skips => ∃ l, first = some l ∧ succeeded l.body.result = true ∧
      l.lastInSeries = ls ∧ l.lastInParallel = (lp && !skips)
  | .failed => ∃ l, first = some l ∧ (succeeded l.body.result = false ∨ l.lastInSeries = false)

mutual
theorem Task.firstEvent_tells (t : Task) (ls lp : Bool) :
    Tells ls lp ((t.leavesAt ls lp).find? LeafAt.eventful) t.fate := by
  match t with
  | .newTask cell name ⟨.error err, cancels⟩ =>
      exact ⟨⟨cell, ⟨.error err, cancels⟩, ls, lp⟩, rfl, .inl rfl⟩
  | .newTask cell name ⟨.ok u, true⟩ =>
      exact ⟨⟨cell, ⟨.ok u, true⟩, ls, lp⟩, rfl, rfl, rfl, (Bool.and_true lp).symm⟩
  | .newTask cell name ⟨.ok _, false⟩ => rfl
  | .series cell tasks => exact series_firstEvent_tells tasks ls lp
  | .parallel cell tasks => exact parallel_firstEvent_tells tasks ls lp
  | .taskFrom cell name source => exact source.firstEvent_tells ls lp

theorem series_firstEvent_tells (ts : List Task) (ls lp : Bool) :
    Tells ls lp ((seriesLeaves ls lp ts).find? LeafAt.eventful) (seriesFate ts) := by
  match ts with
  | [] => rfl
  | item :: rest =>
      have hitem := item.firstEvent_tells (ls && rest.isEmpty) lp
      rw [seriesLeaves, List.find?_append, seriesFate]
      match hf : item.fate with
      | .clean =>
          rw [hf] at hitem
          rw [show List.find? _ _ = none from hitem, Option.none_or]
          exact series_firstEvent_tells rest ls lp
      | .cancelled skips =>
          rw [hf] at hitem
          obtain ⟨l, hl, hok, hls, hlp⟩ := hitem
          rw [hl, Option.some_or]
          cases rest with
          | nil => exact ⟨l, rfl, hok, by simpa using hls, hlp⟩
          | cons next rest => exact ⟨l, rfl, .inr (by simpa using hls)⟩
      | .failed =>
          rw [hf] at hitem
          obtain ⟨l, hl, hfail⟩ := hitem
          rw [hl, Option.some_or]
          exact ⟨l, rfl, hfail⟩

theorem parallel_firstEvent_tells (ts : List Task) (ls lp : Bool) :
    Tells ls lp ((parallelLeaves ls lp ts).find? LeafAt.eventful) (parallelFate ts) := by
  match ts with
  | [] => rfl
  | item :: rest =>
      have hitem := item.firstEvent_tells ls (lp && rest.isEmpty)
      rw [parallelLeaves, List.find?_append, parallelFate]
      match hf : item.fate with
      | .clean =>
          rw [hf] at hitem
          rw [show List.find? _ _ = none from hitem, Option.none_or]
          exact parallel_firstEvent_tells rest ls lp
      | .cancelled skips =>
          rw [hf] at hitem
          obtain ⟨l, hl, hok, hls, hlp⟩ := hitem
          rw [hl, Option.some_or]
          exact ⟨l, rfl, hok, hls, by rw [hlp, Bool.not_or, Bool.not_not, Bool.and_assoc,
            Bool.and_comm rest.isEmpty]⟩
      | .failed =>
          rw [hf] at hitem
          obtain ⟨l, hl, hfail⟩ := hitem
          rw [hl, Option.some_or]
          exact ⟨l, rfl, hfail⟩
end

theorem Task.skipsChild_iff (t : Task) : t.skipsChild = true ↔ t.fate = .cancelled true := by
  have htells := t.firstEvent_tells true true
  rw [Task.skipsChild, Task.firstEvent]
  match hf : t.fate with
  | .clean =>
      rw [hf] at htells
      rw [show List.find? _ _ = none from htells]
      simp
  | .cancelled skips =>
      rw [hf] at htells
      obtain ⟨l, hl, hok, hls, hlp⟩ := htells
      simp [hl, hok, hls, hlp]
  | .failed =>
      rw [hf] at htells
      obtain ⟨l, hl, hfail⟩ := htells
      rcases hfail with hfail | hfail <;> simp [hl, hfail]

theorem Task.returnsOk_iff (t : Task) : t.returnsOk = true ↔ t.fate ≠ .failed := by
  have htells := t.firstEvent_tells true true
  rw [Task.returnsOk, Task.firstEvent]
  match hf : t.fate with
  | .clean =>
      rw [hf] at htells
      rw [show List.find? _ _ = none from htells]
      simp
  | .cancelled skips =>
      rw [hf] at htells
      obtain ⟨l, hl, hok, hls, hlp⟩ := htells
      simp [hl, hok, hls]
  | .failed =>
      rw [hf] at htells
      obtain ⟨l, hl, hfail⟩ := htells
      rcases hfail with hfail | hfail <;> simp [hl, hfail]

/-- The exact inputs on which a run from a live token returns `Ok`. -/
theorem Task.execute_ok_iff (ctx : Context) (t : Task) {s : RunState} (hs : s.cancelled = false) :
    (t.execute ctx s).1 = .ok () ↔ t.returnsOk = true := by
  have hends := t.execute_ends ctx hs
  rw [t.returnsOk_iff]
  match hf : t.fate with
  | .clean => rw [hf] at hends; simp [hends.1]
  | .cancelled false => rw [hf] at hends; simp [hends.1]
  | .cancelled true => rw [hf] at hends; simp [hends.1]
  | .failed =>
      rw [hf] at hends
      obtain ⟨err, herr⟩ := hends
      simp [herr]

/-! ## All or error -/

/-- `Task::execute` on the root is all-or-error: when it returns `Ok`, every
leaf occurrence was entered and every task occurrence executed, once each, in
order, and all of them returned `Ok`; and the last-run stamps are those of the
tasks whose `execute` returned `Ok`. -/
structure AllOrError (ctx : Context) (t : Task) (s : RunState) : Prop where
  complete : (t.execute ctx s).1 = .ok () → Complete t.leaves t.nodes s (t.execute ctx s).2
  stamped : Stamped ctx s (t.execute ctx s).2

theorem Complete.of_ends {ls ns s p f} (h : Ends ls ns s p f) (hok : p.1 = .ok ())
    (hf : f ≠ .cancelled true) : Complete ls ns s p.2 := by
  match f with
  | .clean => exact h.2.2
  | .cancelled false => exact h.2.2
  | .cancelled true => exact absurd rfl hf
  | .failed =>
      obtain ⟨err, herr⟩ := h
      rw [herr] at hok
      cases hok

/-- A tree is all-or-error unless its first eventful leaf cancels the live token
with `Ok` from the last child of every `series` above it, but not of every
`parallel`: that `parallel` then breaks its loop without an error. -/
theorem execute_allOrError_iff (ctx : Context) (t : Task) (s : RunState) :
    AllOrError ctx t s ↔ (s.cancelled = true ∨ t.skipsChild = false) := by
  constructor
  · intro h
    by_cases hs : s.cancelled = true
    · exact .inl hs
    refine .inr (Bool.eq_false_iff.mpr fun hskip => ?_)
    have hends := t.execute_ends ctx (Bool.eq_false_iff.mpr hs)
    rw [t.skipsChild_iff.mp hskip] at hends
    obtain ⟨hok, -, hlt⟩ := hends
    have hret := (h.complete hok).returned
    rw [hret] at hlt
    simp [okLog] at hlt
  · intro h
    refine ⟨fun hok => ?_, t.execute_stamped ctx s⟩
    by_cases hs : s.cancelled = true
    · rw [t.execute_cancelled ctx hs] at hok
      cases hok
    · have hskip := h.resolve_left hs
      refine .of_ends (t.execute_ends ctx (Bool.eq_false_iff.mpr hs)) hok fun hf => ?_
      rw [t.skipsChild_iff.mpr hf] at hskip
      cases hskip

/-- A run on a live token with nothing stamped. -/
def RunState.fresh : RunState := ⟨false, fun _ => none, [], []⟩

/-- `parallel([a, b])` where `a` cancels the token and returns `Ok`. -/
def cancellingParallel : Task :=
  .parallel 0 [.newTask 1 "a" ⟨.ok (), true⟩, .newTask 2 "b" ⟨.ok (), false⟩]

/-- `b` is never executed and the root returns `Ok`. -/
theorem cancellingParallel_not_allOrError :
    ¬ AllOrError ⟨".", 0⟩ cancellingParallel .fresh := by
  intro h
  have hentered := (h.complete rfl).entered
  simp [cancellingParallel, Task.execute, executeWith, parallelLoop, Body.call, parallelResult,
    RunState.fresh, Task.leaves, leavesAll, okLog, RunState.cancel, RunState.enter, RunState.stamp,
    RunState.return_] at hentered

end Mulp.Core
