import Mulp.Lib.Script
import Mulp.Lib.Loop

/-! Machines that answer calls of `next` and `close`, as streams do.

A machine is its two operations on a state and a world. What is said of a stream is said
of any number of calls in any order, and a call may not return, with the fuel that it is
given. -/
namespace Pull

structure Machine (σ ω ε α : Type) where
  next : Nat → σ → ω → Outcome (Reply ε α) σ ω
  close : σ → ω → σ × ω
  mono : ∀ {n m}, n ≤ m → Agrees (next n) (next m)

inductive Op where
  | next
  | close
  deriving DecidableEq

/-- What becomes of the outcome of a pull: the end and an error close the object. -/
def settled {σ ω ε α : Type} (close : σ → ω → σ × ω) :
    Outcome (Reply ε α) σ ω → Outcome (Reply ε α) σ ω
  | (none, s, w) => (none, s, w)
  | (some (.ok (some x)), s, w) => (some (.ok (some x)), s, w)
  | (some (.ok none), s, w) => (some (.ok none), close s w)
  | (some (.error e), s, w) => (some (.error e), close s w)

/-- A call of `next` around a pull: once `closed`, an object answers `rest` and
does nothing. -/
def latched {σ ω ε α : Type} (rest : Reply ε α) (closed : σ → Bool) (close : σ → ω → σ × ω)
    (pull : σ → ω → Outcome (Reply ε α) σ ω) (s : σ) (w : ω) : Outcome (Reply ε α) σ ω :=
  if closed s then (some rest, s, w) else settled close (pull s w)

namespace Machine

variable {σ ω ε α : Type} (M : Machine σ ω ε α)

/-- A sequence of calls, each with fuel `n`, and the replies to its `next` calls.
A call that has not returned is the last one. -/
def run (n : Nat) : List Op → σ → ω → Outcome (List (Reply ε α)) σ ω
  | [], s, w => (some [], s, w)
  | .close :: ops, s, w => run n ops (M.close s w).1 (M.close s w).2
  | .next :: ops, s, w =>
      match M.next n s w with
      | (none, s', w') => (none, s', w')
      | (some r, s', w') =>
          ((run n ops s' w').1.map (r :: ·), (run n ops s' w').2)

/-- The object answers `Ok(None)` and changes nothing. -/
def Rests (s : σ) : Prop := ∀ w, ∃ n, M.next n s w = (some (.ok none), s, w)

/-- Successive calls of `next` say what the script says, whatever happens to
the world between them. -/
def Plays : Script ε α → σ → Prop
  | .done, s => ∀ w, ∃ n s' w', M.next n s w = (some (.ok none), s', w')
  | .fail e, s => ∀ w, ∃ n s' w', M.next n s w = (some (.error e), s', w')
  | .item x rest, s => ∀ w, ∃ n s' w', M.next n s w = (some (.ok (some x)), s', w') ∧ Plays rest s'

/-- An object that has ended rests. -/
def Latches : Prop :=
  ∀ {n s w r s' w'}, M.next n s w = (some r, s', w') → r.isEnd = true → M.Rests s'

/-- The objects give the same replies to any number of `next` calls, from any world. What they do to
the world is the same then, as the replies carry on from it. -/
def SameReplies (s t : σ) : Prop :=
  ∀ k w w', ∃ n₀ rs, ∀ n, n₀ ≤ n →
    (M.run n (List.replicate k .next) s w).1 = some rs ∧
    (M.run n (List.replicate k .next) t w').1 = some rs

variable {M}

theorem next_eq {n m s w r s' w'} (h : M.next n s w = (some r, s', w')) (hle : n ≤ m) :
    M.next m s w = (some r, s', w') := by
  rw [M.mono hle s w r (by rw [h]), h]

theorem next_unique {n m s w r r' s' s'' w' w''} (h : M.next n s w = (some r, s', w'))
    (h' : M.next m s w = (some r', s'', w'')) : r = r' ∧ s' = s'' ∧ w' = w'' := by
  have hmax := next_eq h (Nat.le_max_left n m)
  rw [next_eq h' (Nat.le_max_right n m)] at hmax
  cases hmax
  exact ⟨rfl, rfl, rfl⟩

/-- What a stream that plays a script answers when a call returns. -/
theorem Plays.next_cases {sc : Script ε α} {n s w r s' w'} (h : M.Plays sc s)
    (hn : M.next n s w = (some r, s', w')) :
    (r = .ok none ∧ sc = .done) ∨ (∃ e, r = .error e ∧ sc = .fail e) ∨
    ∃ x rest, r = .ok (some x) ∧ sc = .item x rest ∧ M.Plays rest s' := by
  cases sc with
  | done =>
      obtain ⟨m, s'', w'', hm⟩ := h w
      exact .inl ⟨(next_unique hn hm).1, rfl⟩
  | fail e =>
      obtain ⟨m, s'', w'', hm⟩ := h w
      exact .inr (.inl ⟨e, (next_unique hn hm).1, rfl⟩)
  | item x rest =>
      obtain ⟨m, s'', w'', hm, hrest⟩ := h w
      obtain ⟨rfl, rfl, -⟩ := next_unique hn hm
      exact .inr (.inr ⟨x, rest, rfl, rfl, hrest⟩)

/-- The rule of runs: what `close` and every call of `next` that returns preserve
holds after a run, or of the run's last call if that has not returned. -/
theorem run_rule {P Q : σ → ω → Prop} {n : Nat}
    (hnext : ∀ s w, P s w → ((M.next n s w).1.isSome → P (M.next n s w).2.1 (M.next n s w).2.2) ∧
      Q (M.next n s w).2.1 (M.next n s w).2.2)
    (hclose : ∀ s w, P s w → P (M.close s w).1 (M.close s w).2)
    (hPQ : ∀ s w, P s w → Q s w) (ops : List Op) {s : σ} {w : ω} (h : P s w) :
    ((M.run n ops s w).1.isSome → P (M.run n ops s w).2.1 (M.run n ops s w).2.2) ∧
      Q (M.run n ops s w).2.1 (M.run n ops s w).2.2 := by
  induction ops generalizing s w with
  | nil => exact ⟨fun _ => h, hPQ s w h⟩
  | cons op ops ih =>
      cases op with
      | close => exact ih (hclose s w h)
      | next =>
          have hstep := hnext s w h
          rw [run]
          rcases hrun : M.next n s w with ⟨_ | r, s', w'⟩
          · rw [hrun] at hstep
            exact ⟨fun hsome => absurd hsome (by simp), hstep.2⟩
          · rw [hrun] at hstep
            simpa using ih (hstep.1 rfl)

/-- What every call preserves, a run preserves. -/
theorem run_preserves (P : σ → Prop) {n : Nat} (hnext : ∀ s w, P s → P (M.next n s w).2.1)
    (hclose : ∀ s w, P s → P (M.close s w).1) (ops : List Op) {s : σ} {w : ω} (h : P s) :
    P (M.run n ops s w).2.1 := by
  refine (@run_rule _ _ _ _ M (fun s _ => P s) (fun s _ => P s) n ?_ hclose (fun _ _ hs => hs)
    ops s w h).2
  intro s w hs
  exact ⟨fun _ => hnext s w hs, hnext s w hs⟩

/-- What every call preserves of the object and the world, a run preserves. -/
theorem run_keeps (P : σ → ω → Prop) {n : Nat}
    (hnext : ∀ s w, P s w → P (M.next n s w).2.1 (M.next n s w).2.2)
    (hclose : ∀ s w, P s w → P (M.close s w).1 (M.close s w).2) (ops : List Op) {s : σ} {w : ω}
    (h : P s w) : P (M.run n ops s w).2.1 (M.run n ops s w).2.2 := by
  induction ops generalizing s w with
  | nil => exact h
  | cons op ops ih =>
      cases op with
      | close => exact ih (hclose s w h)
      | next =>
          have hstep := hnext s w h
          rw [run]
          rcases hn : M.next n s w with ⟨_ | r, s', w'⟩
          · rw [hn] at hstep
            exact hstep
          · rw [hn] at hstep
            exact ih hstep

/-- What a close, the end and an error establish, and every call preserves, holds
after a run with a close, the end or an error in it. -/
theorem run_latches (P : σ → Prop) {n : Nat} (hnext : ∀ s w, P s → P (M.next n s w).2.1)
    (hclose : ∀ s w, P (M.close s w).1)
    (hend : ∀ {s w r s' w'}, M.next n s w = (some r, s', w') → r.isEnd = true → P s')
    {ops : List Op} {s : σ} {w : ω} {rs : List (Reply ε α)} (hrun : (M.run n ops s w).1 = some rs)
    (hops : .close ∈ ops ∨ ∃ r ∈ rs, r.isEnd = true) : P (M.run n ops s w).2.1 := by
  have hstays (ops : List Op) (s : σ) (w : ω) (hs : P s) : P (M.run n ops s w).2.1 :=
    run_preserves P hnext (fun s w _ => hclose s w) ops hs
  induction ops generalizing s w rs with
  | nil =>
      cases hrun
      simp at hops
  | cons op ops ih =>
      cases op with
      | close => exact hstays ops _ _ (hclose s w)
      | next =>
          rw [run] at hrun ⊢
          rcases hstep : M.next n s w with ⟨_ | r, s', w'⟩
          · rw [hstep] at hrun
            cases hrun
          · rw [hstep] at hrun
            -- the first reply that ends the object, or the rest of the run has it
            by_cases hr : r.isEnd = true
            · exact hstays ops s' w' (hend hstep hr)
            · obtain ⟨rest, hrest, rfl⟩ := Option.map_eq_some_iff.mp hrun
              refine ih hrest ?_
              rcases hops with hops | ⟨r', hr', hops⟩
              · exact .inl (by simpa using hops)
              · rcases List.mem_cons.mp hr' with rfl | hr'
                · exact absurd hops hr
                · exact .inr ⟨r', hr', hops⟩

theorem Rests.plays {s : σ} (h : M.Rests s) : M.Plays .done s := by
  intro w
  obtain ⟨n, hn⟩ := h w
  exact ⟨n, s, w, hn⟩

/-- A machine that plays a script gives the replies of the script. -/
theorem Plays.replies (hM : M.Latches) (k : Nat) {sc : Script ε α} {s : σ} (h : M.Plays sc s)
    (w : ω) : ∃ n₀, ∀ n, n₀ ≤ n →
      (M.run n (List.replicate k .next) s w).1 = some (sc.replies k) := by
  induction k generalizing sc s w with
  | zero => exact ⟨0, fun n _ => by cases sc <;> rfl⟩
  | succ k ih =>
      -- one reply, and an object that plays what the script says after it
      have hstep : ∃ r rest n₁ s' w', M.next n₁ s w = (some r, s', w') ∧ M.Plays rest s' ∧
          sc.replies (k + 1) = r :: rest.replies k := by
        cases sc with
        | done =>
            obtain ⟨n₁, s', w', hn⟩ := h w
            exact ⟨_, .done, n₁, s', w', hn, (hM hn rfl).plays, rfl⟩
        | fail e =>
            obtain ⟨n₁, s', w', hn⟩ := h w
            exact ⟨_, .done, n₁, s', w', hn, (hM hn rfl).plays, rfl⟩
        | item x rest =>
            obtain ⟨n₁, s', w', hn, hrest⟩ := h w
            exact ⟨_, rest, n₁, s', w', hn, hrest, rfl⟩
      obtain ⟨r, rest, n₁, s', w', hn, hrest, hreplies⟩ := hstep
      obtain ⟨n₂, hn₂⟩ := ih hrest w'
      refine ⟨max n₁ n₂, fun n hle => ?_⟩
      rw [List.replicate_succ, run, next_eq hn (by omega), hreplies]
      simp only [hn₂ n (by omega), Option.map_some]

theorem Plays.sameReplies (hM : M.Latches) {sc : Script ε α} {s t : σ} (hs : M.Plays sc s)
    (ht : M.Plays sc t) : M.SameReplies s t := by
  intro k w w'
  obtain ⟨n₁, h₁⟩ := hs.replies hM k w
  obtain ⟨n₂, h₂⟩ := ht.replies hM k w'
  refine ⟨max n₁ n₂, sc.replies k, fun n hle => ?_⟩
  exact ⟨h₁ n (by omega), h₂ n (by omega)⟩

theorem run_agrees {n m : Nat} (hle : n ≤ m) (ops : List Op) {s : σ} {w : ω}
    {rs : List (Reply ε α)} (h : (M.run n ops s w).1 = some rs) :
    M.run m ops s w = M.run n ops s w := by
  induction ops generalizing s w rs with
  | nil => rfl
  | cons op ops ih =>
      cases op with
      | close => exact ih h
      | next =>
          rw [run] at h
          rcases hstep : M.next n s w with ⟨_ | r, s', w'⟩
          · rw [hstep] at h
            cases h
          · rw [hstep] at h
            obtain ⟨rest, hrest, -⟩ := Option.map_eq_some_iff.mp h
            rw [run, run, hstep, next_eq hstep hle]
            simp only [ih hrest]

/-! ## Reading to the end -/

/-- Some number of `next` calls returns and reaches the end or an error. -/
def Ends (M : Machine σ ω ε α) (s : σ) : Prop :=
  ∀ w, ∃ k n rs, (M.run n (List.replicate k .next) s w).1 = some rs ∧ ∃ r ∈ rs, r.isEnd = true

/-- The next call in `w` returns, and the object has ended or will. -/
def Answers (M : Machine σ ω ε α) (s : σ) (w : ω) : Prop :=
  ∃ n r s' w', M.next n s w = (some r, s', w') ∧ (r.isEnd = true ∨ M.Ends s')

theorem Ends.of_answers {s : σ} (h : ∀ w, M.Answers s w) : M.Ends s := by
  intro w
  obtain ⟨n, r, s', w', hn, hr | hends⟩ := h w
  · refine ⟨1, n, [r], ?_, r, List.mem_singleton_self r, hr⟩
    simp [run, hn]
  · obtain ⟨k, m, rs, hrs, r', hr', hend⟩ := hends w'
    refine ⟨k + 1, max n m, r :: rs, ?_, r', List.mem_cons_of_mem r hr', hend⟩
    rw [List.replicate_succ, run, next_eq hn (Nat.le_max_left n m)]
    simp only [run_agrees (Nat.le_max_right n m) _ hrs, hrs, Option.map_some]

end Machine

/-! ## Machines that behave the same -/

/-- The objects `f s` of `N` behave as the objects `s` of `M`: each call commutes with `f`, so runs
do, and what is proved of the one is true of the other. -/
structure Machine.Hom {σ τ ω ε α : Type} (M : Machine σ ω ε α) (N : Machine τ ω ε α)
    (f : σ → τ) : Prop where
  next : ∀ n s w, N.next n (f s) w = (M.next n s w).map f
  close : ∀ s w, N.close (f s) w = (f (M.close s w).1, (M.close s w).2)

theorem Machine.Hom.run {σ τ ω ε α : Type} {M : Machine σ ω ε α} {N : Machine τ ω ε α} {f : σ → τ}
    (h : M.Hom N f) (n : Nat) (ops : List Op) (s : σ) (w : ω) :
    N.run n ops (f s) w = (M.run n ops s w).map f := by
  induction ops generalizing s w with
  | nil => rfl
  | cons op ops ih =>
      cases op with
      | close =>
          rw [Machine.run, Machine.run, h.close]
          exact ih _ _
      | next =>
          rw [Machine.run, Machine.run, h.next]
          rcases M.next n s w with ⟨_ | r, s', w'⟩
          · rfl
          · simp only [Outcome.map, ih]

/-! ## Objects whose pull is a loop -/

/-- The objects `mk st` pull by a loop, and `finish` makes a call out of what
the loop comes to. -/
structure Machine.Looping {τ σ ω ε α : Type} (M : Machine σ ω ε α) (mk : τ → σ)
    (body : Nat → τ → ω → Turn (Reply ε α) × τ × ω)
    (finish : Outcome (Reply ε α) τ ω → Outcome (Reply ε α) σ ω) : Prop where
  agrees : ∀ {n m}, n ≤ m → BodyAgrees (body n) (body m)
  next_eq : ∀ n st w, M.next (n + 1) (mk st) w = finish (loop (body n) n st w)
  finish_fst : ∀ o, (finish o).1 = o.1
  finish_item : ∀ x st w,
    finish (some (.ok (some x)), st, w) = (some (.ok (some x)), mk st, w)

namespace Machine.Looping

variable {τ σ ω ε α : Type} {M : Machine σ ω ε α} {mk : τ → σ}
  {body : Nat → τ → ω → Turn (Reply ε α) × τ × ω}
  {finish : Outcome (Reply ε α) τ ω → Outcome (Reply ε α) σ ω} (h : M.Looping mk body finish)
  {k : Nat} {st st' : τ} {w w' : ω} {r : Reply ε α} {sc : Script ε α}

include h

theorem next_reply (hb : body k st w = (.reply r, st', w')) :
    M.next (k + 2) (mk st) w = finish (some r, st', w') := by
  have hturn : body (k + 1) st w = (.reply r, st', w') := by
    rw [h.agrees (Nat.le_succ k) st w (by rw [hb]; simp), hb]
  rw [h.next_eq, loop_reply hturn]

/-- A turn that goes on leaves the answer to the turns after it. -/
theorem next_again_max {m : Nat} {s' : σ} {w'' : ω} (hb : body k st w = (.again, st', w'))
    (hn : M.next m (mk st') w' = (some r, s', w'')) :
    M.next (max k m + 2) (mk st) w = (some r, s', w'') := by
  have hturn : body (max k m + 1) st w = (.again, st', w') := by
    rw [h.agrees (by omega : k ≤ max k m + 1) st w (by rw [hb]; simp), hb]
  -- the fuel of `hn` may be zero only if the call has not returned
  have hn' : M.next (m + 1) (mk st') w' = (some r, s', w'') := Machine.next_eq hn (Nat.le_succ m)
  have hreply : (loop (body m) m st' w').1 = some r := by
    rw [← h.finish_fst, ← h.next_eq, hn']
  rw [h.next_eq, loop_again hturn,
    loop_agrees (h.agrees (by omega : m ≤ max k m + 1)) (by omega) st' w' r hreply,
    ← h.next_eq, hn']

theorem next_again {m : Nat} {s' : σ} {w'' : ω} (hb : body k st w = (.again, st', w'))
    (hn : M.next m (mk st') w' = (some r, s', w'')) :
    ∃ n, M.next n (mk st) w = (some r, s', w'') := ⟨_, h.next_again_max hb hn⟩

theorem plays_again
    (hb : ∀ w, ∃ k st' w', body k st w = (.again, st', w') ∧ M.Plays sc (mk st')) :
    M.Plays sc (mk st) := by
  cases sc with
  | done =>
      intro w
      obtain ⟨k, st', w', hturn, hplays⟩ := hb w
      obtain ⟨m, s', w'', hn⟩ := hplays w'
      obtain ⟨n, hn⟩ := h.next_again hturn hn
      exact ⟨n, s', w'', hn⟩
  | fail e =>
      intro w
      obtain ⟨k, st', w', hturn, hplays⟩ := hb w
      obtain ⟨m, s', w'', hn⟩ := hplays w'
      obtain ⟨n, hn⟩ := h.next_again hturn hn
      exact ⟨n, s', w'', hn⟩
  | item x rest =>
      intro w
      obtain ⟨k, st', w', hturn, hplays⟩ := hb w
      obtain ⟨m, s', w'', hn, hrest⟩ := hplays w'
      obtain ⟨n, hn⟩ := h.next_again hturn hn
      exact ⟨n, s', w'', hn, hrest⟩

theorem plays_item {x : α} (hb : ∀ w, ∃ k st' w',
    body k st w = (.reply (.ok (some x)), st', w') ∧ M.Plays sc (mk st')) :
    M.Plays (.item x sc) (mk st) := by
  intro w
  obtain ⟨k, st', w', hturn, hplays⟩ := hb w
  exact ⟨k + 2, mk st', w', by rw [h.next_reply hturn, h.finish_item], hplays⟩

theorem next_end (hb : body k st w = (.reply r, st', w')) :
    ∃ n s' w'', M.next n (mk st) w = (some r, s', w'') := by
  refine ⟨k + 2, (finish (some r, st', w')).2.1, (finish (some r, st', w')).2.2, ?_⟩
  rw [h.next_reply hb]
  exact Prod.ext (h.finish_fst _) rfl

theorem plays_done (hb : ∀ w, ∃ k st' w', body k st w = (.reply (.ok none), st', w')) :
    M.Plays .done (mk st) := by
  intro w
  obtain ⟨k, st', w', hturn⟩ := hb w
  exact h.next_end hturn

theorem plays_fail {e : ε} (hb : ∀ w, ∃ k st' w', body k st w = (.reply (.error e), st', w')) :
    M.Plays (.fail e) (mk st) := by
  intro w
  obtain ⟨k, st', w', hturn⟩ := hb w
  exact h.next_end hturn

theorem answers_end (hb : body k st w = (.reply r, st', w')) (hr : r.isEnd = true) :
    M.Answers (mk st) w := by
  obtain ⟨n, s', w'', hn⟩ := h.next_end hb
  exact ⟨n, r, s', w'', hn, .inl hr⟩

theorem answers_item {x : α} (hb : body k st w = (.reply (.ok (some x)), st', w'))
    (hends : M.Ends (mk st')) : M.Answers (mk st) w :=
  ⟨k + 2, _, mk st', w', by rw [h.next_reply hb, h.finish_item], .inr hends⟩

theorem answers_again (hb : body k st w = (.again, st', w')) (hanswers : M.Answers (mk st') w') :
    M.Answers (mk st) w := by
  obtain ⟨m, r, s', w'', hn, hr⟩ := hanswers
  obtain ⟨n, hn⟩ := h.next_again hb hn
  exact ⟨n, r, s', w'', hn, hr⟩

end Machine.Looping

/-! ## The wrapper -/

section Latched

variable {σ ω ε α : Type} {rest : Reply ε α} {closed : σ → Bool} {close : σ → ω → σ × ω}
  {pull pull' : σ → ω → Outcome (Reply ε α) σ ω}

@[simp] theorem settled_fst (o : Outcome (Reply ε α) σ ω) : (settled close o).1 = o.1 := by
  rcases o with ⟨_ | (e | _ | x), s, w⟩ <;> rfl

theorem settled_end {r : Reply ε α} (hr : r.isEnd = true) (s : σ) (w : ω) :
    settled close (some r, s, w) = (some r, close s w) := by
  rcases r with e | _ | x
  · rfl
  · rfl
  · cases hr

theorem settled_of_not_end {o : Outcome (Reply ε α) σ ω}
    (ho : ∀ r, o.1 = some r → r.isEnd = false) :
    settled close o = o := by
  rcases o with ⟨_ | (e | _ | x), s, w⟩
  · rfl
  · cases ho _ rfl
  · cases ho _ rfl
  · rfl

theorem settled_map {τ : Type} {f : τ → σ} {closeτ : τ → ω → τ × ω}
    (h : ∀ t w, close (f t) w = (f (closeτ t w).1, (closeτ t w).2))
    (o : Outcome (Reply ε α) τ ω) :
    settled close (o.map f) = (settled closeτ o).map f := by
  rcases o with ⟨_ | (e | _ | x), t, w⟩
  · rfl
  · exact congrArg (Prod.mk _) (h t w)
  · exact congrArg (Prod.mk _) (h t w)
  · rfl

theorem latched_closed {s : σ} (w : ω) (h : closed s = true) :
    latched rest closed close pull s w = (some rest, s, w) := if_pos h

theorem latched_open {s : σ} (w : ω) (h : closed s = false) :
    latched rest closed close pull s w = settled close (pull s w) :=
  if_neg (Bool.eq_false_iff.mp h)

theorem latched_agrees (h : Agrees pull pull') :
    Agrees (latched rest closed close pull) (latched rest closed close pull') := by
  intro s w r hr
  by_cases hc : closed s = true
  · rw [latched_closed w hc, latched_closed w hc]
  · have hc : closed s = false := Bool.eq_false_iff.mpr hc
    rw [latched_open w hc, settled_fst] at hr
    rw [latched_open w hc, latched_open w hc, h s w r hr]

/-- The end and an error leave the object closed. -/
theorem latched_end {s : σ} {w : ω} {r s' w'} (hclose : ∀ s w, closed (close s w).1 = true)
    (h : latched rest closed close pull s w = (some r, s', w')) (hend : r.isEnd = true) :
    closed s' = true := by
  by_cases hc : closed s = true
  · rw [latched_closed w hc] at h
    cases h
    exact hc
  · rw [latched_open w (Bool.eq_false_iff.mpr hc)] at h
    rcases hp : pull s w with ⟨o, s₁, w₁⟩
    have ho : o = some r := by
      have hfst := congrArg Prod.fst h
      rw [settled_fst, hp] at hfst
      exact hfst
    rw [hp, ho, settled_end hend] at h
    have hs : (close s₁ w₁).1 = s' := congrArg (fun o => o.2.1) h
    rw [← hs]
    exact hclose s₁ w₁

/-- What a pull and a close after it preserve, a call of `next` preserves. -/
theorem latched_preserves (P : σ → Prop) {s : σ} {w : ω} (h : P s)
    (hpull : closed s = false → P (pull s w).2.1) (hclose : ∀ s w, P s → P (close s w).1) :
    P (latched rest closed close pull s w).2.1 := by
  by_cases hc : closed s = true
  · rw [latched_closed w hc]
    exact h
  · have hc : closed s = false := Bool.eq_false_iff.mpr hc
    have hp := hpull hc
    rw [latched_open w hc]
    rcases hpulled : pull s w with ⟨_ | (e | _ | x), s', w'⟩ <;> rw [hpulled] at hp
    · exact hp
    · exact hclose s' w' hp
    · exact hclose s' w' hp
    · exact hp

end Latched

end Pull
