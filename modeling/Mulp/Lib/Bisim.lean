import Mulp.Lib.Machine

/-! Bisimulations between two machines.

Two machines are the same to their callers if there is a relation between their objects
that every call keeps, with the same answers. A call need not return; it is said of the
calls that do. -/
namespace Pull.Machine

variable {σ τ ω ε α : Type}

/-- An answer of one of two related objects is an answer of the other, in the same
world, and the objects stay related. -/
structure Bisimulation (M : Machine σ ω ε α) (N : Machine τ ω ε α) (R : σ → τ → Prop) : Prop where
  forth : ∀ {s t n w r s' w'}, R s t → M.next n s w = (some r, s', w') →
    ∃ m t', N.next m t w = (some r, t', w') ∧ R s' t'
  back : ∀ {s t n w r t' w'}, R s t → N.next n t w = (some r, t', w') →
    ∃ m s', M.next m s w = (some r, s', w') ∧ R s' t'
  close : ∀ {s t} w, R s t →
    R (M.close s w).1 (N.close t w).1 ∧ (M.close s w).2 = (N.close t w).2

section Runs

variable {M : Machine σ ω ε α} {N : Machine τ ω ε α} {R : σ → τ → Prop}

theorem run_next {n m : Nat} {ops : List Op} {s s' s'' : σ} {w w' w'' : ω} {r : Reply ε α}
    {rs : List (Reply ε α)} (hnext : M.next n s w = (some r, s', w'))
    (hrun : M.run m ops s' w' = (some rs, s'', w'')) :
    M.run (max n m) (.next :: ops) s w = (some (r :: rs), s'', w'') := by
  have hrest : M.run (max n m) ops s' w' = (some rs, s'', w'') := by
    rw [run_agrees (Nat.le_max_right n m) ops (by rw [hrun]), hrun]
  rw [run, next_eq hnext (Nat.le_max_left n m)]
  simp only [hrest, Option.map_some]

theorem run_next_cases {n : Nat} {ops : List Op} {s s'' : σ} {w w'' : ω} {rs : List (Reply ε α)}
    (h : M.run n (.next :: ops) s w = (some rs, s'', w'')) :
    ∃ r rest s' w', rs = r :: rest ∧ M.next n s w = (some r, s', w') ∧
      M.run n ops s' w' = (some rest, s'', w'') := by
  rw [run] at h
  rcases hnext : M.next n s w with ⟨_ | r, s', w'⟩
  · rw [hnext] at h
    cases h
  · rw [hnext] at h
    simp only [Prod.mk.injEq, Option.map_eq_some_iff] at h
    obtain ⟨⟨rest, hrest, rfl⟩, hstate⟩ := h
    exact ⟨r, rest, s', w', rfl, rfl, Prod.ext hrest hstate⟩

theorem Bisimulation.symm (h : Bisimulation M N R) : Bisimulation N M fun t s => R s t := by
  refine ⟨h.back, h.forth, ?_⟩
  intro t s w hst
  obtain ⟨hclose, hworld⟩ := h.close w hst
  exact ⟨hclose, hworld.symm⟩

/-- A run of one of two related objects is a run of the other. -/
theorem Bisimulation.run (h : Bisimulation M N R) {n : Nat} {ops : List Op} {s s' : σ} {t : τ}
    {w w' : ω} {rs : List (Reply ε α)} (hst : R s t) (hrun : M.run n ops s w = (some rs, s', w')) :
    ∃ m t', N.run m ops t w = (some rs, t', w') ∧ R s' t' := by
  induction ops generalizing s t w rs with
  | nil =>
      cases hrun
      exact ⟨0, t, rfl, hst⟩
  | cons op ops ih =>
      cases op with
      | close =>
          obtain ⟨hclose, hworld⟩ := h.close w hst
          rw [Machine.run, hworld] at hrun
          exact ih hclose hrun
      | next =>
          obtain ⟨r, rest, s₁, w₁, rfl, hnext, hrest⟩ := run_next_cases hrun
          obtain ⟨m₁, t₁, hnext', hst₁⟩ := h.forth hst hnext
          obtain ⟨m₂, t₂, hrest', hst₂⟩ := ih hst₁ hrest
          exact ⟨max m₁ m₂, t₂, run_next hnext' hrest', hst₂⟩

/-- Two runs of one object that return come to the same. -/
theorem run_unique {n m : Nat} {ops : List Op} {s s' s'' : σ} {w w' w'' : ω}
    {rs rs' : List (Reply ε α)} (h : M.run n ops s w = (some rs, s', w'))
    (h' : M.run m ops s w = (some rs', s'', w'')) : rs = rs' ∧ s' = s'' ∧ w' = w'' := by
  have hmax := run_agrees (Nat.le_max_left n m) ops (by rw [h])
  rw [run_agrees (Nat.le_max_right n m) ops (by rw [h']), h, h'] at hmax
  cases hmax
  exact ⟨rfl, rfl, rfl⟩

/-- An object whose calls return, also after a call, goes through every sequence of
calls. -/
theorem exists_run {P : σ → Prop}
    (hnext : ∀ s w, P s → ∃ n r s' w', M.next n s w = (some r, s', w') ∧ P s')
    (hclose : ∀ s w, P s → P (M.close s w).1) (ops : List Op) {s : σ} (w : ω) (hs : P s) :
    ∃ n rs s' w', M.run n ops s w = (some rs, s', w') := by
  induction ops generalizing s w with
  | nil => exact ⟨0, [], s, w, rfl⟩
  | cons op ops ih =>
      cases op with
      | close => exact ih _ (hclose s w hs)
      | next =>
          obtain ⟨n, r, s', w', hn, hs'⟩ := hnext s w hs
          obtain ⟨m, rs, s'', w'', hm⟩ := ih w' hs'
          exact ⟨max n m, r :: rs, s'', w'', run_next hn hm⟩

end Runs

end Pull.Machine
