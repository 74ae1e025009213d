import Mathlib.Logic.Basic

/-! Loops that may not terminate. A loop takes fuel; one that runs out of it has
no reply yet, and its state is that of the unfinished loop. More fuel never
changes a reply. -/
namespace Pull

/-- What a call has come to: its reply, if it has returned, the object, and the
world the object shares with its surroundings. -/
abbrev Outcome (ρ σ ω : Type) := Option ρ × σ × ω

/-- The outcome of a call on a part of the object. -/
def Outcome.map {ρ σ τ ω : Type} (f : σ → τ) (o : Outcome ρ σ ω) : Outcome ρ τ ω :=
  (o.1, f o.2.1, o.2.2)

/-- Wherever `f` has a reply, `g` does the same. -/
def Agrees {ρ σ ω : Type} (f g : σ → ω → Outcome ρ σ ω) : Prop :=
  ∀ s w r, (f s w).1 = some r → g s w = f s w

/-- How one turn of a loop ends: with another turn, inside a call that has not
returned, or by leaving the loop. -/
inductive Turn (ρ : Type) where
  | again
  | stuck
  | reply (r : ρ)

section Loop

variable {ρ σ ω : Type}

def loop (body : σ → ω → Turn ρ × σ × ω) : Nat → σ → ω → Outcome ρ σ ω
  | 0, s, w => (none, s, w)
  | n + 1, s, w =>
      match body s w with
      | (.again, s', w') => loop body n s' w'
      | (.stuck, s', w') => (none, s', w')
      | (.reply r, s', w') => (some r, s', w')

variable {body body' : σ → ω → Turn ρ × σ × ω} {n m : Nat} {s s' : σ} {w w' : ω} {r : ρ}

theorem loop_again (h : body s w = (.again, s', w')) :
    loop body (n + 1) s w = loop body n s' w' := by rw [loop, h]

theorem loop_reply (h : body s w = (.reply r, s', w')) :
    loop body (n + 1) s w = (some r, s', w') := by rw [loop, h]

/-- A turn of `body` that is not stuck is a turn of `body'`. -/
def BodyAgrees (body body' : σ → ω → Turn ρ × σ × ω) : Prop :=
  ∀ s w, (body s w).1 ≠ .stuck → body' s w = body s w

theorem loop_agrees (hbody : BodyAgrees body body') (hle : n ≤ m) :
    Agrees (loop body n) (loop body' m) := by
  induction n generalizing m with
  | zero =>
      intro s w r hr
      cases hr
  | succ n ih =>
      intro s w r hr
      obtain ⟨k, rfl⟩ : ∃ k, m = k + 1 := ⟨m - 1, by omega⟩
      have hturn := hbody s w
      rcases hb : body s w with ⟨_ | _ | r', s', w'⟩
      · rw [hb] at hturn
        rw [loop_again hb] at hr ⊢
        rw [loop_again (hturn (by simp))]
        exact ih (by omega) s' w' r hr
      · rw [loop, hb] at hr
        cases hr
      · rw [hb] at hturn
        rw [loop_reply hb, loop_reply (hturn (by simp))]

/-! ### Bodies with fuel of their own -/

section Fuel

variable {turn : Nat → σ → ω → Turn ρ × σ × ω} {k : Nat} {s'' : σ} {w'' : ω}

/-- A loop that goes on after a turn. -/
theorem loop_after (hturn : ∀ {n m}, n ≤ m → BodyAgrees (turn n) (turn m))
    (hfirst : turn n s w = (.again, s', w')) (hrest : loop (turn k) k s' w' = (some r, s'', w'')) :
    loop (turn (max n k + 1)) (max n k + 1) s w = (some r, s'', w'') := by
  have hmore : turn (max n k + 1) s w = (.again, s', w') := by
    rw [hturn (by omega : n ≤ max n k + 1) s w (by rw [hfirst]; simp), hfirst]
  have hagrees : BodyAgrees (turn k) (turn (max n k + 1)) := hturn (by omega)
  rw [loop_again hmore, loop_agrees hagrees (Nat.le_max_right n k) _ _ r (by rw [hrest]), hrest]

theorem loop_now (hturn : ∀ {n m}, n ≤ m → BodyAgrees (turn n) (turn m))
    (hfirst : turn n s w = (.reply r, s', w')) :
    loop (turn (n + 1)) (n + 1) s w = (some r, s', w') := by
  refine loop_reply ?_
  rw [hturn (Nat.le_succ n) s w (by rw [hfirst]; simp), hfirst]

end Fuel

/-- A turn re-establishes the invariant, or leaves with the postcondition. -/
def Meets (inv : σ → ω → Prop) (post : Option ρ → σ → ω → Prop) : Turn ρ × σ × ω → Prop
  | (.again, s, w) => inv s w
  | (.stuck, s, w) => post none s w
  | (.reply r, s, w) => post (some r) s w

/-- The rule of the loop. A loop out of fuel stops between two turns. -/
theorem loop_rule {inv : σ → ω → Prop} {post : Option ρ → σ → ω → Prop}
    (hfuel : ∀ s w, inv s w → post none s w)
    (hbody : ∀ s w, inv s w → Meets inv post (body s w)) (n : Nat) (h : inv s w) :
    post (loop body n s w).1 (loop body n s w).2.1 (loop body n s w).2.2 := by
  induction n generalizing s w with
  | zero => exact hfuel s w h
  | succ n ih =>
      have hturn := hbody s w h
      rw [loop]
      rcases hb : body s w with ⟨_ | _ | r, s', w'⟩
      · rw [hb] at hturn
        exact ih hturn
      · rw [hb] at hturn
        exact hturn
      · rw [hb] at hturn
        exact hturn

/-- What every turn preserves, a loop preserves, whether it returns or not. -/
theorem loop_preserves (P : σ → Prop) (hbody : ∀ s w, P s → P (body s w).2.1) (n : Nat) (h : P s) :
    P (loop body n s w).2.1 := by
  refine @loop_rule ρ σ ω body s w (fun s _ => P s) (fun _ s _ => P s) (fun _ _ hs => hs) ?_ n h
  intro s w hs
  have hturn := hbody s w hs
  rcases hb : body s w with ⟨_ | _ | r, s', w'⟩ <;> rw [hb] at hturn <;> exact hturn

end Loop

end Pull
