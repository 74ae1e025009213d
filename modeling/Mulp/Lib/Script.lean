import Mathlib.Logic.Basic

/-! Scripts: what a finite pull stream has to say. A script is a list of items
that ends normally or by an error. Scripts form a monad whose `bind` puts the
scripts of the items one after another and stops at the first error. -/
namespace Pull

/-- What one pull answers: an item, the end, or an error. -/
abbrev Reply (ε α : Type) := Except ε (Option α)

/-- The reply is the last one that says anything. -/
def Reply.isEnd {ε α : Type} : Reply ε α → Bool
  | .ok (some _) => false
  | .ok none => true
  | .error _ => true

inductive Script (ε α : Type) where
  | done
  | fail (e : ε)
  | item (x : α) (rest : Script ε α)
  deriving DecidableEq

namespace Script

variable {ε α β γ : Type}

def pure (x : α) : Script ε α := .item x .done

/-- The script of a list of items that ends normally. -/
def ofList : List α → Script ε α
  | [] => .done
  | x :: xs => .item x (ofList xs)

/-- `t` is read once `s` has ended normally. -/
def append : Script ε α → Script ε α → Script ε α
  | .done, t => t
  | .fail e, _ => .fail e
  | .item x rest, t => .item x (rest.append t)

def bind : Script ε α → (α → Script ε β) → Script ε β
  | .done, _ => .done
  | .fail e, _ => .fail e
  | .item x rest, f => (f x).append (rest.bind f)

def concat (ss : List (Script ε α)) : Script ε α := ss.foldr append .done

/-- The items, whatever the ending. -/
def items : Script ε α → List α
  | .done => []
  | .fail _ => []
  | .item x rest => x :: rest.items

def ending : Script ε α → Except ε Unit
  | .done => .ok ()
  | .fail e => .error e
  | .item _ rest => rest.ending

/-- All items, or the error if the script ends by one. -/
def result (s : Script ε α) : Except ε (List α) := s.ending.map fun _ => s.items

/-- The items and the ending as replies: what a reader is told who reads to the end, and what a
prefix is told to one who stops before. -/
def transcript : Script ε α → List (Reply ε α)
  | .done => [.ok none]
  | .fail e => [.error e]
  | .item x rest => .ok (some x) :: rest.transcript

/-- The replies to the first `k` pulls: after the ending, `Ok(None)` for ever. -/
def replies : Script ε α → Nat → List (Reply ε α)
  | _, 0 => []
  | .done, k + 1 => .ok none :: replies .done k
  | .fail e, k + 1 => .error e :: replies .done k
  | .item x rest, k + 1 => .ok (some x) :: rest.replies k

theorem transcript_length_pos (s : Script ε α) : 0 < s.transcript.length := by
  cases s <;> exact Nat.succ_pos _

/-- The end is the last of the replies. -/
theorem eq_transcript_of_end {s : Script ε α} {rs : List (Reply ε α)} (h : rs <+: s.transcript)
    (hend : .ok none ∈ rs) : rs = s.transcript ∧ s.ending = .ok () := by
  induction s generalizing rs with
  | done =>
      rcases List.prefix_cons_iff.mp h with rfl | ⟨rest, rfl, hrest⟩
      · cases hend
      · rw [List.prefix_nil.mp hrest]
        exact ⟨rfl, rfl⟩
  | fail e =>
      rcases List.prefix_cons_iff.mp h with rfl | ⟨rest, rfl, hrest⟩
      · cases hend
      · rw [List.prefix_nil.mp hrest] at hend
        simp at hend
  | item x s ih =>
      rcases List.prefix_cons_iff.mp h with rfl | ⟨rest, rfl, hrest⟩
      · cases hend
      · have hmem : .ok none ∈ rest := by simpa using hend
        obtain ⟨heq, hending⟩ := ih hrest hmem
        exact ⟨by rw [heq]; rfl, hending⟩

@[simp] theorem items_ofList (xs : List α) : (ofList xs : Script ε α).items = xs := by
  induction xs with
  | nil => rfl
  | cons x xs ih => rw [ofList, items, ih]

@[simp] theorem ending_ofList (xs : List α) : (ofList xs : Script ε α).ending = .ok () := by
  induction xs with
  | nil => rfl
  | cons x xs ih => rw [ofList, ending, ih]

/-! ## The monad laws -/

@[simp] theorem append_done (s : Script ε α) : s.append .done = s := by
  induction s with
  | done => rfl
  | fail e => rfl
  | item x rest ih => rw [append, ih]

theorem append_assoc (s t u : Script ε α) : (s.append t).append u = s.append (t.append u) := by
  induction s with
  | done => rfl
  | fail e => rfl
  | item x rest ih => rw [append, append, append, ih]

theorem append_bind (s t : Script ε α) (f : α → Script ε β) :
    (s.append t).bind f = (s.bind f).append (t.bind f) := by
  induction s with
  | done => rfl
  | fail e => rfl
  | item x rest ih => rw [append, bind, bind, ih, append_assoc]

theorem pure_bind (x : α) (f : α → Script ε β) : (pure x).bind f = f x := append_done (f x)

theorem bind_pure (s : Script ε α) : s.bind pure = s := by
  induction s with
  | done => rfl
  | fail e => rfl
  | item x rest ih =>
      rw [bind, ih]
      rfl

theorem bind_assoc (s : Script ε α) (f : α → Script ε β) (g : β → Script ε γ) :
    (s.bind f).bind g = s.bind fun x => (f x).bind g := by
  induction s with
  | done => rfl
  | fail e => rfl
  | item x rest ih => rw [bind, bind, append_bind, ih]

/-! ## Results -/

theorem result_item (x : α) (rest : Script ε α) :
    (item x rest).result = rest.result.map (x :: ·) := by
  unfold result
  rw [ending]
  cases rest.ending <;> rfl

theorem result_append (s t : Script ε α) :
    (s.append t).result = (do return (← s.result) ++ (← t.result)) := by
  induction s with
  | done =>
      rw [append]
      cases t.result <;> rfl
  | fail e => rfl
  | item x rest ih =>
      rw [append, result_item, result_item, ih]
      cases rest.result with
      | error e => rfl
      | ok xs => cases t.result <;> rfl

/-- What is read from a `bind`: the results of the items' scripts in order, up
to the first error, in which the ending of `s` comes last. -/
theorem result_bind (s : Script ε α) (f : α → Script ε β) :
    (s.bind f).result =
      (do
        let yss ← s.items.mapM fun x => (f x).result
        s.ending
        return yss.flatten) := by
  induction s with
  | done => rfl
  | fail e => rfl
  | item x rest ih =>
      rw [bind, result_append, ih, items, ending, List.mapM_cons]
      cases (f x).result with
      | error e => rfl
      | ok ys =>
          cases rest.items.mapM fun x => (f x).result with
          | error e => rfl
          | ok yss => cases rest.ending <;> rfl

end Script

end Pull
