import Mathlib.Data.List.Nodup
import Mathlib.Tactic.SplitIfs

/-! Differences of lists whose elements have keys.

Two lists are the same if they have the same keys, whatever the elements and their
order. The differences lead from the one to the other. -/
namespace Keyed

variable {α κ : Type} (key : α → κ)

/-- The lists have the same keys. -/
def Same (l l' : List α) : Prop := ∀ k, k ∈ l.map key ↔ k ∈ l'.map key

/-- No two elements have the same key. -/
def Distinct (l : List α) : Prop := (l.map key).Nodup

namespace Same

variable {key} {l l' : List α}

theorem refl (l : List α) : Same key l l := fun _ => Iff.rfl

theorem symm (h : Same key l l') : Same key l' l := fun k => (h k).symm

theorem trans {l'' : List α} (h : Same key l l') (h' : Same key l' l'') : Same key l l'' :=
  fun k => (h k).trans (h' k)

end Same

inductive Change (α : Type) where
  | added (x : α)
  | removed (x : α)
  deriving DecidableEq

def Change.value : Change α → α
  | .added x => x
  | .removed x => x

variable [DecidableEq κ]

/-- There is an element with the key of `x`. -/
def has (l : List α) (x : α) : Bool := l.any fun y => key y = key x

/-- What is new, and then what is gone. An element of which only something besides its key has
changed is neither. -/
def diff (old new : List α) : List (Change α) :=
  (new.filter fun x => !has key old x).map .added ++ (old.filter fun x => !has key new x).map .removed

def Change.apply (l : List α) : Change α → List α
  | .added x => l ++ [x]
  | .removed x => l.filter fun y => key y ≠ key x

def replay (l : List α) (changes : List (Change α)) : List α := changes.foldl (Change.apply key) l

/-- The first elements with their keys, after those of `seen`. -/
def distinctFrom (seen l : List α) : List α :=
  l.foldl (fun seen x => if has key seen x then seen else seen ++ [x]) seen

variable {key} {l l' old new seen : List α} {x : α}

theorem has_iff : has key l x = true ↔ key x ∈ l.map key := by
  simp [has]

theorem has_eq_false_iff : has key l x = false ↔ key x ∉ l.map key := by
  rw [← has_iff, Bool.not_eq_true]

/-! ## First elements -/

theorem distinctFrom_spec (l : List α) (hseen : Distinct key seen) :
    Distinct key (distinctFrom key seen l) ∧
      ∀ k, k ∈ (distinctFrom key seen l).map key ↔ k ∈ seen.map key ∨ k ∈ l.map key := by
  induction l generalizing seen with
  | nil => exact ⟨hseen, by simp [distinctFrom]⟩
  | cons x rest ih =>
      rw [distinctFrom, List.foldl_cons]
      cases hx : has key seen x with
      | true =>
          obtain ⟨hdistinct, hkeys⟩ := ih hseen
          refine ⟨hdistinct, fun k => (hkeys k).trans ?_⟩
          -- `x` is dropped, and its key is one of those seen
          have hmem := has_iff.mp hx
          rw [List.map_cons, List.mem_cons]
          constructor
          · rintro (h | h)
            · exact .inl h
            · exact .inr (.inr h)
          · rintro (h | rfl | h)
            · exact .inl h
            · exact .inl hmem
            · exact .inr h
      | false =>
          have hnew : Distinct key (seen ++ [x]) := by
            rw [Distinct, List.map_append, List.map_singleton]
            exact List.nodup_append_comm.mp (List.nodup_cons.mpr ⟨has_eq_false_iff.mp hx, hseen⟩)
          obtain ⟨hdistinct, hkeys⟩ := ih hnew
          refine ⟨hdistinct, fun k => (hkeys k).trans ?_⟩
          rw [List.map_append, List.map_singleton, List.mem_append, List.mem_singleton,
            List.map_cons, List.mem_cons, or_assoc]

theorem distinct_distinctFrom (l : List α) : Distinct key (distinctFrom key [] l) :=
  (@distinctFrom_spec _ _ key _ [] l List.nodup_nil).1

theorem same_distinctFrom (l : List α) : Same key (distinctFrom key [] l) l := fun k => by
  simpa using (@distinctFrom_spec _ _ key _ [] l List.nodup_nil).2 k

theorem distinctFrom_subset {l : List α} : distinctFrom key [] l ⊆ l := by
  suffices h : ∀ seen x, x ∈ distinctFrom key seen l → x ∈ seen ∨ x ∈ l by
    exact fun x hx => (h [] x hx).resolve_left List.not_mem_nil
  induction l with
  | nil => exact fun seen x hx => .inl hx
  | cons y rest ih =>
      intro seen x hx
      rw [List.mem_cons]
      rcases ih _ x hx with hseen | hrest
      · dsimp only at hseen
        split_ifs at hseen
        · exact .inl hseen
        · rw [List.mem_append, List.mem_singleton] at hseen
          exact hseen.imp_right .inl
      · exact .inr (.inr hrest)

/-! ## Differences -/

theorem diff_eq_nil_iff : diff key old new = [] ↔ Same key old new := by
  simp only [diff, List.append_eq_nil_iff, List.map_eq_nil_iff, List.filter_eq_nil_iff,
    Bool.not_eq_true', Bool.not_eq_false, has_iff, Same, List.mem_map]
  constructor
  · rintro ⟨hnew, hold⟩ k
    constructor
    · rintro ⟨x, hx, rfl⟩
      exact hold x hx
    · rintro ⟨x, hx, rfl⟩
      exact hnew x hx
  · intro h
    exact ⟨fun x hx => (h (key x)).mpr ⟨x, hx, rfl⟩, fun x hx => (h (key x)).mp ⟨x, hx, rfl⟩⟩

theorem count_map_filter {β : Type} [DecidableEq β] {f : α → β} (hf : Function.Injective f)
    (p : α → Bool) (hl : l.Nodup) (x : α) [Decidable (x ∈ l ∧ p x = true)] :
    ((l.filter p).map f).count (f x) = if x ∈ l ∧ p x = true then 1 else 0 := by
  rw [((hl.filter p).map hf).count]
  refine if_congr ?_ rfl rfl
  rw [List.mem_map_of_injective hf, List.mem_filter]

section Count

variable [DecidableEq α]

/-- An element is added once if it is new. -/
theorem count_added (hnew : Distinct key new) (x : α) :
    (diff key old new).count (.added x) = if x ∈ new ∧ (!has key old x) = true then 1 else 0 := by
  have hremoved : ((old.filter fun x => !has key new x).map Change.removed).count (.added x) = 0 :=
    List.count_eq_zero.mpr (by simp)
  rw [diff, List.count_append, hremoved, Nat.add_zero]
  exact count_map_filter (fun _ _ h => Change.added.inj h) _ (List.Nodup.of_map key hnew) x

/-- An element is removed once if it is gone. -/
theorem count_removed (hold : Distinct key old) (x : α) :
    (diff key old new).count (.removed x) = if x ∈ old ∧ (!has key new x) = true then 1 else 0 := by
  have hadded : ((new.filter fun x => !has key old x).map Change.added).count (.removed x) = 0 :=
    List.count_eq_zero.mpr (by simp)
  rw [diff, List.count_append, hadded, Nat.zero_add]
  exact count_map_filter (fun _ _ h => Change.removed.inj h) _ (List.Nodup.of_map key hold) x

end Count

/-- No two changes are about the same key. -/
theorem distinct_diff (hold : Distinct key old) (hnew : Distinct key new) :
    Distinct key ((diff key old new).map Change.value) := by
  have hvalues : (diff key old new).map Change.value =
      (new.filter fun x => !has key old x) ++ old.filter fun x => !has key new x := by
    rw [diff, List.map_append, List.map_map, List.map_map]
    exact congrArg₂ _ (List.map_id _) (List.map_id _)
  rw [hvalues, Distinct, List.map_append]
  refine List.Nodup.append (hnew.sublist (List.filter_sublist.map key))
    (hold.sublist (List.filter_sublist.map key)) ?_
  intro k hadded hremoved
  obtain ⟨x, hx, rfl⟩ := List.mem_map.mp hadded
  obtain ⟨y, hy, hkey⟩ := List.mem_map.mp hremoved
  have hx := (List.mem_filter.mp hx).2
  rw [Bool.not_eq_true', has_eq_false_iff, ← hkey] at hx
  exact hx (List.mem_map_of_mem (List.mem_filter.mp hy).1)

/-! ## Replaying -/

theorem replay_append (l : List α) (first second : List (Change α)) :
    replay key l (first ++ second) = replay key (replay key l first) second := List.foldl_append

theorem replay_added (l xs : List α) : replay key l (xs.map .added) = l ++ xs := by
  induction xs generalizing l with
  | nil => simp [replay]
  | cons x rest ih =>
      have hstep : replay key l ((x :: rest).map .added) =
          replay key (l ++ [x]) (rest.map .added) := rfl
      rw [hstep, ih, List.append_assoc]
      rfl

theorem mem_replay_removed (xs : List α) (k : κ) (l : List α) :
    k ∈ (replay key l (xs.map .removed)).map key ↔ k ∈ l.map key ∧ k ∉ xs.map key := by
  induction xs generalizing l with
  | nil => simp [replay]
  | cons x rest ih =>
      have hstep : replay key l ((x :: rest).map .removed) =
          replay key (l.filter fun y => key y ≠ key x) (rest.map .removed) := rfl
      have hfilter : k ∈ (l.filter fun y => key y ≠ key x).map key ↔ k ∈ l.map key ∧ k ≠ key x := by
        simp only [List.mem_map, List.mem_filter, decide_eq_true_eq]
        constructor
        · rintro ⟨y, ⟨hy, hne⟩, rfl⟩
          exact ⟨⟨y, hy, rfl⟩, hne⟩
        · rintro ⟨⟨y, hy, rfl⟩, hne⟩
          exact ⟨y, ⟨hy, hne⟩, rfl⟩
      rw [hstep, ih, hfilter, List.map_cons, List.mem_cons, not_or, and_assoc]

/-- The changes lead from the old keys to the new ones. -/
theorem same_replay_diff (h : Same key l old) : Same key (replay key l (diff key old new)) new := by
  intro k
  rw [diff, replay_append, replay_added, mem_replay_removed, List.map_append, List.mem_append, h k]
  constructor
  · rintro ⟨hold | hadded, hkept⟩
    · -- what has not been removed is still there
      by_contra hnew
      obtain ⟨x, hx, rfl⟩ := List.mem_map.mp hold
      refine hkept (List.mem_map_of_mem (List.mem_filter.mpr ⟨hx, ?_⟩))
      rw [Bool.not_eq_true', has_eq_false_iff]
      exact hnew
    · exact (List.filter_sublist.map key).subset hadded
  · intro hnew
    constructor
    · by_cases hold : k ∈ old.map key
      · exact .inl hold
      · obtain ⟨x, hx, rfl⟩ := List.mem_map.mp hnew
        refine .inr (List.mem_map_of_mem (List.mem_filter.mpr ⟨hx, ?_⟩))
        rw [Bool.not_eq_true', has_eq_false_iff]
        exact hold
    · intro hremoved
      obtain ⟨x, hx, rfl⟩ := List.mem_map.mp hremoved
      have hx := (List.mem_filter.mp hx).2
      rw [Bool.not_eq_true', has_eq_false_iff] at hx
      exact hx hnew

end Keyed
