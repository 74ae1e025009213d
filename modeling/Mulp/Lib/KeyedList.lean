import Mathlib.Data.List.Nodup
import Mathlib.Data.List.Basic
import Mulp.Lib.KeyedDiff

/-! Lists that elements are looked up in by key: the first element with a key, the
list without it, and the list with another one put in its place. -/
namespace Keyed

variable {α κ : Type} [DecidableEq κ] (key : α → κ)

/-- The first element with the key. Where keys are distinct it is the only one, and a list may be
seen as a map. -/
def lookup (k : κ) (l : List α) : Option α := l.find? (key · = k)

/-- The list without the first element that has the key. -/
def remove (k : κ) (l : List α) : List α := l.eraseP (key · = k)

/-- The list with `x` in place of the first element that has its key, or at the end. -/
def upsert (x : α) : List α → List α
  | [] => [x]
  | y :: l => if key y = key x then x :: l else y :: upsert x l

instance (l : List α) : Decidable (Distinct key l) := inferInstanceAs (Decidable (l.map key).Nodup)

variable {key} {k k' : κ} {l : List α} {x : α}

theorem lookup_eq_some (h : lookup key k l = some x) : x ∈ l ∧ key x = k :=
  ⟨List.mem_of_find?_eq_some h, by simpa using List.find?_some h⟩

theorem lookup_eq_none_iff : lookup key k l = none ↔ ∀ x ∈ l, key x ≠ k := by
  simp [lookup]

theorem lookup_append (l l' : List α) :
    lookup key k (l ++ l') = (lookup key k l).or (lookup key k l') := List.find?_append

theorem lookup_concat_self (h : lookup key (key x) l = none) :
    lookup key (key x) (l ++ [x]) = some x := by
  rw [lookup_append, h]
  simp [lookup]

theorem lookup_concat_ne (h : key x ≠ k) : lookup key k (l ++ [x]) = lookup key k l := by
  rw [lookup_append]
  simp [lookup, h]

theorem lookup_remove_ne (h : k ≠ k') : lookup key k (remove key k' l) = lookup key k l := by
  induction l with
  | nil => rfl
  | cons x l ih =>
      by_cases hx : key x = k'
      · simp [remove, lookup, hx, Ne.symm h]
      · simp only [remove, lookup] at ih
        simp [remove, lookup, hx, List.find?_cons, ih]

theorem mem_remove_of_ne (hx : key x ≠ k) : x ∈ remove key k l ↔ x ∈ l :=
  List.mem_eraseP_of_neg (by simpa using hx)

theorem mem_of_mem_remove (h : x ∈ remove key k l) : x ∈ l := List.mem_of_mem_eraseP h

theorem lookup_eq_head? (k : κ) (l : List α) : lookup key k l = (l.filter (key · = k)).head? :=
  List.head?_filter.symm

theorem filter_remove_ne (h : k ≠ k') :
    (remove key k l).filter (key · = k') = l.filter (key · = k') := by
  induction l with
  | nil => rfl
  | cons x l ih =>
      by_cases hx : key x = k
      · simp [remove, hx, h]
      · simp only [remove] at ih
        simp [remove, hx, List.filter_cons, ih]

theorem filter_remove_self (k : κ) (l : List α) :
    (remove key k l).filter (key · = k) = (l.filter (key · = k)).tail := by
  induction l with
  | nil => rfl
  | cons x l ih =>
      by_cases hx : key x = k
      · simp [remove, hx]
      · simp only [remove] at ih
        simp [remove, hx, ih]

@[simp] theorem lookup_nil : lookup key k [] = none := rfl

theorem lookup_cons (x : α) (l : List α) :
    lookup key k (x :: l) = if key x = k then some x else lookup key k l := by
  by_cases h : key x = k <;> simp [lookup, h]

theorem lookup_reverse_eq_none_iff : lookup key k l.reverse = none ↔ lookup key k l = none := by
  simp [lookup_eq_none_iff]

theorem lookup_upsert (x : α) (l : List α) :
    lookup key k (upsert key x l) = if key x = k then some x else lookup key k l := by
  induction l with
  | nil => rw [upsert, lookup_cons]
  | cons y l ih =>
      unfold upsert
      by_cases hy : key y = key x
      · rw [if_pos hy, lookup_cons, lookup_cons, hy]
        by_cases hk : key x = k <;> simp [hk]
      · rw [if_neg hy, lookup_cons, lookup_cons, ih]
        by_cases hk : key x = k
        · have hne : key y ≠ k := fun h => hy (h.trans hk.symm)
          simp [hk, hne]
        · simp [hk]

/-- Of several elements with one key put in one after the other, the last one stays. -/
theorem lookup_foldl_upsert (xs l : List α) :
    lookup key k (xs.foldl (fun acc x => upsert key x acc) l) =
      (lookup key k xs.reverse).or (lookup key k l) := by
  induction xs generalizing l with
  | nil => rfl
  | cons x xs ih =>
      rw [List.foldl_cons, ih, lookup_upsert, List.reverse_cons, lookup_append, Option.or_assoc]
      by_cases h : key x = k <;> simp [lookup_cons, h]

theorem map_upsert_of_mem (h : key x ∈ l.map key) : (upsert key x l).map key = l.map key := by
  induction l with
  | nil => simp at h
  | cons y l ih =>
      unfold upsert
      by_cases hy : key y = key x
      · simp [hy]
      · have hmem : key x ∈ l.map key := by
          simpa [Ne.symm hy] using h
        rw [if_neg hy, List.map_cons, ih hmem, List.map_cons]

theorem upsert_of_not_mem (h : key x ∉ l.map key) : upsert key x l = l ++ [x] := by
  induction l with
  | nil => rfl
  | cons y l ih =>
      rw [List.map_cons, List.mem_cons, not_or] at h
      rw [upsert, if_neg (Ne.symm h.1), ih h.2, List.cons_append]

theorem map_remove (k : κ) (l : List α) : (remove key k l).map key = (l.map key).erase k := by
  rw [remove, List.erase_eq_eraseP', List.eraseP_map]
  congr 1

namespace Distinct

theorem lookup_mem (h : Distinct key l) (hx : x ∈ l) : lookup key (key x) l = some x := by
  cases hlookup : lookup key (key x) l with
  | none => exact absurd rfl (lookup_eq_none_iff.mp hlookup x hx)
  | some y =>
      obtain ⟨hy, hkey⟩ := lookup_eq_some hlookup
      rw [List.inj_on_of_nodup_map h hy hx hkey]

protected theorem remove (h : Distinct key l) (k : κ) : Distinct key (remove key k l) := by
  rw [Distinct, map_remove]
  exact List.Nodup.erase k h

theorem lookup_remove_self (h : Distinct key l) (k : κ) : lookup key k (remove key k l) = none := by
  rw [lookup_eq_none_iff]
  intro x hx hkey
  have hmem := List.mem_map_of_mem (f := key) hx
  rw [map_remove, hkey] at hmem
  exact List.Nodup.not_mem_erase h hmem

protected theorem concat (h : Distinct key l) (hx : lookup key (key x) l = none) :
    Distinct key (l ++ [x]) := by
  rw [Distinct, List.map_append, List.map_singleton, List.nodup_append]
  refine ⟨h, List.nodup_singleton _, ?_⟩
  rintro _ hmem _ hkey rfl
  obtain ⟨y, hy, hykey⟩ := List.mem_map.mp hmem
  exact lookup_eq_none_iff.mp hx y hy (hykey.trans (List.mem_singleton.mp hkey))

protected theorem upsert (h : Distinct key l) (x : α) : Distinct key (upsert key x l) := by
  by_cases hmem : key x ∈ l.map key
  · rw [Distinct, map_upsert_of_mem hmem]
    exact h
  · rw [upsert_of_not_mem hmem]
    apply h.concat
    rw [lookup_eq_none_iff]
    intro y hy hkey
    exact hmem (List.mem_map.mpr ⟨y, hy, hkey⟩)

/-- Where no two elements have the same key, it does not matter from which end one looks. -/
theorem lookup_reverse (h : Distinct key l) (k : κ) : lookup key k l.reverse = lookup key k l := by
  cases hlookup : lookup key k l with
  | none => rwa [lookup_reverse_eq_none_iff]
  | some x =>
      obtain ⟨hx, rfl⟩ := lookup_eq_some hlookup
      have hrev : Distinct key l.reverse := by
        rw [Distinct, List.map_reverse, List.nodup_reverse]
        exact h
      exact hrev.lookup_mem (List.mem_reverse.mpr hx)

omit [DecidableEq κ] in
protected theorem perm (h : Distinct key l) {l' : List α} (hperm : l.Perm l') : Distinct key l' :=
  (hperm.map key).nodup_iff.mp h

/-- Nor does the order matter. -/
theorem lookup_perm (h : Distinct key l) {l' : List α} (hperm : l.Perm l') (k : κ) :
    lookup key k l' = lookup key k l := by
  cases hlookup : lookup key k l with
  | none =>
      rw [lookup_eq_none_iff] at hlookup ⊢
      exact fun x hx => hlookup x (hperm.mem_iff.mpr hx)
  | some x =>
      obtain ⟨hx, rfl⟩ := lookup_eq_some hlookup
      exact (h.perm hperm).lookup_mem (hperm.mem_iff.mp hx)

theorem filter_key (h : Distinct key l) (k : κ) : l.filter (key · = k) = (lookup key k l).toList := by
  induction l with
  | nil => rfl
  | cons x l ih =>
      obtain ⟨hx, hl⟩ := List.nodup_cons.mp h
      rw [lookup_cons]
      by_cases hk : key x = k
      · have hnone : l.filter (key · = k) = [] := by
          rw [List.filter_eq_nil_iff]
          intro y hy hkey
          exact hx (hk ▸ of_decide_eq_true hkey ▸ List.mem_map_of_mem hy)
        rw [if_pos hk, List.filter_cons_of_pos (by simpa using hk), hnone]
        rfl
      · rw [if_neg hk, List.filter_cons_of_neg (by simpa using hk), ih hl]

/-- What a list makes of a key is what it makes of the element with the key. -/
theorem filter_flatMap {β : Type} (h : Distinct key l) {f : α → List β} {about : β → κ}
    (hf : ∀ x ∈ l, ∀ b ∈ f x, about b = key x) (k : κ) :
    (l.flatMap f).filter (about · = k) = (lookup key k l).elim [] f := by
  induction l with
  | nil => rfl
  | cons x l ih =>
      obtain ⟨hx, hl⟩ := List.nodup_cons.mp h
      have hrest := ih hl fun y hy => hf y (List.mem_cons_of_mem x hy)
      rw [List.flatMap_cons, List.filter_append, hrest, lookup_cons]
      by_cases hk : key x = k
      · have hself : (f x).filter (about · = k) = f x := by
          rw [List.filter_eq_self]
          intro b hb
          simpa [hk] using hf x List.mem_cons_self b hb
        have hnone : lookup key k l = none := by
          rw [lookup_eq_none_iff]
          intro y hy hkey
          exact hx (hk ▸ hkey ▸ List.mem_map_of_mem hy)
        rw [if_pos hk, hself, hnone]
        exact List.append_nil _
      · have hother : (f x).filter (about · = k) = [] := by
          rw [List.filter_eq_nil_iff]
          intro b hb
          simpa [hf x List.mem_cons_self b hb] using hk
        rw [if_neg hk, hother, List.nil_append]

end Distinct

/-- A loop of which only the turns for one key count. -/
theorem foldl_about {β : Type} {f : β → α → β} {Inv : List α → β → Prop}
    (hturn : ∀ x ∈ l, key x = k → ∀ rest b, Inv (x :: rest) b → Inv rest (f b x))
    (hother : ∀ x ∈ l, key x ≠ k → ∀ rest b, Inv rest b → Inv rest (f b x)) {b : β}
    (h : Inv (l.filter (key · = k)) b) : Inv [] (l.foldl f b) := by
  induction l generalizing b with
  | nil => exact h
  | cons x l ih =>
      refine ih (fun y hy => hturn y (List.mem_cons_of_mem x hy))
        (fun y hy => hother y (List.mem_cons_of_mem x hy)) ?_
      by_cases hx : key x = k
      · rw [List.filter_cons_of_pos (by simpa using hx)] at h
        exact hturn x List.mem_cons_self hx _ _ h
      · rw [List.filter_cons_of_neg (by simpa using hx)] at h
        exact hother x List.mem_cons_self hx _ _ h

/-! ## Elements that are added once -/

section Push

variable {α : Type} [DecidableEq α] {l : List α} {x y : α} {keep : Bool}

theorem nodup_push (h : l.Nodup) : (if keep && x ∉ l then l ++ [x] else l).Nodup := by
  split_ifs with hadd
  · rw [Bool.and_eq_true, decide_eq_true_eq] at hadd
    refine List.nodup_append.mpr ⟨h, List.nodup_singleton x, fun old hold other hother => ?_⟩
    rw [List.mem_singleton.mp hother]
    exact ne_of_mem_of_not_mem hold hadd.2
  · exact h

theorem mem_push : y ∈ (if keep && x ∉ l then l ++ [x] else l) ↔ y ∈ l ∨ y = x ∧ keep = true := by
  split_ifs with hadd
  · rw [Bool.and_eq_true] at hadd
    simp [hadd.1]
  · refine ⟨.inl, ?_⟩
    rintro (hold | ⟨rfl, rfl⟩)
    · exact hold
    · -- it is there already
      simpa using hadd

end Push

end Keyed
