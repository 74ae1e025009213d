import Mathlib.Data.String.Basic

/-! Texts and byte strings as lines.

The lemmas are those of splitting a list at a separator and of joining the parts again,
which are inverse as long as no part has the separator. -/
namespace Lines

/-! ## Lists -/

section Lists

variable {α β : Type} {f : α → β}

theorem intercalate_map (separator : List α) (parts : List (List α)) :
    (separator.map f).intercalate (parts.map (List.map f)) =
      (separator.intercalate parts).map f := by
  induction parts with
  | nil => rfl
  | cons part rest ih =>
    cases rest with
    | nil => simp
    | cons next rest =>
      rw [List.map_cons, List.map_cons, List.intercalate_cons_cons, List.intercalate_cons_cons,
        List.map_append, List.map_append, ← ih, List.map_cons]

theorem forall_mem_intercalate {p : α → Prop} {a : α} (ha : p a) (parts : List (List α)) :
    (∀ x ∈ [a].intercalate parts, p x) ↔ ∀ part ∈ parts, ∀ x ∈ part, p x := by
  induction parts with
  | nil => simp
  | cons part rest ih =>
    cases rest with
    | nil => simp
    | cons next rest =>
      rw [List.intercalate_cons_cons, List.forall_mem_append, List.forall_mem_append,
        List.forall_mem_singleton, List.forall_mem_cons, ← ih]
      constructor
      · rintro ⟨⟨hpart, -⟩, hrest⟩
        exact ⟨hpart, hrest⟩
      · rintro ⟨hpart, hrest⟩
        exact ⟨⟨hpart, ha⟩, hrest⟩

variable [BEq α] [LawfulBEq α] [BEq β] [LawfulBEq β]

theorem splitOn_map (hf : Function.Injective f) (a : α) (l : List α) :
    (l.map f).splitOn (f a) = (l.splitOn a).map (List.map f) := by
  induction l with
  | nil => rfl
  | cons x rest ih =>
    have hsame : (f x == f a) = (x == a) := by
      rw [Bool.eq_iff_iff, beq_iff_eq, beq_iff_eq, hf.eq_iff]
    rw [List.map_cons, List.splitOn_cons_eq_if_modifyHead, List.splitOn_cons_eq_if_modifyHead,
      ih, hsame]
    split_ifs with hx
    · simp
    · cases rest.splitOn a <;> rfl

end Lists

/-! ## Strings -/

/-- With a separator of one character, `splitOn` is a loop over characters. -/
theorem splitOnAux_newline (s : String) (b i : String.Pos.Raw) (parts : List String) :
    String.splitOnAux s "\n" b i 0 parts = String.splitAux s (· == '\n') b i parts := by
  have hget : (0 : String.Pos.Raw).get "\n" = '\n' := by decide
  have hend : ((0 : String.Pos.Raw).next "\n").atEnd "\n" = true := by decide
  have hone : (0 : String.Pos.Raw).next "\n" = ⟨1⟩ := by decide
  induction hn : s.rawEndPos.1 - i.1 using Nat.strongRecOn generalizing b i parts with
  | _ n ih =>
    rw [String.splitOnAux, String.splitAux]
    split
    · rfl
    · next hatEnd =>
      have hlt : i.1 < s.rawEndPos.1 := by
        have hnot : ¬ s.rawEndPos ≤ i := by simpa using hatEnd
        exact Nat.lt_of_not_le hnot
      have hnext : i.1 < (i.next s).1 := String.Pos.Raw.lt_next s i
      rw [hget]
      simp only [hend, if_true]
      split
      · next heq =>
        have hback : (i.next s).unoffsetBy ((0 : String.Pos.Raw).next "\n") = i := by
          have hc : i.get s = '\n' := by simpa using heq
          rw [hone, String.Pos.Raw.next, hc]
          rfl
        rw [hback]
        exact ih _ (by omega) _ _ _ rfl
      · have hzero : i.unoffsetBy 0 = i := rfl
        rw [hzero]
        exact ih _ (by omega) _ _ _ rfl

theorem splitOn_newline (s : String) :
    s.splitOn "\n" = (s.toList.splitOn '\n').map String.ofList := by
  have hloop : s.splitOn "\n" = s.splitToList (· == '\n') := by
    rw [String.splitOn, if_neg (by decide), splitOnAux_newline]
    rfl
  rw [hloop, String.splitToList_of_valid]
  rfl

end Lines
