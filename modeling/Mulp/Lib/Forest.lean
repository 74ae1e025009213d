import Mathlib.Data.List.Nodup
import Mathlib.Tactic.SplitIfs

/-! Forests of named nodes, in the order of the siblings, and walks through them.

A path leads from a root down to a node, by the names on the way. -/

inductive Forest (α : Type) where
  | nil
  | leaf (name : α) (rest : Forest α)
  | node (name : α) (children rest : Forest α)

namespace Forest

variable {α : Type}

/-- The names of the roots. -/
def names : Forest α → List α
  | nil => []
  | leaf name rest => name :: rest.names
  | node name _ rest => name :: rest.names

/-- The paths to all nodes, each before those below it. -/
def paths : Forest α → List (List α)
  | nil => []
  | leaf name rest => [name] :: rest.paths
  | node name children rest => [name] :: (children.paths.map (name :: ·) ++ rest.paths)

/-- No two siblings have the same name, and so no two entries of the forest have the same path. -/
def Distinct : Forest α → Prop
  | nil => True
  | leaf name rest => name ∉ rest.names ∧ rest.Distinct
  | node name children rest => name ∉ rest.names ∧ children.Distinct ∧ rest.Distinct

/-- A walk that lists the paths below a place as far as they fit. The first one that does not
ends it; nodes are opened down to a depth. -/
def visit (fits : List α → Bool) (depth : Nat) (place : List α) : Forest α → Bool × List (List α)
  | nil => (true, [])
  | leaf name rest =>
      if fits (place ++ [name]) then
        let next := visit fits depth place rest
        (next.1, (place ++ [name]) :: next.2)
      else (false, [])
  | node name children rest =>
      if fits (place ++ [name]) then
        let inside :=
          match depth with
          | 0 => (true, [])
          | depth + 1 => visit fits depth (place ++ [name]) children
        if inside.1 then
          let next := visit fits depth place rest
          (next.1, (place ++ [name]) :: (inside.2 ++ next.2))
        else (false, (place ++ [name]) :: inside.2)
      else (false, [])

/-! ## Paths -/

theorem ne_nil_of_mem_paths {f : Forest α} {path : List α} (h : path ∈ f.paths) : path ≠ [] := by
  induction f generalizing path with
  | nil => cases h
  | leaf name rest ih =>
      rcases List.mem_cons.mp h with rfl | h
      · exact List.cons_ne_nil _ _
      · exact ih h
  | node name children rest ihc ihr =>
      rcases List.mem_cons.mp h with rfl | h
      · exact List.cons_ne_nil _ _
      · rcases List.mem_append.mp h with h | h
        · obtain ⟨below, -, rfl⟩ := List.mem_map.mp h
          exact List.cons_ne_nil _ _
        · exact ihr h

/-- A path begins at a root. -/
theorem mem_names_of_cons {f : Forest α} {name : α} {path : List α} (h : name :: path ∈ f.paths) :
    name ∈ f.names := by
  induction f with
  | nil => cases h
  | leaf first rest ih =>
      rcases List.mem_cons.mp h with heq | h
      · obtain ⟨rfl, -⟩ := List.cons.inj heq
        exact List.mem_cons_self
      · exact List.mem_cons_of_mem _ (ih h)
  | node first children rest ihc ihr =>
      rcases List.mem_cons.mp h with heq | h
      · obtain ⟨rfl, -⟩ := List.cons.inj heq
        exact List.mem_cons_self
      · rcases List.mem_append.mp h with h | h
        · obtain ⟨below, -, heq⟩ := List.mem_map.mp h
          obtain ⟨rfl, -⟩ := List.cons.inj heq
          exact List.mem_cons_self
        · exact List.mem_cons_of_mem _ (ihr h)

theorem nodup_paths {f : Forest α} (h : f.Distinct) : f.paths.Nodup := by
  induction f with
  | nil => exact List.nodup_nil
  | leaf name rest ih =>
      obtain ⟨hname, hrest⟩ := h
      rw [paths, List.nodup_cons]
      exact ⟨fun hmem => hname (mem_names_of_cons hmem), ih hrest⟩
  | node name children rest ihc ihr =>
      obtain ⟨hname, hchildren, hrest⟩ := h
      have hbelow : (children.paths.map (name :: ·)).Nodup :=
        (ihc hchildren).map fun _ _ heq => (List.cons.inj heq).2
      rw [paths, List.nodup_cons, List.nodup_append]
      refine ⟨fun hmem => ?_, hbelow, ihr hrest, ?_⟩
      · rcases List.mem_append.mp hmem with hmem | hmem
        · obtain ⟨below, hmem, heq⟩ := List.mem_map.mp hmem
          exact ne_nil_of_mem_paths hmem (List.cons.inj heq).2
        · exact hname (mem_names_of_cons hmem)
      · rintro _ hmem _ hother rfl
        obtain ⟨below, -, rfl⟩ := List.mem_map.mp hmem
        exact hname (mem_names_of_cons hother)

/-! ## Walks -/

section Visit

variable {fits : List α → Bool} {depth : Nat} {place : List α}

/-- A node that is not opened. -/
theorem visit_node_zero (name : α) (children rest : Forest α) :
    visit fits 0 place (node name children rest) =
      if fits (place ++ [name]) then
        ((visit fits 0 place rest).1, (place ++ [name]) :: (visit fits 0 place rest).2)
      else (false, []) := rfl

/-- A node that is opened. -/
theorem visit_node_succ (name : α) (children rest : Forest α) :
    visit fits (depth + 1) place (node name children rest) =
      if fits (place ++ [name]) then
        let inside := visit fits depth (place ++ [name]) children
        if inside.1 then
          let next := visit fits (depth + 1) place rest
          (next.1, (place ++ [name]) :: (inside.2 ++ next.2))
        else (false, (place ++ [name]) :: inside.2)
      else (false, []) := rfl

/-- The paths of a node's children, from the place on. -/
theorem map_below (place : List α) (name : α) (l : List (List α)) :
    (l.map (name :: ·)).map (place ++ ·) = l.map ((place ++ [name]) ++ ·) := by
  simp

/-- The walk leaves out paths, and keeps the order of the others. -/
theorem visit_sublist (f : Forest α) :
    List.Sublist (visit fits depth place f).2 (f.paths.map (place ++ ·)) := by
  induction f generalizing depth place with
  | nil => exact .slnil
  | leaf name rest ih =>
      rw [visit, paths, List.map_cons]
      split_ifs
      · exact ih.cons_cons _
      · exact List.nil_sublist _
  | node name children rest ihc ihr =>
      rw [paths, List.map_cons, List.map_append, map_below]
      cases depth with
      | zero =>
          rw [visit_node_zero]
          split_ifs
          · exact (ihr.trans (List.sublist_append_right _ _)).cons_cons _
          · exact List.nil_sublist _
      | succ depth =>
          rw [visit_node_succ]
          dsimp only
          split_ifs
          · exact (ihc.append ihr).cons_cons _
          · exact (ihc.trans (List.sublist_append_left _ _)).cons_cons _
          · exact List.nil_sublist _

/-- Where everything fits, nothing is left out. -/
theorem visit_of_fits {f : Forest α}
    (h : ∀ path ∈ f.paths, fits (place ++ path) = true ∧ path.length ≤ depth + 1) :
    visit fits depth place f = (true, f.paths.map (place ++ ·)) := by
  induction f generalizing depth place with
  | nil => rfl
  | leaf name rest ih =>
      rw [paths, List.forall_mem_cons] at h
      rw [visit, if_pos h.1.1, ih h.2]
      rfl
  | node name children rest ihc ihr =>
      rw [paths, List.forall_mem_cons, List.forall_mem_append] at h
      obtain ⟨⟨hfits, -⟩, hchildren, hrest⟩ := h
      rw [List.forall_mem_map] at hchildren
      rw [paths, List.map_cons, List.map_append, map_below]
      cases depth with
      | zero =>
          have hnil : children.paths = [] := by
            rw [List.eq_nil_iff_forall_not_mem]
            intro below hbelow
            have hlength := (hchildren below hbelow).2
            have hne := List.length_pos_of_ne_nil (ne_nil_of_mem_paths hbelow)
            rw [List.length_cons] at hlength
            omega
          rw [visit_node_zero, if_pos hfits, ihr hrest, hnil]
          rfl
      | succ depth =>
          have hbelow : visit fits depth (place ++ [name]) children =
              (true, children.paths.map ((place ++ [name]) ++ ·)) := by
            apply ihc
            intro below hmem
            obtain ⟨hfits', hlength⟩ := hchildren below hmem
            rw [List.append_assoc]
            rw [List.length_cons] at hlength
            exact ⟨hfits', by omega⟩
          rw [visit_node_succ, if_pos hfits, hbelow, ihr hrest]
          rfl

/-- Two parts that are left out of two others come to them only if nothing is left out. -/
theorem eq_of_append_sublist {β : Type} {l₁ l₂ m₁ m₂ : List β} (h₁ : l₁.Sublist m₁)
    (h₂ : l₂.Sublist m₂) (h : l₁ ++ l₂ = m₁ ++ m₂) : l₁ = m₁ ∧ l₂ = m₂ := by
  have hlength := congrArg List.length h
  rw [List.length_append, List.length_append] at hlength
  have hle₁ := h₁.length_le
  have hle₂ := h₂.length_le
  exact ⟨h₁.eq_of_length (by omega), h₂.eq_of_length (by omega)⟩

/-- Where nothing is left out, everything fits. -/
theorem fits_of_visit {f : Forest α} (h : (visit fits depth place f).2 = f.paths.map (place ++ ·)) :
    ∀ path ∈ f.paths, fits (place ++ path) = true ∧ path.length ≤ depth + 1 := by
  induction f generalizing depth place with
  | nil => nofun
  | leaf name rest ih =>
      rw [visit, paths, List.map_cons] at h
      rw [paths, List.forall_mem_cons]
      split_ifs at h with hfits
      exact ⟨⟨hfits, Nat.le_add_left _ _⟩, ih (List.cons.inj h).2⟩
  | node name children rest ihc ihr =>
      rw [paths, List.map_cons, List.map_append, map_below] at h
      rw [paths, List.forall_mem_cons, List.forall_mem_append, List.forall_mem_map]
      cases depth with
      | zero =>
          rw [visit_node_zero] at h
          split_ifs at h with hfits
          obtain ⟨hinside, hnext⟩ :=
            eq_of_append_sublist (List.nil_sublist _) (visit_sublist rest) (List.cons.inj h).2
          rw [eq_comm, List.map_eq_nil_iff] at hinside
          rw [hinside]
          exact ⟨⟨hfits, Nat.le_add_left _ _⟩, nofun, ihr hnext⟩
      | succ depth =>
          rw [visit_node_succ] at h
          split_ifs at h with hfits
          refine ⟨⟨hfits, Nat.le_add_left _ _⟩, ?_⟩
          -- what comes after the children is empty if the walk ends among them
          have hparts : (visit fits depth (place ++ [name]) children).2 =
              children.paths.map ((place ++ [name]) ++ ·) ∧ ∀ path ∈ rest.paths,
              fits (place ++ path) = true ∧ path.length ≤ depth + 1 + 1 := by
            dsimp only at h
            split_ifs at h
            · obtain ⟨hinside, hnext⟩ := eq_of_append_sublist (visit_sublist children)
                (visit_sublist rest) (List.cons.inj h).2
              exact ⟨hinside, ihr hnext⟩
            · obtain ⟨hinside, hnext⟩ := eq_of_append_sublist (visit_sublist children)
                (List.nil_sublist _) ((List.append_nil _).trans (List.cons.inj h).2)
              rw [eq_comm, List.map_eq_nil_iff] at hnext
              rw [hnext]
              exact ⟨hinside, nofun⟩
          refine ⟨fun below hbelow => ?_, hparts.2⟩
          obtain ⟨hfits', hlength⟩ := ihc hparts.1 below hbelow
          rw [List.append_assoc] at hfits'
          exact ⟨hfits', Nat.succ_le_succ hlength⟩

theorem visit_eq_paths_iff {f : Forest α} :
    (visit fits depth place f).2 = f.paths.map (place ++ ·) ↔
      ∀ path ∈ f.paths, fits (place ++ path) = true ∧ path.length ≤ depth + 1 :=
  ⟨fits_of_visit, fun h => congrArg Prod.snd (visit_of_fits h)⟩

end Visit

end Forest
