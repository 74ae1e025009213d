import Mulp.Chokidar.Late

/-! The listed paths (`get_watched`): a set of children for each directory, kept in order, and
what it says of what the last scans found. -/
namespace Mulp.Chokidar

open Keyed

/-! ## The order of the children -/

section Order

variable {a b c : List UInt16}

theorem compareUnits_cons_le {x y : UInt16} :
    compareUnits (x :: a) (y :: b) ≤ 0 ↔ x < y ∨ x = y ∧ compareUnits a b ≤ 0 := by
  rw [compareUnits]
  split_ifs with hlt hgt
  · simp [hlt]
  · constructor
    · intro h
      exact absurd h (by decide)
    · rintro (h | ⟨rfl, -⟩)
      · exact absurd h hlt
      · exact absurd hgt hlt
  · have heq : x = y := by
      rw [UInt16.lt_iff_toNat_lt, Nat.not_lt] at hlt
      rw [gt_iff_lt, UInt16.lt_iff_toNat_lt, Nat.not_lt] at hgt
      exact UInt16.toNat_inj.mp (Nat.le_antisymm hgt hlt)
    simp [heq]

theorem compareUnits_total (a b : List UInt16) : compareUnits a b ≤ 0 ∨ compareUnits b a ≤ 0 := by
  induction a generalizing b with
  | nil => exact .inl (by simp [compareUnits])
  | cons x a ih =>
      cases b with
      | nil => exact .inl (by simp [compareUnits])
      | cons y b =>
          rw [compareUnits_cons_le, compareUnits_cons_le]
          rcases Nat.lt_trichotomy x.toNat y.toNat with h | h | h
          · exact .inl (.inl (UInt16.lt_iff_toNat_lt.mpr h))
          · have heq := UInt16.toNat_inj.mp h
            rcases ih b with hle | hle
            · exact .inl (.inr ⟨heq, hle⟩)
            · exact .inr (.inr ⟨heq.symm, hle⟩)
          · exact .inr (.inl (UInt16.lt_iff_toNat_lt.mpr h))

/-- Units are compared of strings of one length. -/
theorem compareUnits_trans (hlength : a.length = b.length) (hlength' : b.length = c.length)
    (hab : compareUnits a b ≤ 0) (hbc : compareUnits b c ≤ 0) : compareUnits a c ≤ 0 := by
  induction a generalizing b c with
  | nil => simp [compareUnits]
  | cons x a ih =>
      cases b with
      | nil => cases hlength
      | cons y b =>
          cases c with
          | nil => cases hlength'
          | cons z c =>
              rw [compareUnits_cons_le] at hab hbc ⊢
              rcases hab with hxy | ⟨rfl, hab⟩
              · rcases hbc with hyz | ⟨rfl, -⟩
                · exact .inl (UInt16.lt_trans hxy hyz)
                · exact .inl hxy
              · rcases hbc with hyz | ⟨rfl, hbc⟩
                · exact .inl hyz
                · exact .inr ⟨rfl, ih (Nat.succ.inj hlength) (Nat.succ.inj hlength') hab hbc⟩

theorem compareStrings_le {left right : String} :
    compareStrings left right ≤ 0 ↔ (Text.units left).length < (Text.units right).length ∨
      (Text.units left).length = (Text.units right).length ∧
        compareUnits (Text.units left) (Text.units right) ≤ 0 := by
  unfold compareStrings
  dsimp only
  split_ifs with hlt hgt
  · simp [hlt]
  · constructor
    · intro h
      exact absurd h (by decide)
    · rintro (h | ⟨h, -⟩)
      · exact absurd h hlt
      · omega
  · have heq : (Text.units left).length = (Text.units right).length := by omega
    simp [heq]

end Order

instance : Std.Total fun left right : String => compareStrings left right ≤ 0 := by
  refine ⟨fun left right => ?_⟩
  rw [compareStrings_le, compareStrings_le]
  rcases Nat.lt_trichotomy (Text.units left).length (Text.units right).length with h | h | h
  · exact .inl (.inl h)
  · exact (compareUnits_total (Text.units left) (Text.units right)).imp (fun hle => .inr ⟨h, hle⟩)
      fun hle => .inr ⟨h.symm, hle⟩
  · exact .inr (.inl h)

instance : IsTrans String fun left right => compareStrings left right ≤ 0 := by
  refine ⟨fun left mid right hleft hright => ?_⟩
  rw [compareStrings_le] at hleft hright ⊢
  rcases hleft with hleft | ⟨hleft, hle⟩
  · rcases hright with hright | ⟨hright, -⟩
    · exact .inl (Nat.lt_trans hleft hright)
    · exact .inl (hright ▸ hleft)
  · rcases hright with hright | ⟨hright, hle'⟩
    · exact .inl (hleft ▸ hright)
    · exact .inr ⟨hleft.trans hright, compareUnits_trans hleft hright hle hle'⟩

theorem perm_sortStrings (children : List String) : (sortStrings children).Perm children :=
  List.perm_insertionSort _ children

theorem pairwise_sortStrings (children : List String) :
    (sortStrings children).Pairwise fun left right => compareStrings left right ≤ 0 :=
  List.pairwise_insertionSort (fun left right : String => compareStrings left right ≤ 0) children

/-! ## The table as a set of places -/

/-- A child of a directory: the two texts that an event's path is taken apart into. Two paths may
have one place, such as one with a slash more. -/
structure Place where
  dir : String
  child : String
  deriving DecidableEq

def placeOf (path : String) : Place := ⟨pathDirname path, pathBasename path⟩

/-- What is listed of a directory: something, each child once, in order. The directory's entry is
dropped with its last child, so there is none without children. -/
structure DirEntry.Proper (entry : DirEntry) : Prop where
  ne_nil : entry.children ≠ []
  nodup : entry.children.Nodup
  sorted : entry.children.Pairwise fun left right => compareStrings left right ≤ 0

namespace Dirs

structure Proper (dirs : Dirs) : Prop where
  distinct : Distinct DirEntry.path dirs
  entries : ∀ entry ∈ dirs, entry.Proper

/-- The child is listed in some entry of the directory; there is one only where the directories are
distinct, but what is said of listing does not need that. -/
def Lists (dirs : Dirs) (place : Place) : Prop :=
  ∃ entry ∈ dirs, entry.path = place.dir ∧ place.child ∈ entry.children

variable {dirs : Dirs} {entry : DirEntry} {dir child : String} {place : Place}

theorem proper_nil : Proper [] := ⟨List.nodup_nil, by simp⟩

theorem not_lists_nil : ¬ Lists [] place := by
  rintro ⟨entry, hentry, -⟩
  cases hentry

theorem lists_cons : Lists (entry :: dirs) place ↔
    entry.path = place.dir ∧ place.child ∈ entry.children ∨ Lists dirs place := by
  unfold Lists
  rw [List.exists_mem_cons_iff]

theorem proper_cons : Proper (entry :: dirs) ↔
    entry.path ∉ dirs.map DirEntry.path ∧ entry.Proper ∧ Proper dirs := by
  constructor
  · rintro ⟨hdistinct, hentries⟩
    obtain ⟨hnew, hrest⟩ := List.nodup_cons.mp hdistinct
    exact ⟨hnew, hentries entry List.mem_cons_self, hrest,
      fun other hother => hentries other (List.mem_cons_of_mem entry hother)⟩
  · rintro ⟨hnew, hentry, hdirs⟩
    exact ⟨List.nodup_cons.mpr ⟨hnew, hdirs.distinct⟩, List.forall_mem_cons.mpr ⟨hentry, hdirs.entries⟩⟩

/-- Nothing is listed of a directory that is not there. -/
theorem not_lists_of_not_mem (h : dir ∉ dirs.map DirEntry.path) : ¬ Lists dirs ⟨dir, child⟩ := by
  rintro ⟨entry, hentry, rfl, -⟩
  exact h (List.mem_map_of_mem hentry)

theorem map_path_addChild (dirs : Dirs) (dir child path : String) :
    path ∈ (dirs.addChild dir child).map DirEntry.path ↔
      path = dir ∨ path ∈ dirs.map DirEntry.path := by
  induction dirs with
  | nil => simp [addChild]
  | cons entry dirs ih =>
      unfold addChild
      by_cases hdir : entry.path = dir
      · rw [if_pos hdir]
        split_ifs <;> simp [hdir]
      · rw [if_neg hdir, List.map_cons, List.mem_cons, ih, List.map_cons, List.mem_cons]
        tauto

theorem proper_sortStrings {children : List String} (h : children.Nodup) (hne : children ≠ []) :
    DirEntry.Proper ⟨dir, sortStrings children⟩ where
  ne_nil := by
    intro hnil
    have hperm := perm_sortStrings children
    rw [show sortStrings children = [] from hnil] at hperm
    exact hne (List.nil_perm.mp hperm)
  nodup := (perm_sortStrings children).nodup_iff.mpr h
  sorted := pairwise_sortStrings children

theorem Proper.addChild (h : Proper dirs) (dir child : String) : Proper (dirs.addChild dir child) := by
  induction dirs with
  | nil =>
      exact proper_cons.mpr ⟨by simp, proper_sortStrings (by simp) (by simp), proper_nil⟩
  | cons entry dirs ih =>
      obtain ⟨hnew, hentry, hdirs⟩ := proper_cons.mp h
      unfold Dirs.addChild
      by_cases hdir : entry.path = dir
      · rw [if_pos hdir]
        split_ifs with hmem
        · exact h
        · refine proper_cons.mpr ⟨hnew, proper_sortStrings ?_ (by simp), hdirs⟩
          exact hentry.nodup.append (List.nodup_singleton child) (by simpa using hmem)
      · rw [if_neg hdir]
        refine proper_cons.mpr ⟨?_, hentry, ih hdirs⟩
        rw [map_path_addChild]
        rintro (heq | hmem)
        · exact hdir heq
        · exact hnew hmem

theorem lists_addChild : Lists (dirs.addChild dir child) place ↔ place = ⟨dir, child⟩ ∨ Lists dirs place := by
  cases place with
  | mk place name =>
      rw [Place.mk.injEq]
      induction dirs with
      | nil =>
          have hsorted : sortStrings [child] = [child] := rfl
          unfold addChild
          rw [lists_cons, hsorted, List.mem_singleton]
          simp only [not_lists_nil, or_false, eq_comm]
      | cons entry dirs ih =>
          unfold addChild
          by_cases hdir : entry.path = dir
          · rw [if_pos hdir, lists_cons, lists_cons]
            split_ifs with hmem
            · grind
            · rw [(perm_sortStrings _).mem_iff]
              grind
          · rw [if_neg hdir, lists_cons, lists_cons, ih]
            tauto

theorem sublist_removeChild (dirs : Dirs) (dir child : String) :
    ((dirs.removeChild dir child).map DirEntry.path).Sublist (dirs.map DirEntry.path) := by
  induction dirs with
  | nil => exact List.Sublist.refl []
  | cons entry dirs ih =>
      unfold removeChild
      dsimp only
      split_ifs
      · exact List.sublist_cons_self ..
      · exact List.Sublist.refl _
      · exact ih.cons_cons entry.path

theorem Proper.removeChild (h : Proper dirs) (dir child : String) :
    Proper (dirs.removeChild dir child) := by
  induction dirs with
  | nil => exact h
  | cons entry dirs ih =>
      obtain ⟨hnew, hentry, hdirs⟩ := proper_cons.mp h
      unfold Dirs.removeChild
      dsimp only
      split_ifs with hdir hempty
      · exact hdirs
      · refine proper_cons.mpr ⟨hnew, ⟨?_, hentry.nodup.filter _, hentry.sorted.filter _⟩, hdirs⟩
        simpa using hempty
      · refine proper_cons.mpr ⟨?_, hentry, ih hdirs⟩
        exact fun hmem => hnew ((sublist_removeChild dirs dir child).subset hmem)

theorem lists_removeChild (h : Proper dirs) :
    Lists (dirs.removeChild dir child) place ↔ place ≠ ⟨dir, child⟩ ∧ Lists dirs place := by
  cases place with
  | mk place name =>
      rw [ne_eq, Place.mk.injEq]
      induction dirs with
      | nil => simp [removeChild, not_lists_nil]
      | cons entry dirs ih =>
          obtain ⟨hnew, -, hdirs⟩ := proper_cons.mp h
          unfold removeChild
          dsimp only
          by_cases hdir : entry.path = dir
          · -- the directory is listed once
            have hrest : Lists dirs ⟨place, name⟩ → place ≠ dir := by
              rintro hlists rfl
              exact not_lists_of_not_mem (hdir ▸ hnew) hlists
            rw [if_pos hdir, lists_cons]
            split_ifs with hempty
            · rw [List.isEmpty_iff, List.filter_eq_nil_iff] at hempty
              have hall : ∀ other ∈ entry.children, other = child := by simpa using hempty
              grind
            · rw [lists_cons]
              simp only [List.mem_filter, decide_eq_true_eq]
              grind
          · rw [if_neg hdir, lists_cons, lists_cons, ih hdirs]
            grind

theorem getWatched_eq (h : Proper dirs) (dir : String) :
    dirs.getWatched dir = (lookup DirEntry.path dir dirs).map DirEntry.children := by
  have hfold (watched : String → Option (List String)) :
      dirs.foldl (fun (watched : String → Option (List String)) (entry : DirEntry) =>
        Function.update watched entry.path (some entry.children)) watched dir = ((lookup DirEntry.path dir dirs).map DirEntry.children).or (watched dir) := by
    induction dirs generalizing watched with
    | nil => rfl
    | cons entry dirs ih =>
        obtain ⟨hnew, -, hdirs⟩ := proper_cons.mp h
        rw [List.foldl_cons, ih hdirs, lookup_cons]
        by_cases hdir : entry.path = dir
        · have hnone : lookup DirEntry.path dir dirs = none := by
            rw [lookup_eq_none_iff]
            rintro other hother rfl
            exact hnew (hdir ▸ List.mem_map_of_mem hother)
          rw [if_pos hdir, hnone, hdir, Function.update_self]
          rfl
        · rw [if_neg hdir, Function.update_of_ne (Ne.symm hdir)]
  rw [getWatched, hfold, Option.or_none]

/-- What `get_watched` gives for a directory is what is listed of it. -/
theorem getWatched_spec (h : Proper dirs) {children : List String}
    (hchildren : dirs.getWatched dir = some children) :
    children ≠ [] ∧ children.Nodup ∧
      children.Pairwise (fun left right => compareStrings left right ≤ 0) ∧
      ∀ child, child ∈ children ↔ Lists dirs ⟨dir, child⟩ := by
  rw [getWatched_eq h, Option.map_eq_some_iff] at hchildren
  obtain ⟨entry, hentry, rfl⟩ := hchildren
  obtain ⟨hmem, rfl⟩ := lookup_eq_some hentry
  obtain ⟨hne, hnodup, hsorted⟩ := h.entries entry hmem
  refine ⟨hne, hnodup, hsorted, fun child => ⟨fun hchild => ⟨entry, hmem, rfl, hchild⟩, ?_⟩⟩
  rintro ⟨other, hother, hpath, hchild⟩
  have hsame := h.distinct.lookup_mem hother
  rw [hpath, hentry] at hsame
  rwa [Option.some.inj hsame]

theorem exists_getWatched (h : Proper dirs) (hlists : Lists dirs ⟨dir, child⟩) :
    ∃ children, dirs.getWatched dir = some children ∧ child ∈ children := by
  obtain ⟨entry, hentry, rfl, hchild⟩ := hlists
  refine ⟨entry.children, ?_, hchild⟩
  rw [getWatched_eq h, h.distinct.lookup_mem hentry, Option.map_some]

end Dirs

end Mulp.Chokidar
