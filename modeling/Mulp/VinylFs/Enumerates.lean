import Mulp.VinylFs.Walk

/-! A tree of entries, and what the native walk lists of it (`vinyl_fs/vinyl_fs_stub.c`,
`vinyl_fs/src.mbt`).

The walk writes one line for each entry into a buffer of bytes, and the lines are split
again. What can go wrong is told by the bytes: a name with a line feed, a path that is
too long, more directories than can be open, and a buffer that is full. -/
namespace Mulp.VinylFs.Native

open Mulp.Text Mulp.Platform

/-! ## Trees and their paths -/

/-- What is below a directory: files, symbolic links and the like are leaves. -/
structure Tree where
  entries : Forest String
  named : ∀ names ∈ entries.paths, ∀ name ∈ names, IsName name ∧ '\x00' ∉ name.toList
  distinct : entries.Distinct

def nameBytes (name : String) : List UInt8 := Utf8.encode name.toList

/-- The path of an entry below the root, as `child_rel`. -/
def relBytes (names : List String) : List UInt8 := nameBytes (joinSlash names)

/-- The path of an entry, as `child_abs`, or that of the root. -/
def absBytes (root : List UInt8) (names : List String) : List UInt8 :=
  if names = [] then root else root ++ separator root ++ relBytes names

/-- The root as the native call reads it. -/
def nativeRoot (root : String) : List UInt8 := cBytes (nameBytes root)

/-- The bytes of all paths, each with a line feed. -/
def Tree.size (tree : Tree) : Nat :=
  (tree.entries.paths.map fun names => (relBytes names).length + 1).sum

namespace System

variable (s : System)

/-- The path fits `PATH_MAX`. -/
def Fits (root : List UInt8) (names : List String) : Prop :=
  (absBytes root names).length < s.pathMax

instance (root : List UInt8) (names : List String) : Decidable (s.Fits root names) :=
  Nat.decLt _ _

/-- The directory at the path has the entries, beside itself and its parent, in the order that the
system has for them. -/
def Lists (path : List UInt8) (names : List String) : Prop :=
  ∃ listed, s.opendir path = some listed ∧
    (listed.filter fun name => ¬ (name = [dot] ∨ name = [dot, dot])) = names.map nameBytes

/-- The system shows the entries of a directory, as far as their paths fit. -/
def ShowsBelow (root : List UInt8) (place : List String) : Forest String → Prop
  | .nil => True
  | .leaf name rest =>
      (s.Fits root (place ++ [name]) →
        s.lstat (absBytes root (place ++ [name])) ≠ some .directory) ∧
        ShowsBelow root place rest
  | .node name children rest =>
      (s.Fits root (place ++ [name]) →
        s.lstat (absBytes root (place ++ [name])) = some .directory ∧
          s.Lists (absBytes root (place ++ [name])) children.names) ∧
        ShowsBelow root (place ++ [name]) children ∧ ShowsBelow root place rest

/-- The system shows the tree at the root. Of paths that do not fit it shows nothing, as it cannot
be asked for them. -/
def Shows (root : List UInt8) (tree : Tree) : Prop :=
  (s.Fits root [] → s.Lists root tree.entries.names) ∧ s.ShowsBelow root [] tree.entries

/-- The list of `discovered_paths` has the path of each entry once, and nothing else. -/
def Enumerates (root : String) (tree : Tree) : Prop :=
  ∃ found, discoveredPaths s root = .ok found ∧ found.Nodup ∧
    ∀ path, path ∈ found ↔ ∃ names ∈ tree.entries.paths, path = joinSlash names

end System

/-! ## Bytes of names -/

variable {name : String} {place names : List String} {root : List UInt8}

theorem nameBytes_append (first second : String) :
    nameBytes (first ++ second) = nameBytes first ++ nameBytes second := by
  rw [nameBytes, String.toList_append, Utf8.encode_append]
  rfl

theorem nameBytes_injective {first second : String} (h : nameBytes first = nameBytes second) :
    first = second := String.toList_inj.mp (Utf8.encode_injective h)

theorem nameBytes_ne_nil (h : name ≠ "") : nameBytes name ≠ [] :=
  fun hnil => h (nameBytes_injective (hnil.trans rfl))

/-- A name without a slash has no byte of one. -/
theorem slash_not_mem (h : NoSlash name) : slash ∉ nameBytes name := by
  intro hmem
  obtain ⟨c, hc, hbyte⟩ := List.mem_flatMap.mp hmem
  by_cases hascii : c.toNat < 0x80
  · rw [Utf8.utf8EncodeChar_ascii hascii, List.mem_singleton, ← UInt8.toNat_inj,
      UInt8.toNat_ofNat'] at hbyte
    have hslash : slash.toNat = '/'.toNat := rfl
    have hchar : c = '/' := Char.toNat_inj.mp (by omega)
    rw [hchar] at hc
    exact h hc
  · have hhigh := (Utf8.mem_utf8EncodeChar (by omega) hbyte).1
    have hslash : slash.toNat = 0x2F := rfl
    omega

/-- A name is none of the two that are left out. -/
theorem nameBytes_not_dots (h : IsName name) :
    ¬ (nameBytes name = [dot] ∨ nameBytes name = [dot, dot]) := by
  rintro (hdot | hdots)
  · exact h.ne_dot (nameBytes_injective (hdot.trans rfl))
  · exact h.ne_dots (nameBytes_injective (hdots.trans rfl))

theorem relBytes_concat (h : place ≠ []) :
    relBytes (place ++ [name]) = relBytes place ++ [slash] ++ nameBytes name := by
  rw [relBytes, joinSlash_append h (List.cons_ne_nil _ _), joinSlash_singleton, nameBytes_append,
    nameBytes_append]
  rfl

theorem relBytes_singleton : relBytes [name] = nameBytes name := by
  rw [relBytes, joinSlash_singleton]

/-- What is below a path of names is joined to it with a slash. -/
theorem separator_relBytes (hplace : place ≠ []) (h : ∀ name ∈ place, IsName name) :
    separator (relBytes place) = [slash] := by
  obtain ⟨before, last, rfl⟩ := List.eq_nil_or_concat'  place |>.resolve_left hplace
  have hlast := h last (by simp)
  have hne := nameBytes_ne_nil hlast.ne_empty
  have hnot : (relBytes (before ++ [last])).getLast? ≠ some slash := by
    intro hslash
    apply slash_not_mem hlast.noSlash
    cases before with
    | nil =>
        rw [List.nil_append, relBytes_singleton] at hslash
        exact List.mem_of_getLast? hslash
    | cons first before =>
        rw [relBytes_concat (List.cons_ne_nil _ _), List.getLast?_append_of_ne_nil _ hne] at hslash
        exact List.mem_of_getLast? hslash
  rw [separator, if_neg hnot]

theorem relBytes_eq_nil (h : ∀ name ∈ names, IsName name) : relBytes names = [] ↔ names = [] := by
  rw [← joinSlash_eq_empty fun name hname => (h name hname).ne_empty]
  constructor
  · intro hnil
    exact nameBytes_injective (hnil.trans rfl)
  · intro hempty
    rw [relBytes, hempty]
    rfl

theorem absBytes_of_ne_nil (h : names ≠ []) :
    absBytes root names = root ++ separator root ++ relBytes names := if_neg h

/-- A path is longer than its part below the root. -/
theorem relBytes_lt (h : names ≠ []) : (relBytes names).length < (absBytes root names).length := by
  have hroot : 0 < (root ++ separator root).length := by
    cases root with
    | nil => decide
    | cons b rest => simp
  rw [absBytes_of_ne_nil h, List.length_append]
  omega

theorem le_absBytes : root.length ≤ (absBytes root names).length := by
  unfold absBytes
  split_ifs
  · exact Nat.le_refl _
  · simp only [List.length_append]
    omega

/-! ## The paths of an entry -/

section Paths

variable {s : System}

theorem dirPath_eq (hplace : ∀ name ∈ place, IsName name) (hfits : s.Fits root place) :
    dirPath s root (relBytes place) = some (absBytes root place) := by
  rw [System.Fits] at hfits
  unfold dirPath
  by_cases hnil : place = []
  · subst hnil
    exact (if_pos rfl).trans (if_pos hfits)
  · rw [if_neg (mt (relBytes_eq_nil hplace).mp hnil), join]
    rw [absBytes_of_ne_nil hnil] at hfits ⊢
    exact if_pos hfits

theorem childRel_eq (hplace : ∀ name ∈ place, IsName name) :
    childRel s (relBytes place) (nameBytes name) =
      if (relBytes (place ++ [name])).length < s.pathMax then some (relBytes (place ++ [name]))
      else none := by
  unfold childRel
  by_cases hnil : place = []
  · subst hnil
    rw [List.nil_append, relBytes_singleton]
    exact if_pos rfl
  · rw [if_neg (mt (relBytes_eq_nil hplace).mp hnil), join, separator_relBytes hnil hplace,
      relBytes_concat hnil]

/-- Both paths of an entry fit if the longer one does. -/
theorem childPaths_eq (hplace : ∀ name ∈ place, IsName name) :
    childPaths s root (relBytes place) (nameBytes name) =
      if s.Fits root (place ++ [name]) then
        some (relBytes (place ++ [name]), absBytes root (place ++ [name]))
      else none := by
  have hne : place ++ [name] ≠ [] := List.append_ne_nil_of_right_ne_nil _ (List.cons_ne_nil _ _)
  have hlt := @relBytes_lt _ root hne
  rw [childPaths, childRel_eq hplace]
  by_cases hfits : s.Fits root (place ++ [name])
  · rw [if_pos (hlt.trans hfits), if_pos hfits]
    rw [System.Fits, absBytes_of_ne_nil hne] at hfits
    rw [absBytes_of_ne_nil hne]
    show (join s.pathMax root _).bind _ = _
    rw [join, if_pos hfits]
    rfl
  · rw [if_neg hfits]
    rw [System.Fits, absBytes_of_ne_nil hne] at hfits
    split_ifs
    · show (join s.pathMax root _).bind _ = _
      rw [join, if_neg hfits]
      rfl
    · rfl

end Paths

/-! ## The walk through a tree -/

/-- What the buffer holds of the entries: a line for each, with its relative path. -/
def lines (found : List (List String)) : List UInt8 :=
  found.flatMap fun names => relBytes names ++ [lineFeed]

/-- Where the walk comes, among the entries of a directory at the place. -/
def visited (s : System) (root : List UInt8) (depth : Nat) (place : List String)
    (entries : Forest String) : Bool × List (List String) :=
  entries.visit (fun names => s.Fits root names) depth place

theorem lines_cons (found : List (List String)) :
    lines (names :: found) = relBytes names ++ [lineFeed] ++ lines found := List.flatMap_cons

theorem lines_append (found more : List (List String)) :
    lines (found ++ more) = lines found ++ lines more := List.flatMap_append

section Visited

variable {s : System} {depth : Nat} {children rest : Forest String}

theorem visited_leaf (hfits : s.Fits root (place ++ [name])) :
    visited s root depth place (.leaf name rest) = ((visited s root depth place rest).1,
      (place ++ [name]) :: (visited s root depth place rest).2) := if_pos (decide_eq_true hfits)

theorem visited_leaf_stop (hfits : ¬ s.Fits root (place ++ [name])) :
    visited s root depth place (.leaf name rest) = (false, []) := if_neg (by simpa using hfits)

theorem visited_zero (hfits : s.Fits root (place ++ [name])) :
    visited s root 0 place (.node name children rest) = ((visited s root 0 place rest).1,
      (place ++ [name]) :: (visited s root 0 place rest).2) := if_pos (decide_eq_true hfits)

theorem visited_succ (hfits : s.Fits root (place ++ [name])) :
    visited s root (depth + 1) place (.node name children rest) =
      let inside := visited s root depth (place ++ [name]) children
      if inside.1 then
        let next := visited s root (depth + 1) place rest
        (next.1, (place ++ [name]) :: (inside.2 ++ next.2))
      else (false, (place ++ [name]) :: inside.2) := if_pos (decide_eq_true hfits)

theorem visited_node_stop (hfits : ¬ s.Fits root (place ++ [name])) :
    visited s root depth place (.node name children rest) = (false, []) := by
  cases depth <;> exact if_neg (by simpa using hfits)

theorem map_nil_append (paths : List (List String)) : paths.map ([] ++ ·) = paths :=
  List.map_id paths

theorem visited_sublist (entries : Forest String) :
    (visited s root depth [] entries).2.Sublist entries.paths := by
  rw [← map_nil_append entries.paths]
  exact entries.visit_sublist

theorem visited_eq_paths_iff {entries : Forest String} :
    (visited s root depth [] entries).2 = entries.paths ↔
      ∀ names ∈ entries.paths, s.Fits root names ∧ names.length ≤ depth + 1 := by
  have hiff : (visited s root depth [] entries).2 = entries.paths.map ([] ++ ·) ↔ _ :=
    Forest.visit_eq_paths_iff
  rw [map_nil_append] at hiff
  simpa using hiff

end Visited

section Visit

variable {s : System} (hgrant : ∀ size, s.realloc size = true)
include hgrant

/-- The turn for an entry whose paths fit. -/
theorem walkEntries_entry (hplace : ∀ name ∈ place, IsName name) (hname : IsName name)
    (hfits : s.Fits root (place ++ [name])) (walk : List UInt8 → Buffer → Bool × Buffer)
    (names : List (List UInt8)) (buffer : Buffer) :
    ∃ next, next.data = buffer.data ++ (relBytes (place ++ [name]) ++ [lineFeed]) ∧
      ∀ ok after, (if s.lstat (absBytes root (place ++ [name])) = some .directory then
          walk (relBytes (place ++ [name])) next else (true, next)) = (ok, after) →
        walkEntries s root (relBytes place) walk (nameBytes name :: names) buffer =
          if ok then walkEntries s root (relBytes place) walk names after else (false, after) := by
  obtain ⟨next, hnext, hdata⟩ := appendLine_granted hgrant buffer (relBytes (place ++ [name]))
  refine ⟨next, hdata, fun ok after hwalk => ?_⟩
  rw [walkEntries, if_neg (nameBytes_not_dots hname), childPaths_eq hplace, if_pos hfits]
  dsimp only
  rw [hnext]
  dsimp only
  rw [hwalk]
  cases ok <;> rfl

omit hgrant in
/-- The turn for an entry with a path that does not fit. -/
theorem walkEntries_stop (hplace : ∀ name ∈ place, IsName name) (hname : IsName name)
    (hfits : ¬ s.Fits root (place ++ [name])) (walk : List UInt8 → Buffer → Bool × Buffer)
    (names : List (List UInt8)) (buffer : Buffer) :
    walkEntries s root (relBytes place) walk (nameBytes name :: names) buffer =
      (false, buffer) := by
  rw [walkEntries, if_neg (nameBytes_not_dots hname), childPaths_eq hplace, if_neg hfits]

omit hgrant in
/-- A directory that cannot be opened. -/
theorem walk_zero (hplace : ∀ name ∈ place, IsName name) (hfits : s.Fits root place)
    (buffer : Buffer) : walk s root 0 (relBytes place) buffer = (true, buffer) := by
  rw [walk, dirPath_eq hplace hfits]

omit hgrant in
/-- A directory that is opened. -/
theorem walk_succ (hplace : ∀ name ∈ place, IsName name) (hfits : s.Fits root place)
    (hlists : s.Lists (absBytes root place) names) (depth : Nat) (buffer : Buffer) :
    walk s root (depth + 1) (relBytes place) buffer =
      walkEntries s root (relBytes place) (walk s root depth) (names.map nameBytes) buffer := by
  obtain ⟨listed, hopendir, hlisted⟩ := hlists
  rw [walk, dirPath_eq hplace hfits]
  dsimp only
  rw [hopendir]
  dsimp only
  rw [walkEntries_filter, hlisted]

/-- The walk comes where a walk through the forest does. -/
theorem walkEntries_visited {entries : Forest String} {depth : Nat}
    (hnamed : ∀ names ∈ entries.paths, ∀ name ∈ names, IsName name)
    (hplace : ∀ name ∈ place, IsName name) (hshows : s.ShowsBelow root place entries)
    (buffer : Buffer) :
    ∃ after, walkEntries s root (relBytes place) (walk s root depth)
        (entries.names.map nameBytes) buffer = ((visited s root depth place entries).1, after) ∧
      after.data = buffer.data ++ lines (visited s root depth place entries).2 := by
  induction entries generalizing depth place buffer with
  | nil => exact ⟨buffer, rfl, (List.append_nil _).symm⟩
  | leaf name rest ih =>
      obtain ⟨hleaf, hrest⟩ := hshows
      rw [Forest.paths, List.forall_mem_cons, List.forall_mem_singleton] at hnamed
      rw [Forest.names, List.map_cons]
      by_cases hfits : s.Fits root (place ++ [name])
      · obtain ⟨next, hdata, hturn⟩ := walkEntries_entry hgrant hplace hnamed.1 hfits
          (walk s root depth) (rest.names.map nameBytes) buffer
        obtain ⟨after, hafter, hdata'⟩ := ih hnamed.2 hplace hrest next
        refine ⟨after, ?_, ?_⟩
        · rw [hturn true next (if_neg (hleaf hfits)), visited_leaf hfits]
          exact hafter
        · rw [hdata', hdata, visited_leaf hfits, lines_cons]
          simp only [List.append_assoc]
      · refine ⟨buffer, ?_, ?_⟩
        · rw [walkEntries_stop hplace hnamed.1 hfits, visited_leaf_stop hfits]
        · rw [visited_leaf_stop hfits]
          exact (List.append_nil _).symm
  | node name children rest ihc ihr =>
      obtain ⟨hnode, hbelow, hrest⟩ := hshows
      rw [Forest.paths, List.forall_mem_cons, List.forall_mem_singleton, List.forall_mem_append,
        List.forall_mem_map] at hnamed
      obtain ⟨hname, hchildren, hothers⟩ := hnamed
      have hplace' : ∀ other ∈ place ++ [name], IsName other := by
        rw [List.forall_mem_append, List.forall_mem_singleton]
        exact ⟨hplace, hname⟩
      rw [Forest.names, List.map_cons]
      by_cases hfits : s.Fits root (place ++ [name])
      · obtain ⟨hdirectory, hlists⟩ := hnode hfits
        obtain ⟨next, hdata, hturn⟩ := walkEntries_entry hgrant hplace hname hfits
          (walk s root depth) (rest.names.map nameBytes) buffer
        rw [if_pos hdirectory] at hturn
        cases depth with
        | zero =>
            obtain ⟨after, hafter, hdata'⟩ := ihr hothers hplace hrest next
            refine ⟨after, ?_, ?_⟩
            · rw [hturn true next (walk_zero hplace' hfits next), visited_zero hfits]
              exact hafter
            · rw [hdata', hdata, visited_zero hfits, lines_cons]
              simp only [List.append_assoc]
        | succ depth =>
            have hinside : ∀ names ∈ children.paths, ∀ other ∈ names, IsName other :=
              fun names hnames other hother =>
                hchildren names hnames other (List.mem_cons_of_mem _ hother)
            obtain ⟨between, hbetween, hdata'⟩ := ihc hinside hplace' hbelow next
            rw [walk_succ hplace' hfits hlists, hbetween] at hturn
            have hturn := hturn _ _ rfl
            rw [visited_succ hfits]
            dsimp only
            split_ifs with hflag
            · obtain ⟨after, hafter, hdata''⟩ := ihr hothers hplace hrest between
              rw [if_pos hflag] at hturn
              refine ⟨after, hturn.trans hafter, ?_⟩
              rw [hdata'', hdata', hdata, lines_cons, lines_append]
              simp only [List.append_assoc]
            · -- the walk has ended among the children
              rw [if_neg hflag] at hturn
              refine ⟨between, hturn, ?_⟩
              rw [hdata', hdata, lines_cons]
              simp only [List.append_assoc]
      · refine ⟨buffer, ?_, ?_⟩
        · rw [walkEntries_stop hplace hname hfits, visited_node_stop hfits]
        · rw [visited_node_stop hfits]
          exact (List.append_nil _).symm

end Visit

/-! ## The discovered paths -/

/-- The entries that the walk from the root comes to. -/
def reached (s : System) (root : List UInt8) (entries : Forest String) : List (List String) :=
  if s.Fits root [] then
    match s.openMax with
    | 0 => []
    | n + 1 => (visited s root n [] entries).2
  else []

section Reached

variable {s : System} {tree : Tree} {found : List (List String)}

theorem reached_sublist (s : System) (root : List UInt8) (entries : Forest String) :
    (reached s root entries).Sublist entries.paths := by
  unfold reached
  split_ifs
  · split
    · exact List.nil_sublist _
    · exact visited_sublist entries
  · exact List.nil_sublist _

/-- It comes to all of them exactly when their paths fit and are not too deep. -/
theorem reached_eq_paths_iff (s : System) (root : List UInt8) (entries : Forest String) :
    reached s root entries = entries.paths ↔
      ∀ names ∈ entries.paths, s.Fits root names ∧ names.length ≤ s.openMax := by
  have hnone (hall : ∀ names ∈ entries.paths, ¬ (s.Fits root names ∧ names.length ≤ s.openMax)) :
      [] = entries.paths ↔
        ∀ names ∈ entries.paths, s.Fits root names ∧ names.length ≤ s.openMax := by
    constructor
    · intro hnil names hnames
      rw [← hnil] at hnames
      cases hnames
    · intro h
      exact (List.eq_nil_iff_forall_not_mem.mpr fun names hnames => hall names hnames
        (h names hnames)).symm
  unfold reached
  split_ifs with hroot
  · split
    · rename_i hopen
      apply hnone
      rintro names hnames ⟨-, hlength⟩
      have hpos := List.length_pos_of_ne_nil (Forest.ne_nil_of_mem_paths hnames)
      omega
    · rename_i n hopen
      rw [hopen]
      exact visited_eq_paths_iff
  · apply hnone
    rintro names - ⟨hfits, -⟩
    exact hroot (Nat.lt_of_le_of_lt le_absBytes hfits)

/-- What the walk from the root leaves in the buffer. -/
theorem walk_root (hgrant : ∀ size, s.realloc size = true) (hshows : s.Shows root tree) :
    (walk s root s.openMax [] .empty).2.data = lines (reached s root tree.entries) := by
  have hrel : relBytes [] = [] := rfl
  unfold reached
  split_ifs with hroot
  · split
    · rename_i hopen
      have hwalk : walk s root 0 (relBytes []) .empty = _ :=
        walk_zero (List.forall_mem_nil _) hroot .empty
      rw [hrel] at hwalk
      rw [hopen, hwalk]
      rfl
    · rename_i n hopen
      have hwalk : walk s root (n + 1) (relBytes []) .empty = _ :=
        walk_succ (List.forall_mem_nil _) hroot (hshows.1 hroot) n .empty
      have hnamed : ∀ names ∈ tree.entries.paths, ∀ name ∈ names, IsName name :=
        fun names hnames name hname => (tree.named names hnames name hname).1
      obtain ⟨after, hafter, hdata⟩ := @walkEntries_visited _ _ _ hgrant _ n hnamed
        (List.forall_mem_nil _) hshows.2 .empty
      rw [hrel] at hwalk hafter
      rw [hopen, hwalk, hafter]
      exact hdata
  · have hdir : dirPath s root [] = none := (if_pos rfl).trans (if_neg hroot)
    have hwalk : walk s root s.openMax [] .empty = (false, .empty) := by
      cases s.openMax <;> rw [walk, hdir]
    rw [hwalk]
    rfl

/-! ## The lines as text -/

/-- The text of the lines. -/
def linesText (found : List (List String)) : List Char :=
  found.flatMap fun names => (joinSlash names).toList ++ ['\n']

theorem linesText_cons : linesText (names :: found) =
    (joinSlash names).toList ++ ['\n'] ++ linesText found := List.flatMap_cons

theorem lines_eq (found : List (List String)) : lines found = Utf8.encode (linesText found) := by
  induction found with
  | nil => rfl
  | cons names found ih =>
      rw [lines_cons, ih, linesText_cons, Utf8.encode_append, Utf8.encode_append]
      rfl

theorem splitLines_linesText (h : ∀ names ∈ found, '\n' ∉ (joinSlash names).toList) :
    splitLines (String.ofList (linesText found)) = found.map joinSlash ++ [""] := by
  rw [splitLines, String.toList_ofList]
  induction found with
  | nil => rfl
  | cons names found ih =>
      rw [List.forall_mem_cons] at h
      have hsplit : (linesText (names :: found)).splitOn '\n' =
          (joinSlash names).toList :: (linesText found).splitOn '\n' := by
        rw [linesText_cons, List.append_assoc, List.singleton_append,
          List.splitOn_append_cons_self, List.splitOn_eq_singleton h.1]
        rfl
      rw [hsplit, List.map_cons, ih h.2, String.ofList_toList]
      rfl

/-- No path that comes from splitting the lines has a line feed. -/
theorem not_mem_of_mem_splitLines {text path : String} (h : path ∈ splitLines text) :
    '\n' ∉ path.toList := by
  obtain ⟨chars, hchars, rfl⟩ := List.mem_map.mp h
  rw [String.toList_ofList]
  exact not_mem_of_mem_splitOn hchars

/-! ## The whole call -/

theorem length_lines (found : List (List String)) :
    (lines found).length = (found.map fun names => (relBytes names).length + 1).sum := by
  induction found with
  | nil => rfl
  | cons names found ih =>
      rw [lines_cons, List.length_append, List.length_append, ih]
      rfl

/-- What the call comes to. -/
theorem discoveredPaths_eq {root : String} (hgrant : ∀ size, s.realloc size = true)
    (hshows : s.Shows (nativeRoot root) tree)
    (hfound : reached s (nativeRoot root) tree.entries = found) :
    discoveredPaths s root =
      if (lines found).length < 2 ^ 31 then
        .ok ((splitLines (String.ofList (linesText found))).filter (· ≠ ""))
      else .error .overflow := by
  have hdata := walk_root hgrant hshows
  rw [hfound] at hdata
  have hbytes : discoverPathsBytes s (nameBytes root) =
      if (lines found).length < 2 ^ 31 then .ok (lines found) else .error .overflow := by
    rw [discoverPathsBytes, ← nativeRoot, Buffer.toBytes_eq, hdata]
  have hcall : discoveredPaths s root = (discoverPathsBytes s (nameBytes root)).map fun bytes =>
      (splitLines (String.ofList (Utf8.decodeLossy bytes))).filter (· ≠ "") := by
    rw [discoveredPaths, ← nameBytes]
    cases discoverPathsBytes s (nameBytes root) <;> rfl
  rw [hcall, hbytes]
  split_ifs
  · rw [Except.map, lines_eq, Utf8.decodeLossy_encode]
  · rfl

theorem lineFeed_not_mem {root path : String} {listed : List String}
    (h : discoveredPaths s root = .ok listed) (hpath : path ∈ listed) : '\n' ∉ path.toList := by
  rw [discoveredPaths] at h
  cases hbytes : discoverPathsBytes s (Utf8.encode root.toList) with
  | error fault =>
      rw [hbytes] at h
      cases h
  | ok bytes =>
      rw [hbytes] at h
      obtain rfl := Except.ok.inj h
      exact not_mem_of_mem_splitLines (List.mem_filter.mp hpath).1

/-- Different entries have different paths. -/
theorem joinSlash_injective {names other : List String} (hnames : names ∈ tree.entries.paths)
    (hother : other ∈ tree.entries.paths) (h : joinSlash names = joinSlash other) :
    names = other := by
  rw [← splitSlash_joinSlash (Forest.ne_nil_of_mem_paths hnames)
      fun name hname => (tree.named names hnames name hname).1.noSlash, h]
  exact splitSlash_joinSlash (Forest.ne_nil_of_mem_paths hother)
    fun name hname => (tree.named other hother name hname).1.noSlash

theorem lineFeed_not_mem_joinSlash {names : List String} :
    '\n' ∉ (joinSlash names).toList ↔ ∀ name ∈ names, '\n' ∉ name.toList := by
  constructor
  · intro h name hname hmem
    exact h (mem_joinSlash_of_mem hname hmem)
  · intro h hmem
    rcases mem_joinSlash hmem with hslash | ⟨name, hname, hmem⟩
    · cases hslash
    · exact h name hname hmem

/-- What is left of the lines, if no name has a line feed. -/
theorem listed_eq (hfound : ∀ names ∈ found, names ∈ tree.entries.paths)
    (h : ∀ names ∈ found, '\n' ∉ (joinSlash names).toList) :
    (splitLines (String.ofList (linesText found))).filter (· ≠ "") = found.map joinSlash := by
  have hne : ∀ path ∈ found.map joinSlash, path ≠ "" := by
    intro path hpath hempty
    obtain ⟨names, hnames, rfl⟩ := List.mem_map.mp hpath
    have hvalid := tree.named names (hfound names hnames)
    exact Forest.ne_nil_of_mem_paths (hfound names hnames)
      ((joinSlash_eq_empty fun name hname => (hvalid name hname).1.ne_empty).mp hempty)
  rw [splitLines_linesText h, List.filter_append, List.filter_eq_self.mpr (by simpa using hne)]
  simp

end Reached

/-- The list is right exactly if no name has a line feed, the paths fit and are not deeper than
directories can be open at a time, and all of them together come to less than 2 GiB. -/
theorem enumerates_iff (s : System) (root : String) (tree : Tree)
    (hgrant : ∀ size, s.realloc size = true) (hshows : s.Shows (nativeRoot root) tree) :
    s.Enumerates root tree ↔
      (∀ names ∈ tree.entries.paths, (∀ name ∈ names, '\n' ∉ name.toList) ∧
        s.Fits (nativeRoot root) names ∧ names.length ≤ s.openMax) ∧ tree.size < 2 ^ 31 := by
  have hcall := discoveredPaths_eq hgrant hshows rfl
  have hsublist := reached_sublist s (nativeRoot root) tree.entries
  have hnodup := Forest.nodup_paths tree.distinct
  rw [Tree.size, ← length_lines]
  constructor
  · rintro ⟨listed, hlisted, -, hmem⟩
    have hfeeds : ∀ names ∈ tree.entries.paths, '\n' ∉ (joinSlash names).toList :=
      fun names hnames => lineFeed_not_mem hlisted ((hmem _).mpr ⟨names, hnames, rfl⟩)
    rw [hcall] at hlisted
    split_ifs at hlisted with hsize
    rw [listed_eq (fun names hnames => hsublist.subset hnames)
      fun names hnames => hfeeds names (hsublist.subset hnames)] at hlisted
    obtain rfl := Except.ok.inj hlisted
    -- every entry is reached, so all of them are
    have hsubset : tree.entries.paths ⊆ reached s (nativeRoot root) tree.entries := by
      intro names hnames
      obtain ⟨other, hother, heq⟩ := List.mem_map.mp ((hmem _).mpr ⟨names, hnames, rfl⟩)
      rw [← joinSlash_injective (hsublist.subset hother) hnames heq]
      exact hother
    have hall := hsublist.eq_of_length_le (hnodup.subperm hsubset).length_le
    rw [hall] at hsize
    refine ⟨fun names hnames => ⟨lineFeed_not_mem_joinSlash.mp (hfeeds names hnames), ?_⟩, hsize⟩
    exact (reached_eq_paths_iff s _ _).mp hall names hnames
  · rintro ⟨hnames, hsize⟩
    have hall := (reached_eq_paths_iff s _ _).mpr fun names hmem => (hnames names hmem).2
    rw [hall, if_pos hsize] at hcall
    have hlisted := @listed_eq tree _ (fun _ hmem => hmem)
      fun names hmem => lineFeed_not_mem_joinSlash.mpr (hnames names hmem).1
    rw [hlisted] at hcall
    refine ⟨_, hcall, ?_, fun path => ?_⟩
    · exact hnodup.map_on fun names hmem other hother => joinSlash_injective hmem hother
    · rw [List.mem_map]
      simp only [eq_comm]

/-! ## Systems with a few directories -/

/-- A system with these directories and what is in them; everything else in them is a file. -/
def tableSystem (directories : List (String × List String)) : System where
  opendir path := (directories.find? fun entry => nameBytes entry.1 = path).map fun entry =>
    [dot] :: [dot, dot] :: entry.2.map nameBytes
  lstat path := if directories.any fun entry => nameBytes entry.1 = path then some .directory
    else some .regular
  realloc _ := true
  pathMax := 4096
  openMax := 1024

/-- A file with a line feed in its name. -/
def lineFeedTree : Tree where
  entries := .leaf "a\nb" .nil
  named := by
    rw [Forest.paths, Forest.paths, List.forall_mem_singleton, List.forall_mem_singleton]
    exact ⟨⟨by decide, by decide, by decide, by decide⟩, by decide⟩
  distinct := ⟨List.not_mem_nil, trivial⟩

theorem shows_lineFeed :
    (tableSystem [("d", ["a\nb"])]).Shows (nativeRoot "d") lineFeedTree := by
  refine ⟨fun _ => ⟨_, rfl, by decide⟩, fun _ => ?_, trivial⟩
  decide

/-- The name comes back as two. -/
theorem not_enumerates_lineFeed :
    ¬ ∀ (s : System) (root : String) (tree : Tree), (∀ size, s.realloc size = true) →
      s.Shows (nativeRoot root) tree → (∀ names ∈ tree.entries.paths,
        s.Fits (nativeRoot root) names ∧ names.length ≤ s.openMax) → tree.size < 2 ^ 31 →
      s.Enumerates root tree := by
  intro h
  obtain ⟨listed, hlisted, -, hmem⟩ := h (tableSystem [("d", ["a\nb"])]) "d" lineFeedTree
    (fun _ => rfl) shows_lineFeed (by decide) (by decide)
  have hpath : "a\nb" ∈ listed := (hmem "a\nb").mpr ⟨["a\nb"], List.mem_cons_self, rfl⟩
  exact lineFeed_not_mem hlisted hpath (by decide)

/-- A file in a directory, beside a file. -/
def nestedTree : Tree where
  entries := .node "src" (.leaf "b" .nil) (.leaf "a" .nil)
  named := by
    have hname : ∀ name ∈ ["src", "b", "a"], IsName name ∧ '\x00' ∉ name.toList := by
      simp only [List.forall_mem_cons]
      exact ⟨⟨⟨by decide, by decide, by decide, by decide⟩, by decide⟩,
        ⟨⟨by decide, by decide, by decide, by decide⟩, by decide⟩,
        ⟨⟨by decide, by decide, by decide, by decide⟩, by decide⟩, nofun⟩
    have hsubset : ∀ names ∈ [["src"], ["src", "b"], ["a"]], names ⊆ ["src", "b", "a"] := by decide
    exact fun names hnames name hmem => hname name (hsubset names hnames hmem)
  distinct := ⟨by decide, ⟨List.not_mem_nil, trivial⟩, List.not_mem_nil, trivial⟩

theorem shows_nested :
    (tableSystem [("d", ["src", "a"]), ("d/src", ["b"])]).Shows (nativeRoot "d") nestedTree := by
  refine ⟨fun _ => ⟨_, rfl, by decide⟩, fun _ => ⟨by decide, _, rfl, by decide⟩,
    ⟨fun _ => ?_, trivial⟩, fun _ => ?_, trivial⟩
  · decide
  · decide

theorem enumerates_nested :
    (tableSystem [("d", ["src", "a"]), ("d/src", ["b"])]).Enumerates "d" nestedTree :=
  (enumerates_iff _ "d" nestedTree (fun _ => rfl) shows_nested).mpr (by decide)

end Mulp.VinylFs.Native
