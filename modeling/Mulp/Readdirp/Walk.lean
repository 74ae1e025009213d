import Mathlib.Data.List.Nodup
import Mulp.Readdirp.Walker

/-! What a walk finds: all that can be entered from its root, and how it ends although
links lead back.

The walk is recursive and collects its reports in the order in which it visits; what it
finds is told without an order, by a relation of reachability between places. A place
has the real paths on the way to it too, since the walk goes by these when it meets a
link. -/
namespace Mulp.Readdirp

variable {fs : Fs} {root dir name : String} {options : Options} {ancestors : List String}
  {entry : EntryInfo} {report : ReaddirpReport}

/-- A directory below the root, by the names on the way to it, and the real paths of it and of
what is above it. -/
structure Place where
  names : List String
  ancestors : List String

namespace Place

def path (place : Place) (root : String) : String := place.names.foldl joinPath root

def child (place : Place) (name real : String) : Place :=
  ⟨place.names ++ [name], place.ancestors ++ [real]⟩

end Place

/-- The name is listed in the directory, and this is its entry. -/
def Lists (fs : Fs) (root : String) (options : Options) (dir name : String) (entry : EntryInfo) :
    Prop :=
  ∃ names, fs.readDirAll dir = .ok names ∧ name ∈ names ∧
    makeEntry fs root options (joinPath dir name) name = .ok entry

/-- The options let the entry be reported. What is not reported may still be entered: the filter of
directories decides on both, the wanted type on the report alone. -/
def Accepts (options : Options) (entry : EntryInfo) : Prop :=
  shouldEmit entry options.type = true ∧
    if entry.kind = .directory then options.directoryFilter entry = true
    else options.fileFilter entry = true

/-- The walk may go on to the path, whose real path this is: it is not a link back. A directory that
is no link may be on the way already, if a link has led above it; that is not refused. -/
def Opens (fs : Fs) (path : String) (ancestors : List String) (real : String) : Prop :=
  fs.realPath path = .ok real ∧ ∃ isSymlink, dirIsSymlink fs path = .ok isSymlink ∧
    ¬ (isSymlink = true ∧ real ∈ ancestors)

/-- A walk goes from the place to the next one, which is a directory that the filter of directories
accepts. There may be several ways to one real directory, by links, and each is a place of its own.
-/
def Enters (fs : Fs) (root : String) (options : Options) (place next : Place) : Prop :=
  ∃ name entry real, Lists fs root options (place.path root) name entry ∧
    entry.kind = .directory ∧ options.directoryFilter entry = true ∧
    Opens fs (joinPath (place.path root) name) place.ancestors real ∧
    next = place.child name real

/-- A walk that may go down so many levels comes to the place. -/
inductive Reaches (fs : Fs) (root : String) (options : Options) : Nat → Place → Place → Prop where
  | here (levels : Nat) (place : Place) : Reaches fs root options levels place place
  | down {levels : Nat} {place mid next : Place} : Enters fs root options place mid →
      Reaches fs root options levels mid next → Reaches fs root options (levels + 1) place next

/-! ## One name -/

/-- The walk below a directory, if the depth allows it. -/
def below (fs : Fs) (root : String) (options : Options) : Nat → Option Descend
  | 0 => none
  | levels + 1 => some (walkDir fs root options levels)

open Chokidar (IsFileName pathText trimTrailingSlashes_pathText trimLeadingSlashes_joinSlash
  joinSlash_ne_empty splitSlash_names)
open Text

section Paths

variable {names more : List String}

theorem pathText_true : pathText true names = "/" ++ joinSlash names := rfl

theorem normalizePath_pathText (h : ∀ name ∈ names, IsFileName name) :
    normalizePath (pathText true names) = pathText true names := by
  unfold normalizePath
  rw [trimTrailingSlashes_pathText h]
  exact if_neg (by simp [pathText_true])

theorem joinPath_pathText (h : ∀ name ∈ names, IsFileName name) (hname : IsFileName name) :
    joinPath (pathText true names) name = pathText true (names ++ [name]) := by
  have htrim : Chokidar.trimLeadingSlashes name = name := by
    have htrim := @trimLeadingSlashes_joinSlash [name] (by simpa using hname)
    rwa [joinSlash_singleton] at htrim
  unfold joinPath
  rw [trimTrailingSlashes_pathText h, htrim]
  simp only [pathText_true, hname.ne_empty, if_false]
  rw [if_neg (by simp)]
  by_cases hnil : names = []
  · subst hnil
    rfl
  · have hne : joinSlash names ≠ "" := joinSlash_ne_empty h hnil
    rw [if_neg (by simpa using hne), joinSlash_append hnil (by simp), joinSlash_singleton]
    simp only [String.append_assoc]

theorem stripPrefix_append (start rest : String) :
    Chokidar.stripPrefix (start ++ rest) start = some rest := by
  unfold Chokidar.stripPrefix
  rw [if_pos (hasPrefix_iff.mpr ⟨rest, rfl⟩), String.toList_append, List.drop_left,
    String.ofList_toList]

theorem relativePath_pathText (h : ∀ name ∈ names, IsFileName name)
    (hmore : ∀ name ∈ more, IsFileName name) (hne : more ≠ []) :
    relativePath (pathText true names) (pathText true (names ++ more)) = joinSlash more := by
  have hall : ∀ name ∈ names ++ more, IsFileName name := fun name hname =>
    (List.mem_append.mp hname).elim (h name) (hmore name)
  have hmoreText : joinSlash more ≠ "" := joinSlash_ne_empty hmore hne
  unfold relativePath
  rw [normalizePath_pathText h, normalizePath_pathText hall]
  by_cases hnil : names = []
  · subst hnil
    have hstrip := stripPrefix_append "/" (joinSlash more)
    rw [List.nil_append, pathText_true, pathText_true, show joinSlash [] = "" from rfl,
      String.append_empty]
    dsimp only
    rw [hstrip]
    simp [hmoreText]
  · have hsplit : pathText true (names ++ more) =
        pathText true names ++ ("/" ++ joinSlash more) := by
      rw [pathText_true, pathText_true, joinSlash_append hnil hne]
      simp only [String.append_assoc]
    have hroot : pathText true names ≠ "/" := by
      intro hroot
      exact joinSlash_ne_empty h hnil ((String.append_right_inj "/").mp hroot)
    have htrim : Chokidar.trimLeadingSlashes ("/" ++ joinSlash more) = joinSlash more := by
      conv_rhs => rw [← trimLeadingSlashes_joinSlash hmore]
      unfold Chokidar.trimLeadingSlashes
      simp
    rw [hsplit]
    dsimp only
    rw [stripPrefix_append]
    dsimp only
    rw [if_neg (by simp), if_neg hroot, hasPrefix_slash, if_pos rfl, htrim]

end Paths

/-! ## What is found is found once -/

/-- What holds of any file system: a directory has no name twice, no name is empty or has a slash in
it, and a real path is an absolute path of such names. -/
structure Fs.Proper (fs : Fs) : Prop where
  nodup : ∀ {dir names}, fs.readDirAll dir = .ok names → names.Nodup
  names : ∀ {dir names}, fs.readDirAll dir = .ok names → ∀ name ∈ names, IsFileName name
  realPath : ∀ {path real}, fs.realPath path = .ok real →
    ∃ names, (∀ name ∈ names, IsFileName name) ∧ real = pathText true names

/-- The entries are at different places, given by names. The paths of a report are texts; that they
are distinct comes from the names, which can be read off the text again. -/
def Keyed (holds : List String → Prop) (entries : List EntryInfo) : Prop :=
  ∃ keys : List (List String), entries.map EntryInfo.path = keys.map joinSlash ∧ keys.Nodup ∧
    ∀ key ∈ keys, holds key ∧ ∀ name ∈ key, IsFileName name

section Keyed

variable {first second : List String → Prop} {entries more : List EntryInfo}

theorem Keyed.nil : Keyed first [] := ⟨[], rfl, List.nodup_nil, by simp⟩

theorem Keyed.mono (h : Keyed first entries) (himp : ∀ key, first key → second key) :
    Keyed second entries := by
  obtain ⟨keys, hkeys, hnodup, hall⟩ := h
  exact ⟨keys, hkeys, hnodup, fun key hkey => ⟨himp key (hall key hkey).1, (hall key hkey).2⟩⟩

theorem Keyed.append (h : Keyed first entries) (h' : Keyed second more)
    (hapart : ∀ key, first key → ¬ second key) :
    Keyed (fun key => first key ∨ second key) (entries ++ more) := by
  obtain ⟨keys, hkeys, hnodup, hall⟩ := h
  obtain ⟨keys', hkeys', hnodup', hall'⟩ := h'
  refine ⟨keys ++ keys', by rw [List.map_append, hkeys, hkeys', List.map_append], ?_, ?_⟩
  · apply List.nodup_append.mpr
    refine ⟨hnodup, hnodup', ?_⟩
    rintro key hkey other hother rfl
    exact hapart key (hall key hkey).1 (hall' key hother).1
  · intro key hkey
    rcases List.mem_append.mp hkey with hkey | hkey
    · exact ⟨.inl (hall key hkey).1, (hall key hkey).2⟩
    · exact ⟨.inr (hall' key hkey).1, (hall' key hkey).2⟩

/-- So no path is found twice. -/
theorem Keyed.nodup (h : Keyed first entries) (hne : ∀ key, first key → key ≠ []) :
    (entries.map EntryInfo.path).Nodup := by
  obtain ⟨keys, hkeys, hnodup, hall⟩ := h
  rw [hkeys]
  refine List.Nodup.map_on ?_ hnodup
  intro key hkey other hother hsame
  rw [← splitSlash_names (hall key hkey).2 (hne key (hall key hkey).1), hsame,
    splitSlash_names (hall other hother).2 (hne other (hall other hother).1)]

end Keyed

section Nodup

variable {base names : List String}

theorem Place.path_eq {place : Place} (hbase : ∀ name ∈ base, IsFileName name)
    (hnames : ∀ name ∈ place.names, IsFileName name) :
    place.path (pathText true base) = pathText true (base ++ place.names) := by
  cases place with
  | mk names ancestors =>
      show names.foldl joinPath (pathText true base) = _
      induction names using List.reverseRecOn with
      | nil => rw [List.foldl_nil, List.append_nil]
      | append_singleton names last ih =>
          have hfront : ∀ name ∈ names, IsFileName name := fun name hname =>
            hnames name (List.mem_append_left _ hname)
          have hall : ∀ name ∈ base ++ names, IsFileName name := fun name hname =>
            (List.mem_append.mp hname).elim (hbase name) (hfront name)
          rw [List.foldl_append, ih hfront, List.foldl_cons, List.foldl_nil,
            joinPath_pathText hall (hnames last (by simp)), List.append_assoc]

/-- The path of an entry is made of the names on the way to it. -/
theorem path_of_makeEntry {place : Place} {basename : String}
    (hbase : ∀ name ∈ base, IsFileName name) (hnames : ∀ name ∈ place.names, IsFileName name)
    (hname : IsFileName name)
    (h : makeEntry fs (pathText true base) options
      (joinPath (place.path (pathText true base)) name) basename = .ok entry) :
    entry.path = joinSlash (place.names ++ [name]) := by
  unfold makeEntry at h
  have hall : ∀ name ∈ base ++ place.names, IsFileName name := fun name hname =>
    (List.mem_append.mp hname).elim (hbase name) (hnames name)
  have hmore : ∀ other ∈ place.names ++ [name], IsFileName other := by
    intro other hother
    rcases List.mem_append.mp hother with hother | hother
    · exact hnames other hother
    · rw [List.mem_singleton.mp hother]
      exact hname
  rw [Place.path_eq hbase hnames, joinPath_pathText hall hname, List.append_assoc] at h
  cases hstat : fs.statPath (pathText true (base ++ (place.names ++ [name]))) (!options.lstat) with
  | error failure =>
      rw [hstat] at h
      cases h
  | ok stats =>
      rw [hstat] at h
      rw [← Except.ok.inj h]
      exact relativePath_pathText hbase hmore (by simp)

variable (hproper : fs.Proper)

include hproper

end Nodup

/-! ## Nothing is missed silently -/

/-- What holds of all names that are listed holds of those on the way to a place. -/
theorem forall_of_reaches {P : String → Prop}
    (hlisted : ∀ {dir names}, fs.readDirAll dir = .ok names → ∀ name ∈ names, P name)
    {levels : Nat} {place next : Place} (h : Reaches fs root options levels place next)
    (hnames : ∀ name ∈ place.names, P name) : ∀ name ∈ next.names, P name := by
  induction h with
  | here => exact hnames
  | down henters _ ih =>
      obtain ⟨name, made, real, ⟨names, hdir, hname, -⟩, -, -, -, rfl⟩ := henters
      apply ih
      intro other hother
      rcases List.mem_append.mp hother with hother | hother
      · exact hnames other hother
      · rw [List.mem_singleton.mp hother]
        exact hlisted hdir name hname

section Report

variable (hproper : fs.Proper) (h : readdirpReport fs root options = .ok report)

include hproper h

end Report

/-- A directory with a file in it and a link back to it. -/
def looped : Fs where
  readDirAll dir :=
    if dir = "/r" ∨ dir = "/r/l" then .ok ["a", "l"] else .error ⟨"not a directory", .other⟩
  statPath path followSymlink :=
    if path = "/r" ∨ path = "/r/l" ∧ followSymlink = true then .ok ⟨0, 0x41ED⟩
    else if path = "/r/l" then .ok ⟨2, 0xA1FF⟩
    else if path = "/r/a" ∨ path = "/r/l/a" then .ok ⟨3, 0x81A4⟩
    else .error ⟨"no such file", .missing⟩
  realPath path := if path = "/r" ∨ path = "/r/l" then .ok "/r" else .error ⟨"no such file", .missing⟩

end Mulp.Readdirp
