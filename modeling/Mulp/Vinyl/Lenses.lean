import Mulp.Vinyl.Components
import Mulp.Vinyl.Files

/-! The getters and setters of the components of a path (`vinyl/file.mbt`): what is set is
what is got, the other components stay, and setting what is there changes nothing. -/
namespace Mulp.Vinyl

open Mulp.Text

variable {β ρ : Type}

namespace VinylFile

variable {self : VinylFile β ρ} {path : String}

theorem unwrapOr_ok {ε α : Type} (value default : α) :
    unwrapOr (Except.ok value : Except ε α) default = value := rfl

theorem dirnameResult_some (h : self.path = some path) :
    self.dirnameResult = .ok (dirPart path) := by
  rw [dirnameResult, h, dirPart]
  dsimp only
  rcases lastIndexOf path '/' with _ | _ | index <;> rfl

theorem basenameResult_some (h : self.path = some path) :
    self.basenameResult = .ok (namePart path) := by
  rw [basenameResult, h, namePart]
  dsimp only
  cases lastIndexOf path '/' <;> rfl

theorem basename_some (h : self.path = some path) : self.basename = namePart path := by
  rw [basename, basenameResult_some h]
  rfl

theorem stemResult_some (h : self.path = some path) :
    self.stemResult = .ok (stemPart (namePart path)) := by
  have hsome : ¬ self.path.isNone = true := by simp [h]
  rw [stemResult, if_neg hsome, basename_some h, stemPart]
  rcases lastIndexOf (namePart path) '.' with _ | _ | index <;> rfl

theorem extnameResult_some (h : self.path = some path) :
    self.extnameResult = .ok (extPart (namePart path)) := by
  have hsome : ¬ self.path.isNone = true := by simp [h]
  rw [extnameResult, if_neg hsome, basename_some h, extPart]
  rcases lastIndexOf (namePart path) '.' with _ | _ | index <;> rfl

/-- A file that is given a path has it. -/
theorem path_withPath (h : normalizePath path ≠ "") :
    (self.withPath path).path = some (normalizePath path) := by
  rw [VinylFile.path, withPath]
  rcases appendPath_eq_or self.history path with hsame | ⟨happend, -, -⟩
  · rw [hsame]
    by_contra hlast
    rw [appendPath] at hsame
    simp only [if_neg h, if_pos hlast] at hsame
    simp at hsame
  · rw [happend, List.getLast?_concat]

/-- A file that is given the path it has keeps its history. -/
theorem history_withPath (h : self.path = some (normalizePath path)) :
    (self.withPath path).history = self.history := by
  rw [withPath]
  rcases appendPath_eq_or self.history path with hsame | ⟨-, -, hlast⟩
  · exact hsame
  · exact absurd h hlast

end VinylFile

namespace Sliced

/-! ## Getters -/

def dirname (self : VinylFile β ρ) : Option String :=
  (dirnameResult self).map fun result => VinylFile.unwrapOr result "."

def extname (self : VinylFile β ρ) : Option String :=
  (extnameResult self).map fun result => VinylFile.unwrapOr result ""

def stem (self : VinylFile β ρ) : Option String :=
  (stemResult self).map fun result => VinylFile.unwrapOr result ""

/-- A file that can be reached by calls. Its fields are normalized and its history is kept, and no
more is known of it. -/
def Reachable (self : VinylFile Nat Nat) : Prop := ∃ ops s, Files.run ops .empty = some s ∧ self ∈ s.files

section Getters

variable {self : VinylFile β ρ} {path : String} (h : self.path = some path)

include h

theorem dirname_eq_some_iff {dir : String} :
    dirname self = some dir ↔ IsBmp path ∧ dirPart path = dir := by
  have hsame : (∀ p ∈ self.path, IsBmp p) ↔ IsBmp path := by simp [h]
  constructor
  · intro hdir
    obtain ⟨result, hresult, rfl⟩ := Option.map_eq_some_iff.mp hdir
    have hbmp := isBmp_of_dirnameResult hresult
    rw [dirnameResult_eq hbmp, VinylFile.dirnameResult_some h, Option.some.injEq] at hresult
    rw [← hresult, VinylFile.unwrapOr_ok]
    exact ⟨hsame.mp hbmp, rfl⟩
  · rintro ⟨hbmp, rfl⟩
    rw [dirname, dirnameResult_eq (hsame.mpr hbmp), VinylFile.dirnameResult_some h, Option.map_some,
      VinylFile.unwrapOr_ok]

theorem basename_eq_some_iff {name : String} :
    basename self = some name ↔ IsBmp path ∧ namePart path = name := by
  have hsame : (∀ p ∈ self.path, IsBmp p) ↔ IsBmp path := by simp [h]
  constructor
  · intro hname
    have hbmp := isBmp_of_basename hname
    rw [basename_eq hbmp, VinylFile.basename_some h, Option.some.injEq] at hname
    exact ⟨hsame.mp hbmp, hname⟩
  · rintro ⟨hbmp, rfl⟩
    rw [basename_eq (hsame.mpr hbmp), VinylFile.basename_some h]

theorem extname_eq_some_iff {ext : String} :
    extname self = some ext ↔ IsBmp path ∧ extPart (namePart path) = ext := by
  have hsame : (∀ p ∈ self.path, IsBmp p) ↔ IsBmp path := by simp [h]
  constructor
  · intro hext
    obtain ⟨result, hresult, rfl⟩ := Option.map_eq_some_iff.mp hext
    have hbmp := isBmp_of_extnameResult hresult
    rw [extnameResult_eq hbmp, VinylFile.extnameResult_some h, Option.some.injEq] at hresult
    rw [← hresult, VinylFile.unwrapOr_ok]
    exact ⟨hsame.mp hbmp, rfl⟩
  · rintro ⟨hbmp, rfl⟩
    rw [extname, extnameResult_eq (hsame.mpr hbmp), VinylFile.extnameResult_some h, Option.map_some,
      VinylFile.unwrapOr_ok]

theorem stem_eq_some_iff {base : String} :
    stem self = some base ↔ IsBmp path ∧ stemPart (namePart path) = base := by
  have hsame : (∀ p ∈ self.path, IsBmp p) ↔ IsBmp path := by simp [h]
  constructor
  · intro hstem
    obtain ⟨result, hresult, rfl⟩ := Option.map_eq_some_iff.mp hstem
    have hbmp := isBmp_of_stemResult hresult
    rw [stemResult_eq hbmp, VinylFile.stemResult_some h, Option.some.injEq] at hresult
    rw [← hresult, VinylFile.unwrapOr_ok]
    exact ⟨hsame.mp hbmp, rfl⟩
  · rintro ⟨hbmp, rfl⟩
    rw [stem, stemResult_eq (hsame.mpr hbmp), VinylFile.stemResult_some h, Option.map_some,
      VinylFile.unwrapOr_ok]

end Getters

/-! ## Texts without pairs -/

theorem isBmp_inside {dir name : String} : IsBmp (inside dir name) ↔ IsBmp dir ∧ IsBmp name := by
  have hslash : IsBmp "/" := by decide
  have happend {first second : String} : IsBmp (first ++ second) ↔ IsBmp first ∧ IsBmp second := by
    simp only [IsBmp, String.toList_append, List.forall_mem_append]
  rw [inside]
  split_ifs with hstart hroot
  · rw [hstart]
    exact (and_iff_right (by decide)).symm
  · rw [hroot, happend]
  · rw [happend, happend, and_iff_left hslash]

theorem isBmp_stem_ext {name : String} (h : IsBmp name) :
    IsBmp (stemPart name) ∧ IsBmp (extPart name) := by
  rw [← stemPart_append_extPart name] at h
  simpa only [IsBmp, String.toList_append, List.forall_mem_append] using h

/-! ## Setters -/

/-- The file has the name in the directory for a path. Every law of a component is about such a
file: the getters take it apart again, and a setter puts another part in its place. -/
structure Placed (file : VinylFile β ρ) (dir name : String) : Prop where
  path : file.path = some (inside dir name)
  normal : Vinyl.normalizePath dir = dir
  ne : dir ≠ ""
  name : IsName name

theorem exists_placed {self : VinylFile β ρ} (h : Normalized self) {path : String}
    (hpath : self.path = some path) (hempty : namePart path ≠ "") (hdot : namePart path ≠ ".")
    (hdots : namePart path ≠ "..") :
    ∃ dir name, Placed self dir name ∧ path = inside dir name := by
  have hnormal := h.history path (List.mem_of_getLast? hpath)
  obtain ⟨dir, name, rfl, hdir, hne, hname⟩ := exists_inside hnormal hempty hdot hdots
  exact ⟨dir, name, ⟨hpath, hdir, hne, hname⟩, rfl⟩

theorem withPath_eq {self : VinylFile β ρ} {path : String} (h : IsBmp path) :
    withPath self path = some (self.withPath path) := by
  rw [withPath, appendPath_eq h]
  rfl

theorem isBmp_joinPath {dir name : String} (hdir : IsBmp dir) (hname : IsBmp name) :
    IsBmp (joinPath dir name) := by
  have hslash : IsBmp "/" := by decide
  rw [joinPath]
  split_ifs
  · exact hslash.append hname
  · exact hdir.append hname
  · exact (hdir.append hslash).append hname

namespace Placed

/-- The file moved to another name in another directory. -/
theorem moved (self : VinylFile β ρ) {d n : String} (hnormal : Vinyl.normalizePath d = d)
    (hne : d ≠ "") (hname : IsName n) :
    Placed (self.withPath (joinPath d n)) d n := by
  have hjoin := normalizePath_joinPath hnormal hne hname
  refine ⟨?_, hnormal, hne, hname⟩
  rw [VinylFile.path_withPath, hjoin]
  rw [hjoin, ← hjoin]
  exact mt normalizePath_eq_empty.mp (joinPath_ne_empty d n)

variable {self : VinylFile β ρ} {dir name : String} (h : Placed self dir name)

include h

theorem dirPart_eq : dirPart (inside dir name) = dir :=
  (dirPart_namePart_inside h.ne h.name.noSlash).1

theorem namePart_eq : namePart (inside dir name) = name :=
  (dirPart_namePart_inside h.ne h.name.noSlash).2

theorem dirname_iff {d : String} : dirname self = some d ↔ IsBmp (inside dir name) ∧ dir = d := by
  rw [dirname_eq_some_iff h.path, h.dirPart_eq]

theorem basename_iff {n : String} :
    basename self = some n ↔ IsBmp (inside dir name) ∧ name = n := by
  rw [basename_eq_some_iff h.path, h.namePart_eq]

theorem stem_iff {s : String} :
    stem self = some s ↔ IsBmp (inside dir name) ∧ stemPart name = s := by
  rw [stem_eq_some_iff h.path, h.namePart_eq]

theorem extname_iff {e : String} :
    extname self = some e ↔ IsBmp (inside dir name) ∧ extPart name = e := by
  rw [extname_eq_some_iff h.path, h.namePart_eq]

/-- The file moved to where it is. -/
theorem stays : (self.withPath (joinPath dir name)).path = self.path ∧
    (self.withPath (joinPath dir name)).history = self.history := by
  have hjoin := normalizePath_joinPath h.normal h.ne h.name
  have hhistory : (self.withPath (joinPath dir name)).history = self.history :=
    VinylFile.history_withPath (by rw [hjoin, h.path])
  refine ⟨?_, hhistory⟩
  rw [VinylFile.path, hhistory]
  rfl

theorem eq_of_withBasename {n : String} {file : VinylFile β ρ}
    (hset : withBasename self n = some file) :
    file = self.withPath (joinPath dir n) := by
  have hfile := eq_of_orSelf (fun _ => eq_of_withBasenameResult) hset
  rw [VinylFile.withBasenameResult, VinylFile.dirnameResult_some h.path, h.dirPart_eq] at hfile
  exact hfile

theorem eq_of_withDirname {d : String} {file : VinylFile β ρ}
    (hset : withDirname self d = some file) :
    file = self.withPath (joinPath (Vinyl.normalizePath d) name) := by
  have hfile := eq_of_orSelf (fun _ => eq_of_withDirnameResult) hset
  rw [VinylFile.withDirnameResult, VinylFile.basenameResult_some h.path, h.namePart_eq] at hfile
  exact hfile

theorem eq_of_withStem {s : String} {file : VinylFile β ρ} (hset : withStem self s = some file) :
    file = self.withPath (joinPath dir (s ++ extPart name)) := by
  have hfile := eq_of_orSelf (fun _ => eq_of_withStemResult) hset
  rw [VinylFile.withStemResult, VinylFile.extnameResult_some h.path, h.namePart_eq] at hfile
  simp only [VinylFile.withBasenameResult, VinylFile.dirnameResult_some h.path,
    h.dirPart_eq] at hfile
  exact hfile

theorem eq_of_withExtname {e : String} {file : VinylFile β ρ}
    (hset : withExtname self e = some file) :
    file = self.withPath (joinPath dir (stemPart name ++ e)) := by
  have hfile := eq_of_orSelf (fun _ => eq_of_withExtnameResult) hset
  rw [VinylFile.withExtnameResult, VinylFile.stemResult_some h.path, h.namePart_eq] at hfile
  simp only [VinylFile.withBasenameResult, VinylFile.dirnameResult_some h.path,
    h.dirPart_eq] at hfile
  exact hfile

variable (hbmp : IsBmp (inside dir name))

include hbmp

theorem isBmp_path : ∀ path ∈ self.path, IsBmp path := by
  intro path hpath
  rw [h.path] at hpath
  exact Option.some.inj hpath ▸ hbmp

theorem withBasenameResult_eq {n : String} (hn : IsBmp n) :
    withBasenameResult self n = some (.ok (self.withPath (joinPath dir n))) := by
  rw [withBasenameResult, dirnameResult_eq (h.isBmp_path hbmp), VinylFile.dirnameResult_some h.path,
    h.dirPart_eq, Option.bind_eq_bind, Option.bind_some]
  simp only [withPath_eq (isBmp_joinPath (isBmp_inside.mp hbmp).1 hn), Option.map_some]

theorem withBasename_eq {n : String} (hn : IsBmp n) :
    withBasename self n = some (self.withPath (joinPath dir n)) := by
  rw [withBasename, h.withBasenameResult_eq hbmp hn]
  rfl

theorem withDirname_eq {d : String} (hd : IsBmp d) :
    withDirname self d = some (self.withPath (joinPath (Vinyl.normalizePath d) name)) := by
  rw [withDirname, withDirnameResult, basenameResult_eq (h.isBmp_path hbmp),
    VinylFile.basenameResult_some h.path, h.namePart_eq, Option.bind_eq_bind, Option.bind_some]
  simp only [normalizePath_eq hd, Option.bind_eq_bind, Option.bind_some,
    withPath_eq (isBmp_joinPath (isBmp_normalizePath hd) (isBmp_inside.mp hbmp).2), Option.map_some]
  rfl

theorem withStem_eq {s : String} (hs : IsBmp s) :
    withStem self s = some (self.withPath (joinPath dir (s ++ extPart name))) := by
  have hext := (isBmp_stem_ext (isBmp_inside.mp hbmp).2).2
  rw [withStem, withStemResult, extnameResult_eq (h.isBmp_path hbmp),
    VinylFile.extnameResult_some h.path, h.namePart_eq, Option.bind_eq_bind, Option.bind_some]
  simp only [h.withBasenameResult_eq hbmp (hs.append hext)]
  rfl

theorem withExtname_eq {e : String} (he : IsBmp e) :
    withExtname self e = some (self.withPath (joinPath dir (stemPart name ++ e))) := by
  have hstem := (isBmp_stem_ext (isBmp_inside.mp hbmp).2).1
  rw [withExtname, withExtnameResult, stemResult_eq (h.isBmp_path hbmp),
    VinylFile.stemResult_some h.path, h.namePart_eq, Option.bind_eq_bind, Option.bind_some]
  simp only [h.withBasenameResult_eq hbmp (hstem.append he)]
  rfl

end Placed

/-! ## The laws -/

/-- The path is made of its directory and its name, and the name of its stem and its extension. The
directory and the name are joined and normalized again, as a directory may be the root or the
working directory. -/
def Splits (self : VinylFile β ρ) (path : String) : Prop :=
  ∃ dir name base ext, dirname self = some dir ∧ basename self = some name ∧ stem self = some base ∧
    extname self = some ext ∧ normalizePath (joinPath dir name) = some path ∧ base ++ ext = name ∧
    (ext = "" ∨ hasPrefix ext "." = true)

/-- Setting a component to what it is changes nothing, neither the path nor the history; that also
is a rename to the path that the file has. -/
def SetsNothing (self : VinylFile β ρ) : Prop :=
  ∃ dir name base ext, (dirname self = some dir ∧ basename self = some name ∧ stem self = some base ∧
    extname self = some ext) ∧
    ∀ made ∈ [withDirname self dir, withBasename self name, withStem self base, withExtname self ext],
      ∃ file, made = some file ∧ file.path = self.path ∧ file.history = self.history

def SetsBasename (self : VinylFile β ρ) (name : String) : Prop :=
  ∃ file dir, withBasename self name = some file ∧ basename file = some name ∧
    dirname self = some dir ∧ dirname file = some dir

def SetsStem (self : VinylFile β ρ) (base : String) : Prop :=
  ∃ file dir ext, withStem self base = some file ∧ stem file = some base ∧
    (extname self = some ext ∧ extname file = some ext) ∧ dirname self = some dir ∧ dirname file = some dir

def SetsExtname (self : VinylFile β ρ) (ext : String) : Prop :=
  ∃ file dir base, withExtname self ext = some file ∧ extname file = some ext ∧
    (stem self = some base ∧ stem file = some base) ∧ dirname self = some dir ∧ dirname file = some dir

def SetsDirname (self : VinylFile β ρ) (dir : String) : Prop :=
  ∃ file name, withDirname self dir = some file ∧ dirname file = some dir ∧
    basename self = some name ∧ basename file = some name

/-- A stem that makes a name of an extension and is the stem of that name. -/
structure FitsStem (ext base : String) : Prop where
  ne : base ≠ ""
  noSlash : NoSlash base
  ne_dot : base ++ ext ≠ "."
  ne_dots : base ++ ext ≠ ".."
  last : ext ≠ "" ∨ Undotted base

theorem FitsStem.split {name base : String} (h : FitsStem (extPart name) base) :
    stemPart (base ++ extPart name) = base ∧ extPart (base ++ extPart name) = extPart name := by
  rcases extPart_cases name with hnone | ⟨rest, hext, hrest⟩
  · have hundotted : Undotted base := h.last.resolve_left fun hne => hne hnone
    rw [hnone, String.append_empty]
    exact stemPart_extPart_undotted hundotted
  · rw [hext]
    exact stemPart_extPart_append h.ne hrest

theorem FitsStem.isName {name base : String} (h : FitsStem (extPart name) base)
    (hname : IsName name) :
    IsName (base ++ extPart name) := by
  refine ⟨?_, ?_, h.ne_dot, h.ne_dots⟩
  · have hslash := hname.noSlash
    rw [NoSlash, ← stemPart_append_extPart name, String.toList_append, List.mem_append,
      not_or] at hslash
    rw [NoSlash, String.toList_append, List.mem_append, not_or]
    exact ⟨h.noSlash, hslash.2⟩
  · rw [ne_eq, String.append_eq_empty_iff]
    exact fun hempty => h.ne hempty.1

theorem isName_extension {name ext : String} (h : IsExtension ext) (hname : IsName name) :
    IsName (stemPart name ++ ext) := by
  obtain ⟨rest, rfl, hne, hdots, hslash⟩ := h
  have hlength : ∀ short : String, (∀ c ∈ short.toList, c = '.') →
      stemPart name ++ ("." ++ rest) ≠ short := by
    rintro _ hshort rfl
    obtain ⟨c, chars, hchars⟩ := List.exists_cons_of_ne_nil (mt String.toList_eq_nil_iff.mp hne)
    have hc := hshort c (by simp [hchars])
    exact hdots (hchars ▸ hc ▸ List.mem_cons_self)
  refine ⟨?_, ?_, hlength "." (by simp), hlength ".." (by simp)⟩
  · have hstem := hname.noSlash
    rw [NoSlash, ← stemPart_append_extPart name, String.toList_append, List.mem_append,
      not_or] at hstem
    have hdot : '/' ∉ ".".toList := by decide
    rw [NoSlash, String.toList_append, String.toList_append, List.mem_append, List.mem_append,
      not_or, not_or]
    exact ⟨hstem.1, hdot, hslash⟩
  · exact hlength "" (by simp)

namespace Placed

variable {self : VinylFile β ρ} {dir name : String} (h : Placed self dir name)

include h

theorem splits_iff : Splits self (inside dir name) ↔ IsBmp (inside dir name) := by
  constructor
  · rintro ⟨d, -, -, -, hdir, -⟩
    exact (h.dirname_iff.mp hdir).1
  · intro hbmp
    refine ⟨dir, name, stemPart name, extPart name, h.dirname_iff.mpr ⟨hbmp, rfl⟩,
      h.basename_iff.mpr ⟨hbmp, rfl⟩, h.stem_iff.mpr ⟨hbmp, rfl⟩, h.extname_iff.mpr ⟨hbmp, rfl⟩, ?_,
      stemPart_append_extPart name, ?_⟩
    · obtain ⟨hdir, hname⟩ := isBmp_inside.mp hbmp
      rw [normalizePath_eq (isBmp_joinPath hdir hname), normalizePath_joinPath h.normal h.ne h.name]
    · rcases extPart_cases name with hnone | ⟨rest, hext, -⟩
      · exact .inl hnone
      · exact .inr (hasPrefix_iff.mpr ⟨rest, hext⟩)

theorem setsNothing_iff : SetsNothing self ↔ IsBmp (inside dir name) := by
  constructor
  · rintro ⟨d, -, -, -, ⟨hdir, -⟩, -⟩
    exact (h.dirname_iff.mp hdir).1
  · intro hbmp
    obtain ⟨hdir, hname⟩ := isBmp_inside.mp hbmp
    obtain ⟨hstem, hext⟩ := isBmp_stem_ext hname
    refine ⟨dir, name, stemPart name, extPart name,
      ⟨h.dirname_iff.mpr ⟨hbmp, rfl⟩, h.basename_iff.mpr ⟨hbmp, rfl⟩, h.stem_iff.mpr ⟨hbmp, rfl⟩,
      h.extname_iff.mpr ⟨hbmp, rfl⟩⟩, ?_⟩
    -- every setter moves the file to where it is
    intro made hmade
    have hsame : made = some (self.withPath (joinPath dir name)) := by
      rw [h.withDirname_eq hbmp hdir, h.withBasename_eq hbmp hname, h.withStem_eq hbmp hstem,
        h.withExtname_eq hbmp hext, h.normal, stemPart_append_extPart] at hmade
      simpa using hmade
    exact ⟨_, hsame, h.stays⟩

theorem setsBasename_iff {n : String} (hn : IsName n) :
    SetsBasename self n ↔ IsBmp (inside dir name) ∧ IsBmp n := by
  have hmoved := moved self h.normal h.ne hn
  constructor
  · rintro ⟨file, d, hset, hbasename, hdir, -⟩
    obtain rfl := h.eq_of_withBasename hset
    exact ⟨(h.dirname_iff.mp hdir).1, (isBmp_inside.mp (hmoved.basename_iff.mp hbasename).1).2⟩
  · rintro ⟨hbmp, hnbmp⟩
    have hmovedBmp := isBmp_inside.mpr ⟨(isBmp_inside.mp hbmp).1, hnbmp⟩
    exact ⟨_, dir, h.withBasename_eq hbmp hnbmp, hmoved.basename_iff.mpr ⟨hmovedBmp, rfl⟩,
      h.dirname_iff.mpr ⟨hbmp, rfl⟩, hmoved.dirname_iff.mpr ⟨hmovedBmp, rfl⟩⟩

theorem setsStem_iff {base : String} (hbase : FitsStem (extPart name) base) :
    SetsStem self base ↔ IsBmp (inside dir name) ∧ IsBmp base := by
  have hmoved := moved self h.normal h.ne (hbase.isName h.name)
  obtain ⟨hstem, hext⟩ := hbase.split
  constructor
  · rintro ⟨file, d, ext, hset, hgot, -, hdir, -⟩
    obtain rfl := h.eq_of_withStem hset
    have hall := (isBmp_inside.mp (hmoved.stem_iff.mp hgot).1).2
    exact ⟨(h.dirname_iff.mp hdir).1, hstem ▸ (isBmp_stem_ext hall).1⟩
  · rintro ⟨hbmp, hbaseBmp⟩
    obtain ⟨hdirBmp, hnameBmp⟩ := isBmp_inside.mp hbmp
    have hmovedBmp := isBmp_inside.mpr ⟨hdirBmp, hbaseBmp.append (isBmp_stem_ext hnameBmp).2⟩
    exact ⟨_, dir, extPart name, h.withStem_eq hbmp hbaseBmp,
      hmoved.stem_iff.mpr ⟨hmovedBmp, hstem⟩, ⟨h.extname_iff.mpr ⟨hbmp, rfl⟩,
      hmoved.extname_iff.mpr ⟨hmovedBmp, hext⟩⟩,
      h.dirname_iff.mpr ⟨hbmp, rfl⟩, hmoved.dirname_iff.mpr ⟨hmovedBmp, rfl⟩⟩

theorem setsExtname_iff {ext : String} (hext : IsExtension ext) :
    SetsExtname self ext ↔ IsBmp (inside dir name) ∧ IsBmp ext := by
  have hmoved := moved self h.normal h.ne (isName_extension hext h.name)
  obtain ⟨hgotStem, hgotExt⟩ : stemPart (stemPart name ++ ext) = stemPart name ∧
      extPart (stemPart name ++ ext) = ext := by
    obtain ⟨rest, rfl, -, hdots, -⟩ := hext
    exact stemPart_extPart_append (stemPart_ne_empty h.name.ne_empty) hdots
  constructor
  · rintro ⟨file, d, base, hset, hgot, -, hdir, -⟩
    obtain rfl := h.eq_of_withExtname hset
    have hall := (isBmp_inside.mp (hmoved.extname_iff.mp hgot).1).2
    exact ⟨(h.dirname_iff.mp hdir).1, hgotExt ▸ (isBmp_stem_ext hall).2⟩
  · rintro ⟨hbmp, hextBmp⟩
    obtain ⟨hdirBmp, hnameBmp⟩ := isBmp_inside.mp hbmp
    have hmovedBmp := isBmp_inside.mpr ⟨hdirBmp, (isBmp_stem_ext hnameBmp).1.append hextBmp⟩
    exact ⟨_, dir, stemPart name, h.withExtname_eq hbmp hextBmp,
      hmoved.extname_iff.mpr ⟨hmovedBmp, hgotExt⟩, ⟨h.stem_iff.mpr ⟨hbmp, rfl⟩,
      hmoved.stem_iff.mpr ⟨hmovedBmp, hgotStem⟩⟩,
      h.dirname_iff.mpr ⟨hbmp, rfl⟩, hmoved.dirname_iff.mpr ⟨hmovedBmp, rfl⟩⟩

theorem setsDirname_iff {d : String} (hne : d ≠ "") (hnormal : Vinyl.normalizePath d = d) :
    SetsDirname self d ↔ IsBmp (inside dir name) ∧ IsBmp d := by
  have hmoved := moved self hnormal hne h.name
  constructor
  · rintro ⟨file, n, hset, hgot, hname, -⟩
    have hfile := h.eq_of_withDirname hset
    rw [hnormal] at hfile
    obtain rfl := hfile
    exact ⟨(h.basename_iff.mp hname).1, (isBmp_inside.mp (hmoved.dirname_iff.mp hgot).1).1⟩
  · rintro ⟨hbmp, hdBmp⟩
    have hmovedBmp := isBmp_inside.mpr ⟨hdBmp, (isBmp_inside.mp hbmp).2⟩
    have hset := h.withDirname_eq hbmp hdBmp
    rw [hnormal] at hset
    exact ⟨_, name, hset, hmoved.dirname_iff.mpr ⟨hmovedBmp, rfl⟩, h.basename_iff.mpr ⟨hbmp, rfl⟩,
      hmoved.basename_iff.mpr ⟨hmovedBmp, rfl⟩⟩

end Placed

/-- For a file that can be reached and has a path to a name, each law of the components holds
exactly when the path and what is set have no pairs. -/
theorem components_iff {file : VinylFile Nat Nat} (hreach : Reachable file) {path : String}
    (hpath : file.path = some path)
    (hname : namePart path ≠ "" ∧ namePart path ≠ "." ∧ namePart path ≠ "..") :
    (Splits file path ↔ IsBmp path) ∧ (SetsNothing file ↔ IsBmp path) ∧
      (∀ name, IsName name → (SetsBasename file name ↔ IsBmp path ∧ IsBmp name)) ∧
      (∀ base, FitsStem (extPart (namePart path)) base → (SetsStem file base ↔ IsBmp path ∧ IsBmp base)) ∧
      (∀ ext, IsExtension ext → (SetsExtname file ext ↔ IsBmp path ∧ IsBmp ext)) ∧
      (∀ dir, dir ≠ "" → Vinyl.normalizePath dir = dir → (SetsDirname file dir ↔ IsBmp path ∧ IsBmp dir)) := by
  obtain ⟨ops, s, hrun, hfile⟩ := hreach
  have hnormalized := (Files.good_empty.run hrun file hfile).1
  obtain ⟨dir, name, hplaced, rfl⟩ := exists_placed hnormalized hpath hname.1 hname.2.1 hname.2.2
  rw [hplaced.namePart_eq]
  exact ⟨hplaced.splits_iff, hplaced.setsNothing_iff, fun _ => hplaced.setsBasename_iff,
    fun _ => hplaced.setsStem_iff, fun _ => hplaced.setsExtname_iff,
    fun _ => hplaced.setsDirname_iff⟩

theorem components_dotted :
    ∃ file, Reachable file ∧ file.path = some "a.b" ∧ Splits file "a.b" ∧ SetsStem file "c" := by
  have hmade : ∃ file, Reachable file ∧ file.path = some "a.b" :=
    ⟨_, ⟨[.make { cwd := "/", path := some "a.b" }], _, rfl, List.mem_cons_self⟩, rfl⟩
  obtain ⟨file, hfile, hpath⟩ := hmade
  have hlaws := components_iff hfile hpath (by decide)
  exact ⟨file, hfile, hpath, hlaws.1.mpr (by decide),
    (hlaws.2.2.2.1 "c" ⟨by decide, by decide, by decide, by decide, .inl (by decide)⟩).mpr (by decide)⟩

/-- A path that no component can be read of. -/
theorem not_splits_pair : ¬ ∀ file, Reachable file → ∀ path, file.path = some path →
    namePart path ≠ "" ∧ namePart path ≠ "." ∧ namePart path ≠ ".." → Splits file path := by
  intro h
  have hmade : ∃ file, Reachable file ∧ file.path = some "😀" :=
    ⟨_, ⟨[.make { cwd := ".", path := some "./😀" }], _, rfl, List.mem_cons_self⟩, rfl⟩
  obtain ⟨file, hfile, hpath⟩ := hmade
  obtain ⟨dir, -, -, -, hdir, -⟩ := h file hfile "😀" hpath (by decide)
  exact absurd ((dirname_eq_some_iff hpath).mp hdir).1 (by decide)

end Sliced

end Mulp.Vinyl
