import Mulp.Vinyl.Returns

/-! The calls that make a vinyl file from another one, with the slices that they take
(`vinyl/file.mbt`). Where none of them aborts, the file is the one by characters. -/
namespace Mulp.Vinyl.Sliced

open Mulp.Text

/-! ## Components -/

/-- Looking for a character takes a slice of each unit. -/
theorem slicesFrom_of_lastIndexOfFrom {value needle : String} {found : Option Nat} {index n : Nat}
    {last : Option Nat} (h : lastIndexOfFrom value needle found index n = some last) :
    ∃ parts, slicesFrom (units value) index n = some parts := by
  induction n generalizing found index with
  | zero => exact ⟨[], rfl⟩
  | succ n ih =>
      rw [lastIndexOfFrom, Option.bind_eq_bind, Option.bind_eq_some_iff] at h
      obtain ⟨part, hpart, hrest⟩ := h
      rw [slice, Option.map_eq_some_iff] at hpart
      obtain ⟨cut, hcut, -⟩ := hpart
      obtain ⟨parts, hparts⟩ := ih hrest
      rw [slicesFrom, hcut]
      simp only [hparts, Option.map_some]
      exact ⟨_, rfl⟩

theorem isBmp_of_lastIndexOf {value needle : String} {last : Option Nat}
    (h : lastIndexOf value needle = some last) : IsBmp value := by
  obtain ⟨parts, hparts⟩ := slicesFrom_of_lastIndexOfFrom h
  exact plain_units_iff.mp (slices_eq_some_iff.mp hparts).1

theorem isBmp_of_dirnameOf {path dir : String} (h : dirnameOf path = some dir) : IsBmp path := by
  rw [dirnameOf, Option.bind_eq_bind, Option.bind_eq_some_iff] at h
  obtain ⟨last, hlast, -⟩ := h
  exact isBmp_of_lastIndexOf hlast

theorem isBmp_of_basenameOf {path name : String} (h : basenameOf path = some name) :
    IsBmp path := by
  rw [basenameOf, Option.bind_eq_bind, Option.bind_eq_some_iff] at h
  obtain ⟨last, hlast, -⟩ := h
  exact isBmp_of_lastIndexOf hlast

section Components

variable {β ρ : Type} {self : VinylFile β ρ}

/-- A component is only computed of a path without pairs. -/
theorem isBmp_of_dirnameResult {result : Except String String}
    (h : dirnameResult self = some result) :
    ∀ path ∈ self.path, IsBmp path := by
  intro path hpath
  rw [dirnameResult, hpath] at h
  obtain ⟨dir, hdir, -⟩ := Option.map_eq_some_iff.mp h
  exact isBmp_of_dirnameOf hdir

theorem isBmp_of_basenameResult {result : Except String String}
    (h : basenameResult self = some result) :
    ∀ path ∈ self.path, IsBmp path := by
  intro path hpath
  rw [basenameResult, hpath] at h
  obtain ⟨name, hname, -⟩ := Option.map_eq_some_iff.mp h
  exact isBmp_of_basenameOf hname

theorem isBmp_of_basename {name : String} (h : basename self = some name) :
    ∀ path ∈ self.path, IsBmp path := by
  obtain ⟨result, hresult, -⟩ := Option.map_eq_some_iff.mp h
  exact isBmp_of_basenameResult hresult

theorem isBmp_of_extnameResult {result : Except String String}
    (h : extnameResult self = some result) :
    ∀ path ∈ self.path, IsBmp path := by
  intro path hpath
  rw [extnameResult, Option.mem_def.mp hpath, if_neg (by simp), Option.bind_eq_bind, Option.bind_eq_some_iff] at h
  obtain ⟨name, hname, -⟩ := h
  exact isBmp_of_basename hname path hpath

theorem isBmp_of_stemResult {result : Except String String} (h : stemResult self = some result) :
    ∀ path ∈ self.path, IsBmp path := by
  intro path hpath
  rw [stemResult, Option.mem_def.mp hpath, if_neg (by simp), Option.bind_eq_bind, Option.bind_eq_some_iff] at h
  obtain ⟨name, hname, -⟩ := h
  exact isBmp_of_basename hname path hpath

end Components

/-! ## Edits -/

section Edits

variable {β ρ : Type}

def withPath (self : VinylFile β ρ) (path : String) : Option (VinylFile β ρ) := do
  let history ← appendPath self.history path
  some { self with history, relativeCache := none }

def withCwd (self : VinylFile β ρ) (cwd : String) : Option (VinylFile β ρ) := do
  let normalized ← normalizePath cwd
  some { self with
    cwd := normalized
    base := if self.base = self.cwd then normalized else self.base
    relativeCache := none }

def withBase (self : VinylFile β ρ) (base : String) : Option (VinylFile β ρ) := do
  let normalized ← normalizePath base
  some { self with base := normalized, relativeCache := none }

def withBaseDefault (self : VinylFile β ρ) : Option (VinylFile β ρ) := withBase self self.cwd

def withSymlink (self : VinylFile β ρ) (symlink : String) : Option (VinylFile β ρ) := do
  let normalized ← normalizePath symlink
  some { self with symlink := some normalized }

def withDirnameResult (self : VinylFile β ρ) (dirname : String) : Option (Except String (VinylFile β ρ)) := do
  match ← basenameResult self with
  | .ok name =>
      let dir ← normalizePath dirname
      (withPath self (joinPath dir name)).map .ok
  | .error _ => some (.error "No path specified! Can not set dirname.")

def withBasenameResult (self : VinylFile β ρ) (basename : String) : Option (Except String (VinylFile β ρ)) := do
  match ← dirnameResult self with
  | .ok dir => (withPath self (joinPath dir basename)).map .ok
  | .error _ => some (.error "No path specified! Can not set basename.")

def withStemResult (self : VinylFile β ρ) (stem : String) : Option (Except String (VinylFile β ρ)) := do
  match ← extnameResult self with
  | .ok extname => withBasenameResult self (stem ++ extname)
  | .error _ => some (.error "No path specified! Can not set stem.")

def withExtnameResult (self : VinylFile β ρ) (extname : String) : Option (Except String (VinylFile β ρ)) := do
  match ← stemResult self with
  | .ok stem => withBasenameResult self (stem ++ extname)
  | .error _ => some (.error "No path specified! Can not set extname.")

/-- A call `with_*_result` with `unwrap_or(self)`. -/
def orSelf (self : VinylFile β ρ) (result : Option (Except String (VinylFile β ρ))) : Option (VinylFile β ρ) :=
  result.map fun result => VinylFile.unwrapOr result self

def withDirname (self : VinylFile β ρ) (dirname : String) : Option (VinylFile β ρ) :=
  orSelf self (withDirnameResult self dirname)

def withBasename (self : VinylFile β ρ) (basename : String) : Option (VinylFile β ρ) :=
  orSelf self (withBasenameResult self basename)

def withStem (self : VinylFile β ρ) (stem : String) : Option (VinylFile β ρ) :=
  orSelf self (withStemResult self stem)

def withExtname (self : VinylFile β ρ) (extname : String) : Option (VinylFile β ρ) :=
  orSelf self (withExtnameResult self extname)

/-- An edit, unless it aborts. -/
def applyEdit (self : VinylFile Nat Nat) (st : Store) : Edit → Option (VinylFile Nat Nat × Store)
  | .withPath path => (withPath self path).map (·, st)
  | .withCwd cwd => (withCwd self cwd).map (·, st)
  | .withBase base => (withBase self base).map (·, st)
  | .withBaseDefault => (withBaseDefault self).map (·, st)
  | .withContents contents => some (self.withContents contents st)
  | .withSymlink symlink => (withSymlink self symlink).map (·, st)
  | .withSourceMap sourceMap => some (self.withSourceMap sourceMap, st)
  | .withDirname dirname => (withDirname self dirname).map (·, st)
  | .withBasename basename => (withBasename self basename).map (·, st)
  | .withStem stem => (withStem self stem).map (·, st)
  | .withExtname extname => (withExtname self extname).map (·, st)
  | .clone contents deep => some (self.cloneIn contents deep st)

variable {self file : VinylFile β ρ}

theorem eq_of_appendPath {history kept : List String} {path : String}
    (h : appendPath history path = some kept) :
    kept = Vinyl.appendPath history path := by
  rw [appendPath, Option.bind_eq_bind, Option.bind_eq_some_iff] at h
  obtain ⟨normalized, hnormalized, hkept⟩ := h
  rw [Vinyl.appendPath, ← eq_of_normalizePath hnormalized]
  split_ifs at hkept ⊢
  · exact (Option.some.inj hkept).symm
  · exact (Option.some.inj hkept).symm
  · exact (Option.some.inj hkept).symm

theorem eq_of_withPath {path : String} (h : withPath self path = some file) :
    file = self.withPath path := by
  rw [withPath, Option.bind_eq_bind, Option.bind_eq_some_iff] at h
  obtain ⟨history, hhistory, hfile⟩ := h
  rw [VinylFile.withPath, ← eq_of_appendPath hhistory]
  exact (Option.some.inj hfile).symm

theorem eq_of_withCwd {cwd : String} (h : withCwd self cwd = some file) :
    file = self.withCwd cwd := by
  rw [withCwd, Option.bind_eq_bind, Option.bind_eq_some_iff] at h
  obtain ⟨normalized, hnormalized, hfile⟩ := h
  rw [VinylFile.withCwd, ← eq_of_normalizePath hnormalized]
  exact (Option.some.inj hfile).symm

theorem eq_of_withBase {base : String} (h : withBase self base = some file) :
    file = self.withBase base := by
  rw [withBase, Option.bind_eq_bind, Option.bind_eq_some_iff] at h
  obtain ⟨normalized, hnormalized, hfile⟩ := h
  rw [VinylFile.withBase, ← eq_of_normalizePath hnormalized]
  exact (Option.some.inj hfile).symm

theorem eq_of_withSymlink {symlink : String} (h : withSymlink self symlink = some file) :
    file = self.withSymlink symlink := by
  rw [withSymlink, Option.bind_eq_bind, Option.bind_eq_some_iff] at h
  obtain ⟨normalized, hnormalized, hfile⟩ := h
  rw [VinylFile.withSymlink, ← eq_of_normalizePath hnormalized]
  exact (Option.some.inj hfile).symm

variable {result : Except String (VinylFile β ρ)}

theorem eq_of_withDirnameResult {dirname : String}
    (h : withDirnameResult self dirname = some result) :
    result = self.withDirnameResult dirname := by
  rw [withDirnameResult, Option.bind_eq_bind, Option.bind_eq_some_iff] at h
  obtain ⟨name, hname, hfile⟩ := h
  have hbmp := isBmp_of_basenameResult hname
  rw [basenameResult_eq hbmp, Option.some.injEq] at hname
  rw [VinylFile.withDirnameResult, hname]
  cases name with
  | error _ => exact (Option.some.inj hfile).symm
  | ok name =>
      obtain ⟨dir, hdir, hpath⟩ := Option.bind_eq_some_iff.mp hfile
      obtain ⟨file, hrenamed, rfl⟩ := Option.map_eq_some_iff.mp hpath
      dsimp only
      rw [eq_of_withPath hrenamed, eq_of_normalizePath hdir]

theorem eq_of_withBasenameResult {basename : String}
    (h : withBasenameResult self basename = some result) :
    result = self.withBasenameResult basename := by
  rw [withBasenameResult, Option.bind_eq_bind, Option.bind_eq_some_iff] at h
  obtain ⟨dir, hdir, hfile⟩ := h
  have hbmp := isBmp_of_dirnameResult hdir
  rw [dirnameResult_eq hbmp, Option.some.injEq] at hdir
  rw [VinylFile.withBasenameResult, hdir]
  cases dir with
  | error _ => exact (Option.some.inj hfile).symm
  | ok dir =>
      obtain ⟨file, hrenamed, rfl⟩ := Option.map_eq_some_iff.mp hfile
      dsimp only
      rw [eq_of_withPath hrenamed]

theorem eq_of_withStemResult {stem : String} (h : withStemResult self stem = some result) :
    result = self.withStemResult stem := by
  rw [withStemResult, Option.bind_eq_bind, Option.bind_eq_some_iff] at h
  obtain ⟨extname, hextname, hfile⟩ := h
  have hbmp := isBmp_of_extnameResult hextname
  rw [extnameResult_eq hbmp, Option.some.injEq] at hextname
  rw [VinylFile.withStemResult, hextname]
  cases extname with
  | error _ => exact (Option.some.inj hfile).symm
  | ok extname => exact eq_of_withBasenameResult hfile

theorem eq_of_withExtnameResult {extname : String}
    (h : withExtnameResult self extname = some result) :
    result = self.withExtnameResult extname := by
  rw [withExtnameResult, Option.bind_eq_bind, Option.bind_eq_some_iff] at h
  obtain ⟨stem, hstem, hfile⟩ := h
  have hbmp := isBmp_of_stemResult hstem
  rw [stemResult_eq hbmp, Option.some.injEq] at hstem
  rw [VinylFile.withExtnameResult, hstem]
  cases stem with
  | error _ => exact (Option.some.inj hfile).symm
  | ok stem => exact eq_of_withBasenameResult hfile

theorem eq_of_orSelf {sliced : Option (Except String (VinylFile β ρ))}
    {result : Except String (VinylFile β ρ)}
    (hsound : ∀ answer, sliced = some answer → answer = result)
    (h : orSelf self sliced = some file) : file = VinylFile.unwrapOr result self := by
  obtain ⟨answer, hanswer, rfl⟩ := Option.map_eq_some_iff.mp h
  rw [hsound answer hanswer]

end Edits

/-- An edit that does not abort is the edit by characters. -/
theorem eq_of_applyEdit {self file : VinylFile Nat Nat} {st st' : Store} {edit : Edit}
    (h : applyEdit self st edit = some (file, st')) : (file, st') = edit.apply self st := by
  have hpair {made : Option (VinylFile Nat Nat)} (h : made.map (·, st) = some (file, st')) :
      made = some file ∧ st' = st := by
    obtain ⟨_, hmade, heq⟩ := Option.map_eq_some_iff.mp h
    cases heq
    exact ⟨hmade, rfl⟩
  cases edit with
  | withPath path =>
      obtain ⟨hmade, rfl⟩ := hpair h
      rw [eq_of_withPath hmade]
      rfl
  | withCwd cwd =>
      obtain ⟨hmade, rfl⟩ := hpair h
      rw [eq_of_withCwd hmade]
      rfl
  | withBase base =>
      obtain ⟨hmade, rfl⟩ := hpair h
      rw [eq_of_withBase hmade]
      rfl
  | withBaseDefault =>
      obtain ⟨hmade, rfl⟩ := hpair h
      rw [eq_of_withBase hmade]
      rfl
  | withContents contents => exact (Option.some.inj h).symm
  | withSymlink symlink =>
      obtain ⟨hmade, rfl⟩ := hpair h
      rw [eq_of_withSymlink hmade]
      rfl
  | withSourceMap sourceMap => exact (Option.some.inj h).symm
  | withDirname dirname =>
      obtain ⟨hmade, rfl⟩ := hpair h
      rw [eq_of_orSelf (fun _ => eq_of_withDirnameResult) hmade]
      rfl
  | withBasename basename =>
      obtain ⟨hmade, rfl⟩ := hpair h
      rw [eq_of_orSelf (fun _ => eq_of_withBasenameResult) hmade]
      rfl
  | withStem stem =>
      obtain ⟨hmade, rfl⟩ := hpair h
      rw [eq_of_orSelf (fun _ => eq_of_withStemResult) hmade]
      rfl
  | withExtname extname =>
      obtain ⟨hmade, rfl⟩ := hpair h
      rw [eq_of_orSelf (fun _ => eq_of_withExtnameResult) hmade]
      rfl
  | clone contents deep => exact (Option.some.inj h).symm

/-! ## Making files -/

theorem eq_of_normalizeAll {values normalized : List String}
    (h : normalizeAll values = some normalized) :
    normalized = values.map Vinyl.normalizePath := by
  induction values generalizing normalized with
  | nil => exact (Option.some.inj h).symm
  | cons value rest ih =>
      rw [normalizeAll, Option.bind_eq_bind, Option.bind_eq_some_iff] at h
      obtain ⟨first, hfirst, h⟩ := h
      obtain ⟨others, hothers, h⟩ := Option.bind_eq_some_iff.mp h
      rw [List.map_cons, ← ih hothers, ← eq_of_normalizePath hfirst]
      exact (Option.some.inj h).symm

theorem eq_of_finalHistory {path : Option String} {history kept : List String}
    (h : finalHistory path history = some kept) : kept = Vinyl.finalHistory path history := by
  rw [finalHistory, Option.bind_eq_bind, Option.bind_eq_some_iff] at h
  obtain ⟨normalized, hnormalized, h⟩ := h
  unfold Vinyl.finalHistory
  rw [← eq_of_normalizeAll hnormalized]
  cases path with
  | none => exact (Option.some.inj h).symm
  | some value =>
      by_cases hnil : normalized.length = 0
      · simp only [if_pos hnil] at h ⊢
        obtain ⟨first, hfirst, h⟩ := Option.bind_eq_some_iff.mp h
        rw [← eq_of_normalizePath hfirst]
        split_ifs at h ⊢
        · exact (Option.some.inj h).symm
        · exact (Option.some.inj h).symm
      · simp only [if_neg hnil] at h ⊢
        exact eq_of_appendPath h

theorem eq_of_normalizeLink {symlink normalized : Option String}
    (h : normalizeLink symlink = some normalized) :
    normalized = symlink.map Vinyl.normalizePath := by
  cases symlink with
  | none => exact (Option.some.inj h).symm
  | some value =>
      obtain ⟨target, htarget, rfl⟩ := Option.map_eq_some_iff.mp h
      rw [eq_of_normalizePath htarget, Option.map_some]

/-- A vinyl file that is made is the one by characters. -/
theorem eq_of_vinylFile {args : VinylFileArgs} {st st' : Store} {file : VinylFile Nat Nat}
    (h : vinylFile args st = some (file, st')) : (file, st') = Vinyl.vinylFile args st := by
  rw [vinylFile, Option.bind_eq_bind, Option.bind_eq_some_iff] at h
  obtain ⟨cwd, hcwd, h⟩ := h
  obtain ⟨base, hbase, h⟩ := Option.bind_eq_some_iff.mp h
  obtain ⟨history, hhistory, h⟩ := Option.bind_eq_some_iff.mp h
  obtain ⟨symlink, hsymlink, h⟩ := Option.bind_eq_some_iff.mp h
  rw [Vinyl.vinylFile, ← eq_of_normalizePath hcwd, ← eq_of_normalizePath hbase,
    ← eq_of_finalHistory hhistory, ← eq_of_normalizeLink hsymlink]
  exact (Option.some.inj h).symm

/-! ### When a file is made -/

theorem exists_normalizeAll {values : List String} :
    (∃ normalized, normalizeAll values = some normalized) ↔
      ∀ value ∈ values, normalizePath value ≠ none := by
  induction values with
  | nil => exact iff_of_true ⟨[], rfl⟩ nofun
  | cons value rest ih =>
      rw [List.forall_mem_cons, ← ih, normalizeAll]
      constructor
      · intro h
        obtain ⟨normalized, h⟩ := h
        obtain ⟨first, hfirst, h⟩ := Option.bind_eq_some_iff.mp h
        obtain ⟨others, hothers, -⟩ := Option.bind_eq_some_iff.mp h
        exact ⟨Option.ne_none_iff_exists'.mpr ⟨first, hfirst⟩, others, hothers⟩
      · intro h
        obtain ⟨hfirst, others, hothers⟩ := h
        obtain ⟨first, hfirst⟩ := Option.ne_none_iff_exists'.mp hfirst
        exact exists_bind hfirst (exists_bind hothers ⟨_, rfl⟩)

theorem exists_appendPath {history : List String} {path : String} :
    (∃ kept, appendPath history path = some kept) ↔ normalizePath path ≠ none := by
  rw [appendPath, Option.ne_none_iff_exists']
  constructor
  · intro h
    obtain ⟨kept, h⟩ := h
    obtain ⟨normalized, hnormalized, -⟩ := Option.bind_eq_some_iff.mp h
    exact ⟨normalized, hnormalized⟩
  · intro h
    obtain ⟨normalized, hnormalized⟩ := h
    refine exists_bind hnormalized ?_
    split_ifs
    · exact ⟨_, rfl⟩
    · exact ⟨_, rfl⟩
    · exact ⟨_, rfl⟩

/-- The history is made if its paths and the path after them can be normalized. -/
theorem exists_finalHistory {path : Option String} {history : List String} :
    (∃ kept, finalHistory path history = some kept) ↔
      ∀ value ∈ path.toList ++ history, normalizePath value ≠ none := by
  rw [List.forall_mem_append, and_comm, ← exists_normalizeAll]
  cases path with
  | none =>
      refine (and_iff_left nofun).symm.trans (and_congr_left fun _ => ?_)
      rw [show finalHistory none history = normalizeAll history >>= some from rfl,
        Option.bind_eq_bind, Option.bind_fun_some]
  | some value =>
      rw [Option.toList_some, List.forall_mem_singleton]
      -- either branch normalizes the path
      have hbranch (normalized : List String) :
          (∃ kept, (if normalized.length = 0 then do
              let normalized ← normalizePath value
              if normalized = "" then some [] else some [normalized]
            else appendPath normalized value) = some kept) ↔ normalizePath value ≠ none := by
        split_ifs
        · rw [Option.ne_none_iff_exists']
          constructor
          · intro h
            obtain ⟨kept, h⟩ := h
            obtain ⟨first, hfirst, -⟩ := Option.bind_eq_some_iff.mp h
            exact ⟨first, hfirst⟩
          · intro h
            obtain ⟨first, hfirst⟩ := h
            refine exists_bind hfirst ?_
            split_ifs
            · exact ⟨_, rfl⟩
            · exact ⟨_, rfl⟩
        · exact exists_appendPath
      constructor
      · intro h
        obtain ⟨kept, h⟩ := h
        obtain ⟨normalized, hnormalized, h⟩ := Option.bind_eq_some_iff.mp h
        exact ⟨⟨normalized, hnormalized⟩, (hbranch normalized).mp ⟨kept, h⟩⟩
      · intro h
        obtain ⟨⟨normalized, hnormalized⟩, h⟩ := h
        exact exists_bind hnormalized ((hbranch normalized).mpr h)

theorem exists_normalizeLink {symlink : Option String} :
    (∃ normalized, normalizeLink symlink = some normalized) ↔
      ∀ value ∈ symlink.toList, normalizePath value ≠ none := by
  cases symlink with
  | none => exact iff_of_true ⟨none, rfl⟩ nofun
  | some value =>
      rw [Option.toList_some, List.forall_mem_singleton, Option.ne_none_iff_exists', normalizeLink]
      constructor
      · intro h
        obtain ⟨normalized, h⟩ := h
        obtain ⟨target, htarget, -⟩ := Option.map_eq_some_iff.mp h
        exact ⟨target, htarget⟩
      · intro h
        obtain ⟨target, htarget⟩ := h
        exact ⟨some target, by rw [htarget]; rfl⟩

/-- A vinyl file is made exactly when each text that it is given can be normalized. -/
theorem exists_vinylFile {args : VinylFileArgs} {st : Store} :
    (∃ made, vinylFile args st = some made) ↔ ∀ text ∈ texts args, normalizePath text ≠ none := by
  rw [texts, List.forall_mem_cons, List.forall_mem_cons, List.forall_mem_append,
    ← exists_finalHistory, ← exists_normalizeLink, Option.ne_none_iff_exists',
    Option.ne_none_iff_exists']
  constructor
  · intro h
    obtain ⟨made, h⟩ := h
    obtain ⟨cwd, hcwd, h⟩ := Option.bind_eq_some_iff.mp h
    obtain ⟨base, hbase, h⟩ := Option.bind_eq_some_iff.mp h
    obtain ⟨history, hhistory, h⟩ := Option.bind_eq_some_iff.mp h
    obtain ⟨symlink, hsymlink, -⟩ := Option.bind_eq_some_iff.mp h
    exact ⟨⟨cwd, hcwd⟩, ⟨base, hbase⟩, ⟨history, hhistory⟩, symlink, hsymlink⟩
  · intro h
    obtain ⟨⟨cwd, hcwd⟩, ⟨base, hbase⟩, ⟨history, hhistory⟩, symlink, hsymlink⟩ := h
    exact exists_bind hcwd (exists_bind hbase (exists_bind hhistory (exists_bind hsymlink ⟨_, rfl⟩)))

end Mulp.Vinyl.Sliced
