import Mulp.Vinyl.Edits
import Mulp.Vinyl.Relative

/-! The vinyl files of a program and what `relative()` says of them (`vinyl/file.mbt`).

A vinyl file is immutable but for the cache of `relative`, which is copied or
dropped when another file is made of it. -/
namespace Mulp.Vinyl

open Mulp.Text

namespace Sliced

/-! ## `relative` -/

section Relative

variable {β ρ : Type}

/-- `VinylFile::relative`, without the cache it fills. -/
def relative (self : VinylFile β ρ) : Option String :=
  (relativeResult self).map fun result => VinylFile.unwrapOr result ""

/-- The file after a call of `relative`: it is another value with the same fields, for the cache is
all that a call changes. -/
def cached (self : VinylFile β ρ) : Option (VinylFile β ρ) :=
  match self.relativeCache, self.path with
  | none, some path => (relativeBetween self.base path).map fun value => { self with relativeCache := some value }
  | _, _ => some self

/-- The relative path from scratch: what `relative` would answer if nothing were in the cache. -/
def recomputed (self : VinylFile β ρ) : Option (Except String String) :=
  match self.path with
  | none => some (.error "No path specified! Can not get relative.")
  | some path => (relativeBetween self.base path).map .ok

/-- What is in the cache is the relative path. The cache is written by `relative` alone, and a file
that is made from another one keeps it only where neither the base nor the path has changed. -/
def CacheFresh (self : VinylFile β ρ) : Prop :=
  ∀ value ∈ self.relativeCache, ∃ path ∈ self.path, relativeBetween self.base path = some value

/-- The path comes back when the relative path is joined to the base. Normalizing is part of it,
since a relative path may go up from the base. -/
def Rejoins (self : VinylFile β ρ) (path : String) : Prop :=
  ∃ rel, relative self = some rel ∧ normalizePath (rejoined self.base rel) = some path

variable {self file : VinylFile β ρ}

theorem CacheFresh.relativeResult_eq (h : CacheFresh self) :
    relativeResult self = recomputed self := by
  rw [relativeResult, recomputed]
  cases hcache : self.relativeCache with
  | none => rfl
  | some value =>
      obtain ⟨path, hpath, hvalue⟩ := h value hcache
      rw [Option.mem_def.mp hpath]
      simp only [hvalue, Option.map_some]

/-- A file made with an empty cache. -/
theorem cacheFresh_of_none (h : self.relativeCache = none) : CacheFresh self := by
  intro value hvalue
  rw [h] at hvalue
  cases hvalue

/-- A file made with the cache of another one that has the base and the path. -/
theorem CacheFresh.copy (h : CacheFresh self) (hcache : file.relativeCache = self.relativeCache)
    (hbase : file.base = self.base) (hhistory : file.history = self.history) : CacheFresh file := by
  intro value hvalue
  rw [hcache] at hvalue
  obtain ⟨path, hpath, hrelative⟩ := h value hvalue
  refine ⟨path, ?_, ?_⟩
  · rwa [VinylFile.path, hhistory]
  · rwa [hbase]

theorem CacheFresh.cached (h : CacheFresh self) (hfile : cached self = some file) :
    CacheFresh file := by
  rw [Sliced.cached] at hfile
  split at hfile
  · rename_i path _ hpath
    obtain ⟨value, hvalue, rfl⟩ := Option.map_eq_some_iff.mp hfile
    rintro _ (rfl | _)
    exact ⟨path, hpath, hvalue⟩
  · exact Option.some.inj hfile ▸ h

theorem normalized_cached (h : Normalized self) (hfile : Sliced.cached self = some file) :
    Normalized file := by
  rw [Sliced.cached] at hfile
  split at hfile
  · obtain ⟨value, -, rfl⟩ := Option.map_eq_some_iff.mp hfile
    exact ⟨h.cwd, h.base, h.symlink, h.history⟩
  · exact Option.some.inj hfile ▸ h

end Relative

theorem cacheFresh_orSelf {β ρ : Type} {self file : VinylFile β ρ} (h : CacheFresh self)
    {result : Except String (VinylFile β ρ)} (hfile : file = VinylFile.unwrapOr result self)
    (hresult : ∀ file, result = .ok file → ∃ path, file = self.withPath path) :
    CacheFresh file := by
  rcases renamed_unwrapOr hresult with hself | ⟨path, hpath⟩
  · rw [hfile, hself]
    exact h
  · rw [hfile, hpath]
    exact cacheFresh_of_none rfl

/-- An edit drops the cache or keeps the base and the path. -/
theorem CacheFresh.applyEdit {self file : VinylFile Nat Nat} {st st' : Store} {edit : Edit}
    (h : CacheFresh self) (hedit : applyEdit self st edit = some (file, st')) :
    CacheFresh file := by
  have hfile : file = (edit.apply self st).1 := congrArg Prod.fst (eq_of_applyEdit hedit)
  cases edit with
  | withPath path => exact hfile ▸ cacheFresh_of_none rfl
  | withCwd cwd => exact hfile ▸ cacheFresh_of_none rfl
  | withBase base => exact hfile ▸ cacheFresh_of_none rfl
  | withBaseDefault => exact hfile ▸ cacheFresh_of_none rfl
  | withContents contents => exact hfile ▸ h.copy rfl rfl rfl
  | withSymlink symlink => exact hfile ▸ h.copy rfl rfl rfl
  | withSourceMap sourceMap => exact hfile ▸ h.copy rfl rfl rfl
  | withDirname dirname => exact cacheFresh_orSelf h hfile fun _ => withDirnameResult_ok
  | withBasename basename => exact cacheFresh_orSelf h hfile fun _ => withBasenameResult_ok
  | withStem stem => exact cacheFresh_orSelf h hfile fun _ => withStemResult_ok
  | withExtname extname => exact cacheFresh_orSelf h hfile fun _ => withExtnameResult_ok
  | clone contents deep =>
      have hkept : (self.cloneIn contents deep st).1.relativeCache = self.relativeCache ∧
          (self.cloneIn contents deep st).1.base = self.base ∧
          (self.cloneIn contents deep st).1.history = self.history := by
        simp only [VinylFile.cloneIn]
        split
        · exact ⟨rfl, rfl, rfl⟩
        · split_ifs <;> exact ⟨rfl, rfl, rfl⟩
        · exact ⟨rfl, rfl, rfl⟩
      exact hfile ▸ h.copy hkept.1 hkept.2.1 hkept.2.2

/-! ## The files of a program -/

/-- All vinyl files so far, by number, and the objects they share. -/
structure Files where
  files : List (VinylFile Nat Nat)
  store : Store

inductive FileOp where
  | make (args : VinylFileArgs)
  | edit (file : Nat) (edit : Edit)
  | relative (file : Nat)

namespace Files

def empty : Files := ⟨[], .empty⟩

/-- A call, unless it aborts. A file that `unwrap_or(self)` gives back is another file here:
it has no path, so that no call fills its cache. -/
def apply (s : Files) : FileOp → Option Files
  | .make args => do
      let (file, store) ← vinylFile args s.store
      some ⟨s.files ++ [file], store⟩
  | .edit i edit =>
      match s.files[i]? with
      | some file => do
          let (made, store) ← applyEdit file s.store edit
          some ⟨s.files ++ [made], store⟩
      | none => some s
  | .relative i =>
      match s.files[i]? with
      | some file => do
          let file ← cached file
          some { s with files := s.files.set i file }
      | none => some s

def run : List FileOp → Files → Option Files
  | [], s => some s
  | op :: ops, s => (s.apply op).bind (run ops)

/-- Every file is normalized and has a cache that holds its relative path. What makes the one true
of a new file needs the other of the file it is made from, so they are one invariant. -/
def Good (s : Files) : Prop := ∀ file ∈ s.files, Normalized file ∧ CacheFresh file

theorem good_empty : empty.Good := fun _ hfile => absurd hfile List.not_mem_nil

theorem Good.push {s : Files} (h : s.Good) {file : VinylFile Nat Nat}
    (hfile : Normalized file ∧ CacheFresh file) (store : Store) :
    Good ⟨s.files ++ [file], store⟩ := by
  intro other hother
  rcases List.mem_append.mp hother with hother | hother
  · exact h other hother
  · exact List.mem_singleton.mp hother ▸ hfile

theorem Good.apply {s s' : Files} (h : s.Good) {op : FileOp} (hop : s.apply op = some s') :
    s'.Good := by
  cases op with
  | make args =>
      obtain ⟨⟨file, store⟩, hmade, hs'⟩ := Option.bind_eq_some_iff.mp hop
      cases hs'
      have hfile : file = (Vinyl.vinylFile args s.store).1 :=
        congrArg Prod.fst (eq_of_vinylFile hmade)
      exact h.push (hfile ▸ ⟨normalized_vinylFile args s.store, cacheFresh_of_none rfl⟩) store
  | edit i edit =>
      rw [Files.apply] at hop
      split at hop
      · rename_i file hfile
        obtain ⟨hnormalized, hfresh⟩ := h file (List.mem_of_getElem? hfile)
        obtain ⟨⟨made, store⟩, hmade, hs'⟩ := Option.bind_eq_some_iff.mp hop
        cases hs'
        have hedited : made = (edit.apply file s.store).1 :=
          congrArg Prod.fst (eq_of_applyEdit hmade)
        exact h.push ⟨hedited ▸ edit.normalized_apply hnormalized s.store,
          hfresh.applyEdit hmade⟩ store
      · cases hop
        exact h
  | relative i =>
      rw [Files.apply] at hop
      split at hop
      · rename_i file hfile
        obtain ⟨hnormalized, hfresh⟩ := h file (List.mem_of_getElem? hfile)
        obtain ⟨filled, hfilled, hs'⟩ := Option.bind_eq_some_iff.mp hop
        cases hs'
        intro other hother
        rcases List.mem_or_eq_of_mem_set hother with hother | rfl
        · exact h other hother
        · exact ⟨normalized_cached hnormalized hfilled, hfresh.cached hfilled⟩
      · cases hop
        exact h

theorem Good.run {ops : List FileOp} {s s' : Files} (h : s.Good)
    (hrun : Files.run ops s = some s') : s'.Good := by
  induction ops generalizing s with
  | nil => exact Option.some.inj hrun ▸ h
  | cons op ops ih =>
      obtain ⟨next, hnext, hrest⟩ := Option.bind_eq_some_iff.mp hrun
      exact ih (h.apply hnext) hrest

end Files

/-! ## The inverse -/

section Inverse

variable {base path : String}

theorem relativeBetween_fast (hroot : base ≠ "/") (rest : String) :
    relativeBetween base (base ++ "/" ++ rest) = some rest := by
  have hne : base ++ "/" ++ rest ≠ base := by
    intro hsame
    have hlength := congrArg (fun text => text.toList.length) hsame
    simp at hlength
  have hinside : hasPrefix (base ++ "/" ++ rest) (base ++ "/") = true :=
    hasPrefix_iff.mpr ⟨rest, rfl⟩
  have hunits : unitLength (base ++ "/") = unitLength base + 1 := unitLength_append base "/"
  rw [relativeBetween, if_neg hne, if_pos (by simp [hroot, hinside])]
  exact slice_eq_some_iff.mpr ⟨base ++ "/", "", by rw [String.append_empty], hunits, rfl⟩

/-- In the slow path the function returns if both paths can be normalized. -/
theorem relativeBetween_slow (hne : path ≠ base)
    (hinside : ¬ (base ≠ "/" ∧ ∃ rest, path = base ++ "/" ++ rest)) {rel : String} :
    relativeBetween base path = some rel ↔
      ((∃ r, normalizePath base = some r) ∧ ∃ r, normalizePath path = some r) ∧
        joinSlash (relativeParts base path) = rel := by
  have hslow : ¬ (decide (base ≠ "/") && hasPrefix path (base ++ "/")) = true := by
    intro hfast
    rw [Bool.and_eq_true, decide_eq_true_eq] at hfast
    exact hinside ⟨hfast.1, hasPrefix_iff.mp hfast.2⟩
  have hparts {value : String} {parts : List String} :
      pathParts value = some parts ↔
      (∃ r, normalizePath value = some r) ∧ Vinyl.pathParts value = parts := by
    rw [pathParts, Option.bind_eq_bind, Option.bind_eq_some_iff]
    constructor
    · rintro ⟨r, hr, hparts⟩
      rw [Vinyl.pathParts, ← eq_of_normalizePath hr]
      exact ⟨⟨r, hr⟩, Option.some.inj hparts⟩
    · rintro ⟨⟨r, hr⟩, rfl⟩
      rw [Vinyl.pathParts, ← eq_of_normalizePath hr]
      exact ⟨r, hr, rfl⟩
  rw [relativeBetween, if_neg hne, if_neg hslow, Option.bind_eq_bind, Option.bind_eq_some_iff]
  constructor
  · rintro ⟨baseParts, hbase, h⟩
    obtain ⟨parts, hpath, h⟩ := Option.bind_eq_some_iff.mp h
    obtain ⟨hbaseReturns, rfl⟩ := hparts.mp hbase
    obtain ⟨hpathReturns, rfl⟩ := hparts.mp hpath
    exact ⟨⟨hbaseReturns, hpathReturns⟩, Option.some.inj h⟩
  · rintro ⟨⟨hbase, hpath⟩, rfl⟩
    refine ⟨_, hparts.mpr ⟨hbase, rfl⟩, ?_⟩
    rw [hparts.mpr ⟨hpath, rfl⟩]
    rfl

/-- A relative path that is found is the one by characters. -/
theorem eq_of_relativeBetween {rel : String} (h : relativeBetween base path = some rel) :
    rel = Vinyl.relativeBetween base path := by
  by_cases hsame : path = base
  · rw [relativeBetween, if_pos hsame] at h
    rw [Vinyl.relativeBetween, if_pos hsame]
    exact (Option.some.inj h).symm
  by_cases hinside : base ≠ "/" ∧ ∃ rest, path = base ++ "/" ++ rest
  · obtain ⟨hroot, rest, rfl⟩ := hinside
    rw [relativeBetween_fast hroot] at h
    rw [Vinyl.relativeBetween_fast hroot]
    exact (Option.some.inj h).symm
  · rw [Vinyl.relativeBetween_slow hsame hinside]
    exact ((relativeBetween_slow hsame hinside).mp h).2.symm

theorem eq_of_relative {β ρ : Type} {self : VinylFile β ρ} {rel : String}
    (h : relative self = some rel) : rel = self.relative := by
  obtain ⟨result, hresult, rfl⟩ := Option.map_eq_some_iff.mp h
  have heq : result = self.relativeResult := by
    rw [relativeResult] at hresult
    rw [VinylFile.relativeResult]
    cases hcache : self.relativeCache with
    | some value =>
        rw [hcache] at hresult
        exact (Option.some.inj hresult).symm
    | none =>
        rw [hcache] at hresult
        cases hpath : self.path with
        | none =>
            rw [hpath] at hresult
            exact (Option.some.inj hresult).symm
        | some path =>
            rw [hpath] at hresult
            obtain ⟨value, hvalue, rfl⟩ := Option.map_eq_some_iff.mp hresult
            rw [eq_of_relativeBetween hvalue]
  rw [heq, VinylFile.relative]

/-- A canonical path that begins with `..` and goes on. -/
theorem pathParts_dots {rest : String}
    (hnormal : Vinyl.normalizePath ("../" ++ rest) = "../" ++ rest) :
    ∃ others, others ≠ [] ∧ Vinyl.pathParts ("../" ++ rest) = ".." :: others := by
  have hsplit : splitSlash ("../" ++ rest) = ".." :: splitSlash rest := splitSlash_append ".." rest
  have hparts : Vinyl.pathParts ("../" ++ rest) =
      ".." :: (splitSlash rest).filter fun part => part ≠ "" && part ≠ "." := by
    rw [Vinyl.pathParts, hnormal, hsplit]
    rfl
  refine ⟨_, fun hnil => ?_, hparts⟩
  have hne : "../" ++ rest ≠ "" := by
    rw [ne_eq, String.append_eq_empty_iff]
    exact fun hempty => absurd hempty.1 (by decide)
  -- the shortest path would be `..` alone
  have hrelative : (location ("../" ++ rest)).rooted = false := hasPrefix_append (by decide) rest
  have htext := text_location hnormal hne
  rw [pathParts_location, hnil] at hparts
  rw [Location.text, hrelative, hparts] at htext
  have hlength := congrArg (fun text => text.toList.length) htext
  simp at hlength

theorem commonLength_dots {baseParts : List String} (h : ".." ∉ baseParts) (others : List String) :
    commonLength baseParts (".." :: others) = 0 := by
  cases baseParts with
  | nil => rfl
  | cons basePart baseParts =>
      rw [commonLength, if_neg]
      rintro rfl
      exact h List.mem_cons_self

theorem isBmp_relativeBetween (hpath : IsBmp path) :
    IsBmp (Vinyl.relativeBetween base path) := by
  rw [Vinyl.relativeBetween]
  split_ifs
  · exact (by decide : IsBmp "")
  · refine hpath.of_subset ?_
    rw [String.toList_ofList]
    exact List.drop_subset _ _
  · refine IsBmp.joinSlash fun part hpart => ?_
    rcases List.mem_append.mp hpart with hups | hrest
    · exact List.eq_of_mem_replicate hups ▸ (by decide : IsBmp "..")
    · exact (isBmp_normalizePath hpath).of_mem_splitSlash
        (List.mem_of_mem_filter (List.mem_of_mem_drop hrest))

theorem isBmp_rejoined (hbase : IsBmp base) (hpath : IsBmp path) :
    IsBmp (rejoined base (Vinyl.relativeBetween base path)) := by
  have hslash : IsBmp "/" := by decide
  have hrel := @isBmp_relativeBetween base path hpath
  rw [rejoined, joinPath]
  split_ifs
  · exact hbase
  · exact hslash.append hrel
  · exact hbase.append hrel
  · exact (hbase.append hslash).append hrel

/-- Behind a base without pairs, `..` stops the scan. -/
theorem normalizePath_dots_returns (hbmp : IsBmp base) (hne : base ≠ "") {others : List String}
    (hothers : others ≠ []) (hmem : ∀ part ∈ ".." :: others, NoSlash part ∧ part ≠ "") :
    ∃ r, normalizePath (base ++ "/" ++ ("../" ++ joinSlash others)) = some r := by
  have hlast : (splitSlash (base ++ "/" ++ ("../" ++ joinSlash others))).getLast? ≠ some "" := by
    have hcons : "../" ++ joinSlash others = joinSlash (".." :: others) :=
      (joinSlash_cons ".." hothers).symm
    rw [splitSlash_append, hcons, splitSlash_joinSlash (List.cons_ne_nil _ _)
      fun part hpart => (hmem part hpart).1,
      List.getLast?_append_of_ne_nil _ (List.cons_ne_nil _ _)]
    exact fun hlast => (hmem "" (List.mem_of_getLast? hlast)).2 rfl
  have hjoinedne : base ++ "/" ++ ("../" ++ joinSlash others) ≠ "" := by
    rw [ne_eq, String.append_eq_empty_iff, String.append_eq_empty_iff]
    exact fun hempty => hne hempty.1.1
  have hchars : (base ++ "/" ++ ("../" ++ joinSlash others)).toList =
      base.toList ++ '/' :: '.' :: '.' :: '/' :: (joinSlash others).toList := by simp
  rw [normalizePath_scan hjoinedne, trimTrailingSlash_of_last hlast,
    pathNeedsNormalize_scan, hchars]
  obtain ⟨b, hb⟩ := scanFrom_dots hbmp _ 0 [] (joinSlash others).toList
  rw [hb]
  exact ⟨_, rfl⟩

/-- A path that begins with `..` is outside of a base that it can be compared with. -/
theorem outside_of_dots (h : Comparable base path) {rest : String} (hrest : path = "../" ++ rest) :
    base ≠ "/" ∧ path ≠ base ∧ ¬ (base ≠ "/" ∧ ∃ rest, path = base ++ "/" ++ rest) := by
  have hsplit : splitSlash path = ".." :: splitSlash rest := hrest ▸ splitSlash_append ".." rest
  -- both are relative, and the base has no `..`
  obtain ⟨hroot, hdots⟩ : base ≠ "/" ∧ ".." ∉ splitSlash base := by
    rcases h with ⟨-, habsolute⟩ | ⟨⟨hrelative, -⟩, -, hdots⟩
    · have hstart : hasPrefix ("../" ++ rest) "/" = false := hasPrefix_append (by decide) rest
      rw [hrest, hstart] at habsolute
      cases habsolute
    · refine ⟨?_, hdots⟩
      rintro rfl
      cases hrelative
  refine ⟨hroot, ?_, ?_⟩
  · rintro rfl
    rw [hsplit] at hdots
    exact hdots List.mem_cons_self
  · rintro ⟨-, more, hmore⟩
    rw [hmore, splitSlash_append] at hsplit
    obtain ⟨first, segments, hcons⟩ := List.exists_cons_of_ne_nil (splitSlash_ne_nil base)
    rw [hcons, List.cons_append] at hsplit
    exact hdots (hcons ▸ (List.cons.inj hsplit).1 ▸ List.mem_cons_self)

variable (hbase : Vinyl.normalizePath base = base) (hpath : Vinyl.normalizePath path = path)
  (h : Comparable base path)

include hbase h

theorem not_dots_base : ".." ∉ Vinyl.pathParts base := by
  intro hdots
  rw [pathParts_location, Location.parts, ups_of_comparable hbase h] at hdots
  exact ((location_proper base).names ".." hdots).ne_dots rfl

theorem base_returns_iff : (∃ r, normalizePath base = some r) ↔ IsBmp base := by
  rw [normalizePath_returns_iff hbase, or_iff_left]
  intro hprefix
  obtain ⟨rest, rfl⟩ := hasPrefix_iff.mp hprefix
  obtain ⟨others, -, hparts⟩ := pathParts_dots hbase
  exact not_dots_base hbase h (hparts ▸ List.mem_cons_self)

include hpath

/-- The relative path of one that begins with `..`. -/
theorem relativeParts_dots {rest : String} (hrest : path = "../" ++ rest) :
    ∃ others, others ≠ [] ∧ relativeParts base path = ".." :: others := by
  rw [hrest] at hpath
  obtain ⟨others, hne, hparts⟩ := pathParts_dots hpath
  rw [relativeParts, hrest, hparts, commonLength_dots (not_dots_base hbase h), List.drop_zero]
  cases (Vinyl.pathParts base).length with
  | zero => exact ⟨others, hne, rfl⟩
  | succ n => exact ⟨List.replicate n ".." ++ ".." :: others, by simp, rfl⟩

/-- What the scans must get through. -/
theorem isBmp_of_rejoined {rel : String} (hrel : relativeBetween base path = some rel)
    (hjoin : normalizePath (rejoined base rel) = some path) :
    IsBmp base ∧ (IsBmp path ∨ hasPrefix path "../" = true) := by
  have hbmp : IsBmp base := by
    by_contra hbmp
    have hnone : normalizePath base = none :=
      Option.eq_none_iff_forall_ne_some.mpr fun r hr => hbmp ((base_returns_iff hbase h).mp ⟨r, hr⟩)
    rw [rejoined] at hjoin
    split_ifs at hjoin with hempty
    · rw [hnone] at hjoin
      cases hjoin
    · have hroot : base ≠ "/" := by
        rintro rfl
        exact hbmp (by decide)
      obtain ⟨rest, hrest, hjoined⟩ := joinPath_append hroot hempty
      rw [hjoined, normalizePath_none_append hbase hnone hrest] at hjoin
      cases hjoin
  refine ⟨hbmp, (normalizePath_returns_iff hpath).mp ?_⟩
  by_cases hsame : path = base
  · exact hsame ▸ ⟨_, normalizePath_eq hbmp⟩
  by_cases hinside : base ≠ "/" ∧ ∃ rest, path = base ++ "/" ++ rest
  · -- the joined path is the path itself
    obtain ⟨hroot, rest, hrest⟩ := hinside
    have hne := (ne_empty_of_comparable h).1
    rw [hrest, relativeBetween_fast hroot, Option.some.injEq] at hrel
    rw [← hrel, rejoined] at hjoin
    split_ifs at hjoin with hempty
    · rw [hrest, hempty, String.append_empty]
      exact ⟨_, normalizePath_eq (hbmp.append (by decide))⟩
    · rw [joinPath_normal hbase hne hroot, ← hrest] at hjoin
      exact ⟨path, hjoin⟩
  · exact ((relativeBetween_slow hsame hinside).mp hrel).1.2

theorem returns_dots (hbmp : IsBmp base) (hups : hasPrefix path "../" = true) :
    relativeBetween base path = some (Vinyl.relativeBetween base path) ∧
      ∃ r, normalizePath (rejoined base (Vinyl.relativeBetween base path)) = some r := by
  obtain ⟨rest, hrest⟩ := hasPrefix_iff.mp hups
  obtain ⟨others, hothers, hparts⟩ := relativeParts_dots hbase hpath h hrest
  obtain ⟨hroot, hsame, hinside⟩ := outside_of_dots h hrest
  have hne := (ne_empty_of_comparable h).1
  have hrel : Vinyl.relativeBetween base path = "../" ++ joinSlash others := by
    rw [Vinyl.relativeBetween_slow hsame hinside, hparts, joinSlash_cons ".." hothers]
    rfl
  constructor
  · refine (relativeBetween_slow hsame hinside).mpr ⟨⟨⟨_, normalizePath_eq hbmp⟩, ?_⟩, ?_⟩
    · exact (normalizePath_returns_iff hpath).mpr (.inr hups)
    · exact (Vinyl.relativeBetween_slow hsame hinside).symm
  · have hrelne : Vinyl.relativeBetween base path ≠ "" := by
      rw [hrel, ne_eq, String.append_eq_empty_iff]
      exact fun hempty => absurd hempty.1 (by decide)
    rw [rejoined, if_neg hrelne, joinPath_normal hbase hne hroot, hrel]
    exact normalizePath_dots_returns hbmp hne hothers fun part hpart => mem_relativeParts
      (hparts ▸ hpart)

/-- The path comes back exactly when the scans get as far as they must. -/
theorem rejoins_iff :
    (∃ rel, relativeBetween base path = some rel ∧ normalizePath (rejoined base rel) = some path) ↔
      IsBmp base ∧ (IsBmp path ∨ hasPrefix path "../" = true) := by
  constructor
  · rintro ⟨rel, hrel, hjoin⟩
    exact isBmp_of_rejoined hbase hpath h hrel hjoin
  · rintro ⟨hbmp, hcases⟩
    have hreturns : relativeBetween base path = some (Vinyl.relativeBetween base path) ∧
        ∃ r, normalizePath (rejoined base (Vinyl.relativeBetween base path)) = some r := by
      rcases hcases with hpathBmp | hups
      · exact ⟨relativeBetween_eq hbmp hpathBmp, _, normalizePath_eq (isBmp_rejoined hbmp hpathBmp)⟩
      · exact returns_dots hbase hpath h hbmp hups
    obtain ⟨hrel, r, hr⟩ := hreturns
    refine ⟨_, hrel, ?_⟩
    rw [hr, eq_of_normalizePath hr, normalizePath_rejoined hbase hpath h]

end Inverse

/-- The relative path of the file leads back to its path. -/
def Inverse {β ρ : Type} (self : VinylFile β ρ) : Prop :=
  ∀ path ∈ self.path, Comparable self.base path → Rejoins self path

theorem inverse_iff {β ρ : Type} {self : VinylFile β ρ} (hnormalized : Normalized self)
    (hfresh : CacheFresh self) :
    Inverse self ↔ ∀ path ∈ self.path, Comparable self.base path →
      IsBmp self.base ∧ (IsBmp path ∨ hasPrefix path "../" = true) := by
  refine forall₂_congr fun path hpath => forall_congr' fun h => ?_
  have hnormal : Vinyl.normalizePath path = path :=
    hnormalized.history path (List.mem_of_getLast? (Option.mem_def.mp hpath))
  have hrelative : relative self = relativeBetween self.base path := by
    have hresult : recomputed self = (relativeBetween self.base path).map .ok := by
      rw [recomputed, Option.mem_def.mp hpath]
    rw [relative, hfresh.relativeResult_eq, hresult]
    cases relativeBetween self.base path <;> rfl
  rw [Rejoins, hrelative]
  exact rejoins_iff hnormalized.base hnormal h

/-- In every run that does not abort, `relative()` answers the relative path from scratch, and
it leads back to the path unless one of the two has a pair that a scan gets to. -/
theorem relative_run_iff {ops : List FileOp} {s : Files} (hrun : Files.run ops .empty = some s)
    {file : VinylFile Nat Nat} (hfile : file ∈ s.files) :
    relativeResult file = recomputed file ∧
      (Inverse file ↔ ∀ path ∈ file.path, Comparable file.base path →
        IsBmp file.base ∧ (IsBmp path ∨ hasPrefix path "../" = true)) := by
  obtain ⟨hnormalized, hfresh⟩ := Files.good_empty.run hrun file hfile
  exact ⟨hfresh.relativeResult_eq, inverse_iff hnormalized hfresh⟩

/-- A file with a filled cache is given another base. -/
def movedOps : List FileOp :=
  [.make { cwd := "/w", path := some "/w/a" }, .relative 0, .edit 0 (.withBase "/")]

theorem relative_run_moved :
    ∃ s, Files.run movedOps .empty = some s ∧ ∃ file ∈ s.files, file.base = "/" ∧
      relativeResult file = recomputed file ∧ Inverse file := by
  refine ⟨_, rfl, _, List.mem_cons_of_mem _ List.mem_cons_self, rfl, ?_⟩
  have hmoved := @relative_run_iff movedOps _ rfl _ (List.mem_cons_of_mem _ List.mem_cons_self)
  refine ⟨hmoved.1, hmoved.2.mpr ?_⟩
  rintro path hpath -
  obtain rfl : "/w/a" = path := Option.some.inj hpath
  exact ⟨(by decide : IsBmp "/"), .inl (by decide)⟩

/-- A path that is made of a longer one, and that no scan gets through. -/
theorem not_inverse_pair :
    ¬ ∀ ops s, Files.run ops .empty = some s → ∀ file ∈ s.files,
      relativeResult file = recomputed file ∧ Inverse file := by
  intro h
  have hfile := h [.make { cwd := ".", path := some "./😀" }] _ rfl _ List.mem_cons_self
  have hbmp := (inverse_iff (normalized_vinylFile { cwd := ".", path := some "./😀" } .empty)
    (cacheFresh_of_none rfl)).mp hfile.2 "😀" rfl (by decide)
  exact absurd hbmp.2 (by decide)

end Sliced

end Mulp.Vinyl
