import Mulp.VinylFs.Src

/-! The literal globs of `src` (`vinyl_fs/src.mbt`): `validate_globs` asks the tree
for them, and the selection compares their segments with those of the discovered
paths. -/
namespace Mulp.VinylFs

open Mulp.Core Mulp.Stream Mulp.Text Mulp.Vinyl Mulp.Platform Lexical

/-- A glob without magic that `validate_globs` finds in the tree. It is looked up as a path, in the
working directory of the options. -/
def Accepted (w : SrcWorld) (options : SrcOptions) (glob : String) : Prop :=
  hasGlobMagic glob = false ∧ ∃ metadata, targetMetadata w (joinPath options.cwd glob) = .ok metadata

/-- There is a file for the place that the glob denotes. Files are compared with globs by the places
of their paths, so the spelling of the glob does not matter here. -/
def Emits (w : SrcWorld) (options : SrcOptions) (files : List (VinylFile Nat Nat)) (glob : String) : Prop :=
  ∃ file ∈ files, ∃ path, file.path = some path ∧
    place w.pwd path = place w.pwd (joinPath options.cwd glob)

/-- The names lead from the directory to an entry below it. -/
def IsBelow (w : SrcWorld) (cwd : String) (names : List String) : Prop :=
  names ≠ [] ∧ ∃ dir, w.tree.resolve w.pwd cwd = some dir ∧ (w.tree.entry (dir ++ names)).isSome

/-- Every entry below the directory is discovered, by its relative path. -/
def DiscoversEntries (w : SrcWorld) (cwd : String) : Prop :=
  ∀ rel, rel ∈ discoveredPaths w cwd ↔ ∃ names, IsBelow w cwd names ∧ rel = joinSlash names

/-- The segments of the glob that are not empty are the names of an entry below the directory, and
the option `dot` is on or none of them begins with a dot. This is what matching asks for, which
compares segments as texts and knows nothing of `.` and `..`. -/
def Spelled (w : SrcWorld) (options : SrcOptions) (glob : String) : Prop :=
  IsBelow w options.cwd (nonEmptySegments glob) ∧
    (options.dot = true ∨ ∀ name ∈ nonEmptySegments glob, hasPrefix name "." = false)

/-- The glob denotes an entry below the directory that another glob matches, and so there is a file
for it in spite of its spelling. -/
def Covered (w : SrcWorld) (options : SrcOptions) (globs : List String) (glob : String) : Prop :=
  ∃ names, IsBelow w options.cwd names ∧
    place w.pwd (joinPath options.cwd glob) = place w.pwd options.cwd ++ names ∧
    ∃ other ∈ globs, other ≠ glob ∧ pathMatchesGlobOption (joinSlash names) other options.dot = true

/-! ## What is emitted -/

section Emitted

variable {n : Nat} {w : SrcWorld} {options : SrcOptions} {globs : List String} {st st' : Store}

theorem joinPath_ne_empty {dir rel : String} (h : rel ≠ "") : joinPath dir rel ≠ "" := by
  rw [joinPath, if_neg h]
  split_ifs <;> simp [h]

theorem history_vinylFile {args : VinylFileArgs} {path : String} (hpath : args.path = some path)
    (hhistory : args.history = []) (hne : path ≠ "") :
    (vinylFile args st).1.path = some (normalizePath path) := by
  have hnormal : normalizePath path ≠ "" := mt normalizePath_eq_empty.mp hne
  rw [VinylFile.path]
  show (finalHistory args.path args.history).getLast? = _
  simp only [hpath, hhistory, finalHistory, List.map_nil, List.length_nil, if_true, if_neg hnormal]
  rfl

/-- Without a limit, a discovered path gives a file. -/
theorem sourceFileFor_path {rel : String} {found : Option (VinylFile Nat Nat)} (hrel : rel ≠ "")
    (hsince : options.since = none)
    (h : sourceFileFor n w rel options st = some (.ok (found, st'))) :
    ∃ file, found = some file ∧ file.path = some (normalizePath (joinPath options.cwd rel)) := by
  unfold sourceFileFor at h
  simp only [hsince, modifiedAfter] at h
  split at h
  · cases h
  · split at h
    · cases h
    · split at h
      · cases h
      · cases h
      · split at h
        · cases h
          exact ⟨_, rfl, history_vinylFile rfl rfl (joinPath_ne_empty hrel)⟩
        · cases h

/-- A turn of the loop that goes on. -/
theorem sourceFiles_cons_ok {rel : String} {rest : List String} {files : List (VinylFile Nat Nat)}
    (h : sourceFiles n w options (rel :: rest) st = some (.ok (files, st'))) :
    ∃ found st₁ others, sourceFileFor n w rel options st = some (.ok (found, st₁)) ∧
      sourceFiles n w options rest st₁ = some (.ok (others, st')) ∧
        files = found.toList ++ others := by
  rw [sourceFiles.eq_def] at h
  dsimp only at h
  split at h
  · cases h
  · cases h
  · rename_i found st₁ hfound
    split at h
    · cases h
    · cases h
    · rename_i others st₂ hothers
      cases h
      exact ⟨found, st₁, others, hfound, hothers, rfl⟩

/-- Without a limit, the files are those of the selected paths, in their order. -/
theorem sourceFiles_paths {rels : List String} {files : List (VinylFile Nat Nat)}
    (hrels : ∀ rel ∈ rels, rel ≠ "") (hsince : options.since = none)
    (h : sourceFiles n w options rels st = some (.ok (files, st'))) :
    files.map VinylFile.path =
      rels.map fun rel => some (normalizePath (joinPath options.cwd rel)) := by
  induction rels generalizing files st st' with
  | nil =>
      cases h
      rfl
  | cons rel rest ih =>
      rw [List.forall_mem_cons] at hrels
      obtain ⟨found, st₁, others, hfound, hothers, rfl⟩ := sourceFiles_cons_ok h
      obtain ⟨file, rfl, hpath⟩ := sourceFileFor_path hrels.1 hsince hfound
      rw [List.map_cons, ← ih hrels.2 hothers, ← hpath]
      rfl

theorem src_paths {files : List (VinylFile Nat Nat)}
    (hpositive : ∀ glob ∈ globs, hasPrefix glob "!" = false) (hsince : options.since = none)
    (h : src n w globs options st = some (.ok (files, st'))) :
    files.map VinylFile.path =
      (selectGlobStreamPaths (discoveredPaths w options.cwd) globs options.dot).map fun rel =>
        some (normalizePath (joinPath options.cwd rel)) := by
  rw [src] at h
  split at h
  · cases h
  · refine sourceFiles_paths (fun rel hrel => ?_) hsince h
    have hdiscovered := ((mem_selectGlobStreamPaths hpositive).mp hrel).1
    simpa using (List.mem_filter.mp hdiscovered).2

end Emitted

/-! ## Places -/

section Places

variable {w : SrcWorld} {pwd names : List String} {cwd : String}

theorem place_normalizePath (pwd : List String) (path : String) :
    place pwd (normalizePath path) = place pwd path := by
  rw [place, place, location_normalizePath]

theorem joinPath_eq (dir rel : String) : joinPath dir rel = joinDestPath dir rel := rfl

/-- Empty segments do not move. -/
theorem walk_nonEmptySegments (rooted : Bool) (pos : Pos String) (rel : String) :
    pos.walk rooted ((splitSlash rel).map stepOf) =
      pos.walk rooted ((nonEmptySegments rel).map stepOf) := by
  rw [nonEmptySegments]
  generalize splitSlash rel = segments
  induction segments generalizing pos with
  | nil => rfl
  | cons segment rest ih =>
      rw [List.map_cons, Pos.walk_cons, ih]
      by_cases hempty : segment = ""
      · rw [hempty]
        rfl
      · rw [List.filter_cons_of_pos (by simpa using hempty), List.map_cons, Pos.walk_cons]

/-- Names lead below the place of a directory. -/
theorem place_joinPath {rel : String} (hcwd : cwd ≠ "")
    (hnames : ∀ name ∈ nonEmptySegments rel, IsName name) :
    place pwd (joinPath cwd rel) = place pwd cwd ++ nonEmptySegments rel := by
  have hsteps : (nonEmptySegments rel).map stepOf = (nonEmptySegments rel).map .down :=
    List.map_congr_left fun name hname => (hnames name hname).stepOf_eq
  rw [place, place, joinPath_eq, location_joinDestPath hcwd, walk_nonEmptySegments, hsteps,
    Pos.walk_down]
  simp only
  split_ifs
  · rfl
  · have hbelow : (⟨(location cwd).pos.ups, (location cwd).pos.names ++ nonEmptySegments rel⟩ :
        Pos String).steps = (location cwd).pos.steps ++ (nonEmptySegments rel).map .down := by
      rw [Pos.steps, Pos.steps, List.map_append, List.append_assoc]
    rw [hbelow, Pos.walk_append, Pos.walk_down]

theorem IsBelow.isName (h : IsBelow w cwd names) : ∀ name ∈ names, IsName name := by
  obtain ⟨-, dir, -, hentry⟩ := h
  exact fun name hname => (w.tree.named _ hentry name (List.mem_append_right dir hname)).1

theorem IsBelow.cwd_ne (h : IsBelow w cwd names) : cwd ≠ "" := by
  rintro rfl
  obtain ⟨-, dir, hresolve, -⟩ := h
  cases hresolve

theorem IsBelow.nonEmptySegments (h : IsBelow w cwd names) :
    nonEmptySegments (joinSlash names) = names :=
  nonEmptySegments_joinSlash fun name hname => ⟨(h.isName name hname).noSlash, (h.isName name hname).ne_empty⟩

theorem IsBelow.place (h : IsBelow w cwd names) :
    place w.pwd (joinPath cwd (joinSlash names)) = place w.pwd cwd ++ names := by
  have hplace := @place_joinPath w.pwd cwd (joinSlash names) h.cwd_ne
  rw [h.nonEmptySegments] at hplace
  exact hplace h.isName

end Places

/-! ## Literals -/

section Literals

variable {n : Nat} {w : SrcWorld} {options : SrcOptions} {globs : List String} {st st' : Store}
  {files : List (VinylFile Nat Nat)} {glob : String} {names : List String}

/-- The discovered path of an entry matches a literal with its segments. -/
theorem pathMatches_literal (hmagic : hasGlobMagic glob = false)
    (hbelow : IsBelow w options.cwd names) :
    pathMatchesGlobOption (joinSlash names) glob options.dot = true ↔
      nonEmptySegments glob = names ∧
        (options.dot = true ∨ ∀ name ∈ names, hasPrefix name "." = false) := by
  have hdots : pathHasDotSegment (joinSlash names) = false ↔
      ∀ name ∈ names, hasPrefix name "." = false := by
    rw [pathHasDotSegment, splitSlash_joinSlash hbelow.1
      fun name hname => (hbelow.isName name hname).noSlash, List.any_eq_false]
    simp only [Bool.not_eq_true]
  rw [pathMatchesGlobOption, Bool.and_eq_true, globMatches_literal hmagic, hbelow.nonEmptySegments,
    Bool.or_eq_true, Bool.not_eq_true', hdots, and_comm]

/-- What is emitted for a literal is an entry that some glob matches. -/
theorem emits_iff (hpositive : ∀ glob ∈ globs, hasPrefix glob "!" = false)
    (hsince : options.since = none) (hdiscovers : DiscoversEntries w options.cwd)
    (h : src n w globs options st = some (.ok (files, st')))
    (glob : String) :
    Emits w options files glob ↔
      ∃ names, IsBelow w options.cwd names ∧
        place w.pwd (joinPath options.cwd glob) = place w.pwd options.cwd ++ names ∧
        ∃ other ∈ globs, pathMatchesGlobOption (joinSlash names) other options.dot = true := by
  have hpaths := src_paths hpositive hsince h
  -- the files are those of the selected paths, and these are entries of the tree
  have hmem (path : String) : (∃ file ∈ files, file.path = some path) ↔
      ∃ names, IsBelow w options.cwd names ∧
      normalizePath (joinPath options.cwd (joinSlash names)) = path ∧
        ∃ other ∈ globs, pathMatchesGlobOption (joinSlash names) other options.dot = true := by
    rw [← List.mem_map, hpaths, List.mem_map]
    simp only [mem_selectGlobStreamPaths hpositive, Option.some.injEq]
    constructor
    · rintro ⟨rel, ⟨hrel, hmatch⟩, hpath⟩
      obtain ⟨names, hbelow, rfl⟩ := (hdiscovers rel).mp hrel
      exact ⟨names, hbelow, hpath, hmatch⟩
    · rintro ⟨names, hbelow, hpath, hmatch⟩
      exact ⟨_, ⟨(hdiscovers _).mpr ⟨names, hbelow, rfl⟩, hmatch⟩, hpath⟩
  constructor
  · rintro ⟨file, hfile, path, hpath, hplace⟩
    obtain ⟨names, hbelow, rfl, hmatch⟩ := (hmem path).mp ⟨file, hfile, hpath⟩
    rw [place_normalizePath, hbelow.place] at hplace
    exact ⟨names, hbelow, hplace.symm, hmatch⟩
  · rintro ⟨names, hbelow, hplace, hmatch⟩
    obtain ⟨file, hfile, hpath⟩ := (hmem _).mpr ⟨names, hbelow, rfl, hmatch⟩
    refine ⟨file, hfile, _, hpath, ?_⟩
    rw [place_normalizePath, hbelow.place, hplace]

/-- No accepted literal is dropped, exactly when each one spells the path of an entry
that the option lets through or denotes an entry that another glob matches. -/
theorem literals_iff (hpositive : ∀ glob ∈ globs, hasPrefix glob "!" = false)
    (hsince : options.since = none) (hdiscovers : DiscoversEntries w options.cwd)
    (h : src n w globs options st = some (.ok (files, st'))) :
    (∀ glob ∈ globs, Accepted w options glob → Emits w options files glob) ↔
      ∀ glob ∈ globs, Accepted w options glob → Spelled w options glob ∨ Covered w options globs glob := by
  refine forall₃_congr fun glob hglob haccepted => ?_
  rw [emits_iff hpositive hsince hdiscovers h]
  constructor
  · rintro ⟨names, hbelow, hplace, other, hother, hmatch⟩
    by_cases hsame : other = glob
    · subst hsame
      obtain ⟨rfl, hdots⟩ := (pathMatches_literal haccepted.1 hbelow).mp hmatch
      exact .inl ⟨hbelow, hdots⟩
    · exact .inr ⟨names, hbelow, hplace, other, hother, hsame, hmatch⟩
  · rintro (⟨hbelow, hdots⟩ | ⟨names, hbelow, hplace, other, hother, -, hmatch⟩)
    · exact ⟨_, hbelow, place_joinPath hbelow.cwd_ne hbelow.isName, glob, hglob,
        (pathMatches_literal haccepted.1 hbelow).mpr ⟨rfl, hdots⟩⟩
    · exact ⟨names, hbelow, hplace, other, hother, hmatch⟩

/-! ### A directory with one file -/

def oneFileEntry (names : List String) : Option Stat :=
  if names = [] ∨ names = ["w"] then some ⟨.directory, 64, 7, 0o755, 7⟩
  else if names = ["w", "a"] then some ⟨.file, 1, 7, 0o644, 7⟩
  else none

theorem oneFileEntry_cases {names : List String} (h : (oneFileEntry names).isSome = true) :
    names = [] ∨ names = ["w"] ∨ names = ["w", "a"] := by
  by_contra hnone
  simp only [not_or] at hnone
  rw [oneFileEntry, if_neg (by simp [hnone.1, hnone.2.1]), if_neg hnone.2.2] at h
  cases h

def oneFileTree : FileTree where
  entry := oneFileEntry
  root := ⟨_, rfl, rfl⟩
  parent := by
    intro names name h
    rcases oneFileEntry_cases h with h | h | h
    · exact absurd h (by simp)
    · have hnames : names = [] := (@List.append_inj' _ names [name] [] ["w"] h rfl).1
      exact ⟨_, by rw [hnames]; rfl, rfl⟩
    · have hnames : names = ["w"] := (@List.append_inj' _ names [name] ["w"] ["a"] h rfl).1
      exact ⟨_, by rw [hnames]; rfl, rfl⟩
  named := by
    intro names h name hname
    have hmem : name ∈ ["w", "a"] := by
      rcases oneFileEntry_cases h with rfl | rfl | rfl
      · cases hname
      · exact List.mem_append_left ["a"] hname
      · exact hname
    rcases List.mem_cons.mp hmem with rfl | hmem
    · exact ⟨⟨by decide, by decide, by decide, by decide⟩, by decide⟩
    · rw [List.mem_singleton.mp hmem]
      exact ⟨⟨by decide, by decide, by decide, by decide⟩, by decide⟩

def oneFileWorld : SrcWorld where
  tree := oneFileTree
  pwd := []
  discoverPathsBytes path := if path = "/w" then "a\n" else ""
  readSymlinkBytes _ := ""
  disk := oneFile "/w/a" [0x61]

theorem isBelow_oneFile {names : List String} :
    IsBelow oneFileWorld "/w" names ↔ names = ["a"] := by
  have hresolve : oneFileTree.resolve [] "/w" = some ["w"] := rfl
  constructor
  · rintro ⟨hne, dir, hdir, hentry⟩
    cases hresolve.symm.trans hdir
    rcases oneFileEntry_cases hentry with h | h | h
    · cases h
    · exact absurd (List.cons.inj h).2 hne
    · exact (List.cons.inj h).2
  · rintro rfl
    exact ⟨by simp, _, hresolve, rfl⟩

theorem discoversEntries_oneFile : DiscoversEntries oneFileWorld "/w" := by
  have hpaths : discoveredPaths oneFileWorld "/w" = ["a"] := rfl
  intro rel
  simp only [hpaths, List.mem_singleton, isBelow_oneFile, exists_eq_left]
  rfl

theorem literals_a :
    ∃ file st, src 3 oneFileWorld ["a"] { cwd := "/w" } .empty = some (.ok ([file], st)) ∧
      file.contents = .buffer [0x61] ∧
      ∀ glob ∈ ["a"], Accepted oneFileWorld { cwd := "/w" } glob →
        Emits oneFileWorld { cwd := "/w" } [file] glob := by
  obtain ⟨file, st, hsrc, hcontents⟩ :
    ∃ file st, src 3 oneFileWorld ["a"] { cwd := "/w" } .empty = some (.ok ([file], st)) ∧
      file.contents = .buffer [0x61] := ⟨_, _, rfl, rfl⟩
  refine ⟨file, st, hsrc, hcontents,
    (literals_iff (by decide) rfl discoversEntries_oneFile hsrc).mpr ?_⟩
  intro glob hglob _
  rw [List.mem_singleton.mp hglob]
  exact .inl ⟨isBelow_oneFile.mpr rfl, .inr (by decide)⟩

/-- `./a` is found and then matches no discovered path. -/
theorem not_literals_dot :
    ∃ st, src 0 oneFileWorld ["./a"] { cwd := "/w" } .empty = some (.ok ([], st)) ∧
      Accepted oneFileWorld { cwd := "/w" } "./a" ∧ ¬ Emits oneFileWorld { cwd := "/w" } [] "./a" := by
  refine ⟨_, rfl, ⟨by decide, _, rfl⟩, ?_⟩
  rintro ⟨file, hfile, -⟩
  cases hfile

end Literals

end Mulp.VinylFs
