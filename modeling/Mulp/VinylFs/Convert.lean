import Mulp.Stream.Since
import Mulp.Vinyl.Edits
import Mulp.Vinyl.Extend
import Mulp.VinylFs.Dest

/-! From one of the two models of a file to the other and back
(`vinyl_fs/dest.mbt`).

A `VinylFile` keeps the kind of the file in its stat, a `File` in its contents
and perhaps in its metadata. The way back makes a vinyl file, which takes slices of
its paths; one of these can abort. -/
namespace Mulp.VinylFs

open Mulp.Core Mulp.Stream Mulp.Text Mulp.Vinyl

/-! ## `vinyl_file_from_stream` -/

/-- `File::kind`. -/
def fileKind (file : File Nat) : Option String := metadataValue file.metadata "kind"

def symlinkTarget (file : File Nat) : Option String :=
  match file.contents with
  | .symlink target => some target
  | _ => none

/-- `stat` of `vinyl_file_from_stream` where the metadata have no kind. -/
def statFromContents : FileContents Nat → Option VinylStat
  | .directory => some ⟨.directory, none, none⟩
  | .symlink _ => some ⟨.symbolicLink, none, none⟩
  | _ => none

/-- `stat` of `vinyl_file_from_stream`. -/
def statFromStream (file : File Nat) : Option VinylStat :=
  match fileKind file with
  | some kind =>
      if kind = "directory" then some ⟨.directory, none, none⟩
      else if kind = "symlink" then some ⟨.symbolicLink, none, none⟩
      else some ⟨.file, none, none⟩
  | none => statFromContents file.contents

/-- `contents` of `vinyl_file_from_stream`. -/
def vinylContentsFromStream : FileContents Nat → VinylContents Nat
  | .empty => .null
  | .text text => .buffer (utf8Encode text)
  | .buffer bytes => .buffer bytes
  | .bytes stream => .stream stream
  | .directory => .null
  | .symlink _ => .null

/-- The arguments of `vinyl_file` in `vinyl_file_from_stream`. -/
def argsFromStream (file : File Nat) : VinylFileArgs where
  cwd := file.cwd
  base := file.base
  path := some file.path
  contents := vinylContentsFromStream file.contents
  stat := statFromStream file
  symlink := symlinkTarget file
  sourceMap := file.sourceMap
  metadata := file.metadata

/-- `vinyl_file_from_stream` by characters, where no slice aborts. -/
def vinylFileFromStream (file : File Nat) (st : Store) : VinylFile Nat Nat × Store :=
  vinylFile (argsFromStream file) st

def Sliced.vinylFileFromStream (file : File Nat) (st : Store) : Option (VinylFile Nat Nat × Store) :=
  Vinyl.Sliced.vinylFile (argsFromStream file) st

/-- No slice that `vinyl_file` takes of the paths of the file aborts: those of its directories, of
its path and of its target, each of which is normalized. -/
def Returns (file : File Nat) : Prop :=
  ∀ text ∈ Vinyl.Sliced.texts (argsFromStream file), Vinyl.Sliced.normalizePath text ≠ none

theorem vinylFileFromStream_returns {file : File Nat} (h : Returns file) (st : Store) :
    Sliced.vinylFileFromStream file st = some (vinylFileFromStream file st) := by
  obtain ⟨⟨vinyl, store⟩, hmade⟩ := Vinyl.Sliced.exists_vinylFile.mpr h
  have heq := Vinyl.Sliced.eq_of_vinylFile hmade
  rw [vinylFileFromStream, ← heq]
  exact hmade

theorem returns_of_vinylFileFromStream {file : File Nat} {st : Store}
    {made : VinylFile Nat Nat × Store} (h : Sliced.vinylFileFromStream file st = some made) :
    Returns file := Vinyl.Sliced.exists_vinylFile.mp ⟨made, h⟩

/-- What holds of the file that is made, if one is. -/
theorem made_iff {file : File Nat} {st : Store} {P : VinylFile Nat Nat → Store → Prop} :
    (∃ vinyl st', Sliced.vinylFileFromStream file st = some (vinyl, st') ∧ P vinyl st') ↔
      P (vinylFileFromStream file st).1 (vinylFileFromStream file st).2 ∧ Returns file := by
  constructor
  · intro h
    obtain ⟨vinyl, st', hmade, hholds⟩ := h
    have hreturns := returns_of_vinylFileFromStream hmade
    rw [vinylFileFromStream_returns hreturns, Option.some.injEq] at hmade
    rw [hmade]
    exact ⟨hholds, hreturns⟩
  · intro h
    obtain ⟨hholds, hreturns⟩ := h
    exact ⟨_, _, vinylFileFromStream_returns hreturns st, hholds⟩

/-- The scan of a canonical path gets to its end, or a `..` stops it before. -/
def Scans (path : String) : Prop := IsBmp path ∨ hasPrefix path "../" = true

theorem scans_iff {path : String} (h : normalizePath path = path) :
    Vinyl.Sliced.normalizePath path ≠ none ↔ Scans path :=
  Option.ne_none_iff_exists'.trans (Vinyl.Sliced.normalizePath_returns_iff h)

/-! ## What a conversion is to keep -/

/-- Reading `contents` in `st` and `other` in `st'` gives the same bytes. -/
def YieldsSame (contents : VinylContents Nat) (st : Store) (other : VinylContents Nat) (st' : Store) :
    Prop :=
  match contents, other with
  | .null, .null => True
  | .buffer bytes, .buffer bytes' => bytes' = bytes
  | .stream stream, .stream stream' => ∀ rs, st'.Answers stream' rs ↔ st.Answers stream rs
  | _, _ => False

structure SameVinylFile (file : VinylFile Nat Nat) (st : Store) (other : VinylFile Nat Nat)
    (st' : Store) : Prop where
  cwd : other.cwd = file.cwd
  base : other.base = file.base
  path : other.path = file.path
  contents : YieldsSame file.contents st other.contents st'
  directory : other.isDirectory = file.isDirectory
  symbolic : other.isSymbolic = file.isSymbolic
  symlink : other.symlink = file.symlink
  sourceMap : other.sourceMap = file.sourceMap
  metadata : other.metadata = file.metadata

structure SameFile (file : File Nat) (st : Store) (other : File Nat) (st' : Store) : Prop where
  cwd : other.cwd = file.cwd
  base : other.base = file.base
  path : other.path = file.path
  contents : YieldsSame (vinylContentsFromStream file.contents) st
    (vinylContentsFromStream other.contents) st'
  kind : fileKind other = fileKind file
  sourceMap : other.sourceMap = file.sourceMap

/-- The stream of the contents, if they have one, is an object of the store. -/
def InStore (st : Store) : VinylContents Nat → Prop
  | .stream stream => stream < st.streams.length
  | _ => True

theorem sameBytes_prepareContents {st : Store} (h : st.Closed) {contents : VinylContents Nat}
    (hcontents : InStore st contents) :
    YieldsSame contents st (st.prepareContents contents).1.1 (st.prepareContents contents).2 := by
  cases contents with
  | null => trivial
  | buffer bytes => rfl
  | stream stream =>
      obtain ⟨reader, replay, hreader, hanswers⟩ := Store.answers_prepareContents h hcontents
      simp only [hreader]
      exact hanswers

/-! ## From a vinyl file and back -/

/-- There is no `kind` entry, or it agrees with the stat. The way there writes such an entry and the
way back reads it, so one that disagrees would win. -/
def KindAgrees (file : VinylFile Nat Nat) : Prop :=
  ∀ kind, metadataValue file.metadata "kind" = some kind →
    (kind = "directory" ↔ file.hasKind .directory = true) ∧
      (kind = "symlink" ↔ file.hasKind .symbolicLink = true)

/-- A vinyl file of one path, with the contents of a file, a directory or a symbolic link with a
target. A `File` has one path, so a longer history could not survive; nor could a stat that is none
of these. -/
structure Convertible (file : VinylFile Nat Nat) (st : Store) : Prop where
  normalized : Normalized file
  history : ∃ path, file.history = [path]
  kind : KindAgrees file
  target : file.isSymbolic = true → file.symlink.isSome = true
  contents : InStore st file.contents

/-- The file has nothing that a `File` has no place for: no source map, and no target unless it is a
symbolic link; and it has no empty path, which is the one of a file without a path. -/
structure Portable (file : VinylFile Nat Nat) : Prop where
  sourceMap : file.sourceMap = none
  path : file.path ≠ some ""
  symlink : file.symlink.isSome = true → file.isSymbolic = true

section Vinyl

variable {file : VinylFile Nat Nat} {st : Store}

theorem hasKind_unique (h : file.hasKind .directory = true) :
    file.hasKind .symbolicLink = false := by
  unfold VinylFile.hasKind at *
  cases hstat : file.stat with
  | none => rw [hstat] at h
  | some stat =>
      simp only [hstat, decide_eq_true_eq] at h
      simp [h]

/-- The contents that are converted are the contents. -/
theorem contents_streamContentsFromVinyl (file : VinylFile Nat Nat) :
    vinylContentsFromStream (streamContentsFromVinyl file) = file.contents := by
  unfold streamContentsFromVinyl
  by_cases hdirectory : file.isDirectory = true
  · rw [if_pos hdirectory]
    exact (isNull_iff.mp ((Bool.and_eq_true _ _).mp hdirectory).1).symm
  · rw [if_neg hdirectory]
    by_cases hsymbolic : file.isSymbolic = true
    · rw [if_pos hsymbolic, isNull_iff.mp ((Bool.and_eq_true _ _).mp hsymbolic).1]
      cases file.symlink <;> rfl
    · rw [if_neg hsymbolic]
      cases file.contents <;> rfl

theorem streamContentsFromVinyl_directory (h : file.isDirectory = true) :
    streamContentsFromVinyl file = .directory := by
  rw [streamContentsFromVinyl, if_pos h]

theorem streamContentsFromVinyl_symbolic (h : file.isSymbolic = true) {target : String}
    (htarget : file.symlink = some target) : streamContentsFromVinyl file = .symlink target := by
  have hdirectory : ¬ file.isDirectory = true := by
    intro hdirectory
    have hkind := hasKind_unique ((Bool.and_eq_true _ _).mp hdirectory).2
    rw [((Bool.and_eq_true _ _).mp h).2] at hkind
    cases hkind
  rw [streamContentsFromVinyl, if_neg hdirectory, if_pos h, htarget]

theorem streamContentsFromVinyl_null (hdirectory : ¬ file.isDirectory = true)
    (hsymbolic : ¬ file.isSymbolic = true) (hnull : file.isNull = true) :
    streamContentsFromVinyl file = .empty := by
  rw [streamContentsFromVinyl, if_neg hdirectory, if_neg hsymbolic, isNull_iff.mp hnull]

/-- The stat that a null file gets back has its kind. -/
theorem statFromStream_kind (h : Convertible file st) (hnull : file.isNull = true) :
    ((statFromStream (streamFileFromVinyl file)).any (·.kind = .directory)) =
        file.hasKind .directory ∧
      ((statFromStream (streamFileFromVinyl file)).any (·.kind = .symbolicLink)) =
        file.hasKind .symbolicLink := by
  unfold statFromStream
  have hmetadata : fileKind (streamFileFromVinyl file) = metadataValue file.metadata "kind" := rfl
  rw [hmetadata]
  cases hkind : metadataValue file.metadata "kind" with
  | some kind =>
      obtain ⟨hdirectory, hsymbolic⟩ := h.kind kind hkind
      by_cases hd : kind = "directory"
      · simp [hd, hdirectory.mp hd, hasKind_unique (hdirectory.mp hd)]
      · have hd' := mt hdirectory.mpr hd
        by_cases hs : kind = "symlink"
        · simp [hs, hsymbolic.mp hs, hd']
        · have hs' := mt hsymbolic.mpr hs
          simp [hd, hs, hd', hs']
  | none =>
      -- without an entry the contents decide
      have hcontents : (streamFileFromVinyl file).contents = streamContentsFromVinyl file := rfl
      dsimp only
      rw [hcontents]
      by_cases hdirectory : file.isDirectory = true
      · have hd := ((Bool.and_eq_true _ _).mp hdirectory).2
        rw [streamContentsFromVinyl_directory hdirectory, hd, hasKind_unique hd]
        exact ⟨rfl, rfl⟩
      · have hd : file.hasKind .directory = false := by
          simpa [VinylFile.isDirectory, hnull] using hdirectory
        by_cases hsymbolic : file.isSymbolic = true
        · obtain ⟨target, htarget⟩ := Option.isSome_iff_exists.mp (h.target hsymbolic)
          rw [streamContentsFromVinyl_symbolic hsymbolic htarget, hd,
            ((Bool.and_eq_true _ _).mp hsymbolic).2]
          exact ⟨rfl, rfl⟩
        · have hs : file.hasKind .symbolicLink = false := by
            simpa [VinylFile.isSymbolic, hnull] using hsymbolic
          rw [streamContentsFromVinyl_null hdirectory hsymbolic hnull, hd, hs]
          exact ⟨rfl, rfl⟩

/-- The file, to a `File` and back by characters. -/
def vinylRoundTrip (file : VinylFile Nat Nat) (st : Store) : VinylFile Nat Nat × Store :=
  vinylFileFromStream (streamFileFromVinyl file) st

theorem hasKind_eq_any (kind : VinylKind) : file.hasKind kind = file.stat.any (·.kind = kind) := by
  unfold VinylFile.hasKind
  cases file.stat <;> rfl

theorem vinylRoundTrip_contents (h : Convertible file st) (hst : st.Closed) :
    YieldsSame file.contents st (vinylRoundTrip file st).1.contents (vinylRoundTrip file st).2 := by
  have hsame := sameBytes_prepareContents hst h.contents
  rw [← contents_streamContentsFromVinyl file] at hsame ⊢
  exact hsame

theorem vinylRoundTrip_null (file : VinylFile Nat Nat) (st : Store) :
    (vinylRoundTrip file st).1.isNull = file.isNull := by
  have hnull : (vinylRoundTrip file st).1.isNull = true ↔ file.isNull = true := by
    rw [isNull_iff, isNull_iff, ← contents_streamContentsFromVinyl file]
    exact prepareContents_null _ _
  exact Bool.eq_iff_iff.mpr hnull

theorem vinylRoundTrip_kind (h : Convertible file st) :
    (vinylRoundTrip file st).1.isDirectory = file.isDirectory ∧
      (vinylRoundTrip file st).1.isSymbolic = file.isSymbolic := by
  simp only [VinylFile.isDirectory, VinylFile.isSymbolic, vinylRoundTrip_null file st]
  cases hnull : file.isNull with
  | false => exact ⟨rfl, rfl⟩
  | true =>
      rw [hasKind_eq_any .directory, hasKind_eq_any .symbolicLink]
      exact statFromStream_kind h hnull

theorem vinylRoundTrip_path (h : Convertible file st) :
    (vinylRoundTrip file st).1.path = file.path ↔ file.path ≠ some "" := by
  obtain ⟨path, hpath⟩ := h.history
  have hnormal : normalizePath path = path := h.normalized.history path (by simp [hpath])
  have hhistory : (vinylRoundTrip file st).1.history = if path = "" then [] else [path] := by
    show finalHistory (some (pathText file)) [] = _
    simp [finalHistory, pathText, VinylFile.path, hpath, hnormal]
  -- an empty path is left out of the history
  by_cases hempty : path = ""
  · simp [VinylFile.path, hhistory, hpath, hempty]
  · simp [VinylFile.path, hhistory, hpath, hempty]

theorem symlinkTarget_streamFileFromVinyl (h : Convertible file st) :
    symlinkTarget (streamFileFromVinyl file) =
      if file.isSymbolic then file.symlink else none := by
  have htarget : symlinkTarget (streamFileFromVinyl file) =
      match streamContentsFromVinyl file with
      | .symlink target => some target
      | _ => none := rfl
  rw [htarget]
  by_cases hsymbolic : file.isSymbolic = true
  · obtain ⟨target, hsymlink⟩ := Option.isSome_iff_exists.mp (h.target hsymbolic)
    rw [streamContentsFromVinyl_symbolic hsymbolic hsymlink, if_pos hsymbolic, hsymlink]
  · rw [if_neg hsymbolic, streamContentsFromVinyl, if_neg hsymbolic]
    by_cases hdirectory : file.isDirectory = true
    · rw [if_pos hdirectory]
    · rw [if_neg hdirectory]
      cases file.contents <;> rfl

theorem vinylRoundTrip_symlink (h : Convertible file st) :
    (vinylRoundTrip file st).1.symlink = file.symlink ↔
      (file.symlink.isSome = true → file.isSymbolic = true) := by
  have hsymlink : (vinylRoundTrip file st).1.symlink =
      (symlinkTarget (streamFileFromVinyl file)).map normalizePath := rfl
  rw [hsymlink, symlinkTarget_streamFileFromVinyl h]
  cases htarget : file.symlink with
  | none => simp
  | some target =>
      have hnormal : normalizePath target = target := h.normalized.symlink target htarget
      by_cases hsymbolic : file.isSymbolic = true <;> simp [hsymbolic, hnormal]

theorem vinylRoundTrip_iff (h : Convertible file st) (hst : st.Closed) :
    SameVinylFile file st (vinylRoundTrip file st).1 (vinylRoundTrip file st).2 ↔
      Portable file := by
  constructor
  · intro hsame
    exact ⟨hsame.sourceMap.symm, (vinylRoundTrip_path h).mp hsame.path,
      (vinylRoundTrip_symlink h).mp hsame.symlink⟩
  · intro hportable
    obtain ⟨hdirectory, hsymbolic⟩ := vinylRoundTrip_kind h
    exact {
      cwd := h.normalized.cwd
      base := h.normalized.base
      path := (vinylRoundTrip_path h).mpr hportable.path
      contents := vinylRoundTrip_contents h hst
      directory := hdirectory
      symbolic := hsymbolic
      symlink := (vinylRoundTrip_symlink h).mpr hportable.symlink
      sourceMap := hportable.sourceMap.symm
      metadata := rfl }

/-- The paths of the file that the way back gets to see. -/
structure VinylScans (file : VinylFile Nat Nat) : Prop where
  cwd : Scans file.cwd
  base : Scans file.base
  path : ∀ path ∈ file.path, Scans path
  symlink : file.isSymbolic = true → ∀ target ∈ file.symlink, Scans target

theorem returns_streamFileFromVinyl (h : Convertible file st) :
    Returns (streamFileFromVinyl file) ↔ VinylScans file := by
  obtain ⟨path, hpath⟩ := h.history
  have hnormal : normalizePath path = path := h.normalized.history path (by simp [hpath])
  have htext : pathText file = path := by simp [pathText, VinylFile.path, hpath]
  have hlink : (∀ target ∈ (if file.isSymbolic then file.symlink else none).toList,
      Vinyl.Sliced.normalizePath target ≠ none) ↔
        (file.isSymbolic = true → ∀ target ∈ file.symlink, Scans target) := by
    by_cases hsymbolic : file.isSymbolic = true
    · rw [if_pos hsymbolic]
      constructor
      · intro hall _ target htarget
        exact (scans_iff (h.normalized.symlink target htarget)).mp
          (hall target (Option.mem_toList.mpr htarget))
      · intro hall target htarget
        have hmem := Option.mem_toList.mp htarget
        exact (scans_iff (h.normalized.symlink target hmem)).mpr (hall hsymbolic target hmem)
    · rw [if_neg hsymbolic]
      exact iff_of_true nofun fun hpos => absurd hpos hsymbolic
  have htexts : Vinyl.Sliced.texts (argsFromStream (streamFileFromVinyl file)) =
      file.cwd :: file.base :: ([path] ++
        (if file.isSymbolic then file.symlink else none).toList) := by
    rw [← symlinkTarget_streamFileFromVinyl h, ← htext]
    rfl
  rw [Returns, htexts, List.forall_mem_cons, List.forall_mem_cons, List.forall_mem_append,
    List.forall_mem_singleton, hlink, scans_iff h.normalized.cwd, scans_iff h.normalized.base,
    scans_iff hnormal]
  constructor
  · intro h
    obtain ⟨hcwd, hbase, hscans, hsymlink⟩ := h
    refine ⟨hcwd, hbase, fun value hvalue => ?_, hsymlink⟩
    obtain rfl : path = value := by simpa [VinylFile.path, hpath] using hvalue
    exact hscans
  · intro hscans
    exact ⟨hscans.cwd, hscans.base, hscans.path path (by simp [VinylFile.path, hpath]),
      hscans.symlink⟩

end Vinyl

/-! ## From a stream file and back -/

/-- Normalized paths that are not empty, since the way there normalizes all of them and takes an
empty one for a missing one. -/
structure Normal (file : File Nat) : Prop where
  cwd : normalizePath file.cwd = file.cwd ∧ file.cwd ≠ ""
  base : normalizePath file.base = file.base ∧ file.base ≠ ""
  path : normalizePath file.path = file.path ∧ file.path ≠ ""

/-- What the contents say the file is: a directory, a link, or else a file. -/
def contentsKind : FileContents Nat → VinylKind
  | .directory => .directory
  | .symlink _ => .symbolicLink
  | _ => .file

/-- The kind in the metadata, if there is one, does not contradict the contents. The contents of a
directory or a link are looked at first, and `Empty` may be anything but a directory. -/
def KindFits (file : File Nat) : Prop :=
  match file.contents with
  | .empty => fileKind file ≠ some "directory"
  | .directory => fileKind file = none ∨ fileKind file = some "directory"
  | .symlink _ => fileKind file = none ∨ fileKind file = some "symlink"
  | _ => True

section Stream

variable {file : File Nat} {st : Store}

/-- The file, to a `VinylFile` and back by characters. -/
def streamRoundTrip (file : File Nat) (st : Store) : File Nat × Store :=
  let (vinyl, st) := vinylFileFromStream file st
  (streamFileFromVinyl vinyl, st)

theorem streamRoundTrip_contents (hst : st.Closed)
    (h : InStore st (vinylContentsFromStream file.contents)) :
    YieldsSame (vinylContentsFromStream file.contents) st
      (vinylContentsFromStream (streamRoundTrip file st).1.contents)
      (streamRoundTrip file st).2 := by
  have hcontents : vinylContentsFromStream (streamRoundTrip file st).1.contents =
      (vinylFileFromStream file st).1.contents := contents_streamContentsFromVinyl _
  rw [hcontents]
  exact sameBytes_prepareContents hst h

theorem streamRoundTrip_iff (h : Normal file) (hst : st.Closed)
    (hcontents : InStore st (vinylContentsFromStream file.contents)) :
    SameFile file st (streamRoundTrip file st).1 (streamRoundTrip file st).2 ↔
      file.sourceMap = none := by
  have hpath : (vinylFileFromStream file st).1.history = [file.path] := by
    show finalHistory (some file.path) [] = _
    simp [finalHistory, h.path.1, h.path.2]
  constructor
  · intro hsame
    exact hsame.sourceMap.symm
  · intro hnone
    exact {
      cwd := h.cwd.1
      base := h.base.1
      path := by
        show pathText (vinylFileFromStream file st).1 = _
        simp [pathText, VinylFile.path, hpath]
      contents := streamRoundTrip_contents hst hcontents
      kind := rfl
      sourceMap := hnone.symm }

/-- Contents with bytes are those of a file. -/
theorem streamRoundTrip_bytes (st : Store) (h : vinylContentsFromStream file.contents ≠ .null) :
    contentsKind (streamRoundTrip file st).1.contents = .file := by
  have hnull : ¬ (vinylFileFromStream file st).1.isNull = true :=
    fun hnull => h ((prepareContents_null _ _).mp (isNull_iff.mp hnull))
  have hdirectory : ¬ (vinylFileFromStream file st).1.isDirectory = true :=
    fun hd => hnull ((Bool.and_eq_true _ _).mp hd).1
  have hsymbolic : ¬ (vinylFileFromStream file st).1.isSymbolic = true :=
    fun hs => hnull ((Bool.and_eq_true _ _).mp hs).1
  show contentsKind (streamContentsFromVinyl (vinylFileFromStream file st).1) = _
  rw [streamContentsFromVinyl, if_neg hdirectory, if_neg hsymbolic]
  cases (vinylFileFromStream file st).1.contents <;> rfl

/-- Other contents are those of the stat. -/
theorem streamRoundTrip_null (h : vinylContentsFromStream file.contents = .null) :
    (streamRoundTrip file st).1.contents =
      if (statFromStream file).any (·.kind = .directory) then .directory
      else if (statFromStream file).any (·.kind = .symbolicLink) then
        match (symlinkTarget file).map normalizePath with
        | some target => .symlink target
        | none => .empty
      else .empty := by
  have hnull : (vinylFileFromStream file st).1.isNull = true :=
    isNull_iff.mpr ((prepareContents_null _ _).mpr h)
  show streamContentsFromVinyl (vinylFileFromStream file st).1 = _
  have hdirectory : (vinylFileFromStream file st).1.isDirectory =
      (statFromStream file).any (·.kind = .directory) := by
    rw [VinylFile.isDirectory, hnull, hasKind_eq_any]
    rfl
  have hsymbolic : (vinylFileFromStream file st).1.isSymbolic =
      (statFromStream file).any (·.kind = .symbolicLink) := by
    rw [VinylFile.isSymbolic, hnull, hasKind_eq_any]
    rfl
  rw [streamContentsFromVinyl, hdirectory, hsymbolic, isNull_iff.mp hnull]
  rfl

theorem streamRoundTrip_kind_iff :
    contentsKind (streamRoundTrip file st).1.contents = contentsKind file.contents ↔
      KindFits file := by
  unfold KindFits
  cases hcontents : file.contents with
  | text _ | buffer _ | bytes _ =>
      rw [streamRoundTrip_bytes st (by simp [hcontents, vinylContentsFromStream])]
      exact iff_of_true rfl trivial
  | empty | directory | symlink _ =>
      rw [streamRoundTrip_null (by rw [hcontents]; rfl)]
      cases hkind : fileKind file with
      | none => simp [statFromStream, hkind, hcontents, statFromContents, contentsKind, symlinkTarget]
      | some kind =>
          -- the kind in the metadata goes before the contents
          by_cases hd : kind = "directory"
          · simp [statFromStream, hkind, contentsKind, hd]
          · by_cases hs : kind = "symlink" <;>
              simp [statFromStream, hkind, hcontents, contentsKind, hd, hs, symlinkTarget]

/-- The paths of the file that the way there gets to see. -/
structure StreamScans (file : File Nat) : Prop where
  cwd : Scans file.cwd
  base : Scans file.base
  path : Scans file.path
  symlink : ∀ target ∈ symlinkTarget file, Vinyl.Sliced.normalizePath target ≠ none

theorem returns_stream (h : Normal file) : Returns file ↔ StreamScans file := by
  have htexts : Vinyl.Sliced.texts (argsFromStream file) =
      file.cwd :: file.base :: ([file.path] ++ (symlinkTarget file).toList) := rfl
  rw [Returns, htexts, List.forall_mem_cons, List.forall_mem_cons, List.forall_mem_append,
    List.forall_mem_singleton, scans_iff h.cwd.1, scans_iff h.base.1, scans_iff h.path.1]
  constructor
  · intro h
    obtain ⟨hcwd, hbase, hpath, hsymlink⟩ := h
    exact ⟨hcwd, hbase, hpath, fun target htarget => hsymlink target (Option.mem_toList.mpr htarget)⟩
  · intro hscans
    exact ⟨hscans.cwd, hscans.base, hscans.path,
      fun target htarget => hscans.symlink target (Option.mem_toList.mp htarget)⟩

end Stream

/-! ## Both -/

/-- `vinyl_file_from_stream(stream_file_from_vinyl(f))`. -/
def Sliced.vinylRoundTrip (file : VinylFile Nat Nat) (st : Store) :
    Option (VinylFile Nat Nat × Store) :=
  Sliced.vinylFileFromStream (streamFileFromVinyl file) st

/-- `stream_file_from_vinyl(vinyl_file_from_stream(g))`. -/
def Sliced.streamRoundTrip (file : File Nat) (st : Store) : Option (File Nat × Store) := do
  let (vinyl, st) ← Sliced.vinylFileFromStream file st
  some (streamFileFromVinyl vinyl, st)

theorem streamRoundTrip_made {file : File Nat} {st : Store} {P : File Nat → Store → Prop} :
    (∃ back st', Sliced.streamRoundTrip file st = some (back, st') ∧ P back st') ↔
      P (streamRoundTrip file st).1 (streamRoundTrip file st).2 ∧ Returns file := by
  refine Iff.trans ?_ (@made_iff file st fun vinyl st' => P (streamFileFromVinyl vinyl) st')
  constructor
  · intro h
    obtain ⟨back, st', hback, hholds⟩ := h
    obtain ⟨⟨vinyl, store⟩, hmade, heq⟩ := Option.bind_eq_some_iff.mp hback
    cases heq
    exact ⟨vinyl, st', hmade, hholds⟩
  · intro h
    obtain ⟨vinyl, st', hmade, hholds⟩ := h
    refine ⟨streamFileFromVinyl vinyl, st', ?_, hholds⟩
    rw [Sliced.streamRoundTrip, hmade]
    rfl

/-- A vinyl file survives the two conversions exactly when it has no source map,
an unempty path, no target unless it is a symbolic link, and paths that the scans get
through; a stream file exactly when it has no source map and such paths. What the
contents of a stream file say it is survives exactly when the kind in its metadata does
not contradict it. -/
theorem conversions_iff {st : Store} (hst : st.Closed) {vinyl : VinylFile Nat Nat}
    (hvinyl : Convertible vinyl st) {file : File Nat} (hfile : Normal file)
    (hcontents : InStore st (vinylContentsFromStream file.contents)) :
    ((∃ back st', Sliced.vinylRoundTrip vinyl st = some (back, st') ∧
        SameVinylFile vinyl st back st') ↔ Portable vinyl ∧ VinylScans vinyl) ∧
      ((∃ back st', Sliced.streamRoundTrip file st = some (back, st') ∧
        SameFile file st back st') ↔ file.sourceMap = none ∧ StreamScans file) ∧
      ((∃ back st', Sliced.streamRoundTrip file st = some (back, st') ∧
        contentsKind back.contents = contentsKind file.contents) ↔
          KindFits file ∧ StreamScans file) := by
  refine ⟨?_, ?_, ?_⟩
  · rw [← vinylRoundTrip_iff hvinyl hst, ← returns_streamFileFromVinyl hvinyl]
    exact made_iff
  · rw [← streamRoundTrip_iff hfile hst hcontents, ← returns_stream hfile]
    exact streamRoundTrip_made
  · rw [← @streamRoundTrip_kind_iff file st, ← returns_stream hfile]
    exact @streamRoundTrip_made file st fun back _ => contentsKind back.contents = _

/-- A file of one byte. -/
def plainFile : VinylFile Nat Nat × Store :=
  vinylFile { cwd := "/", base := "/src", path := some "/src/a.js", contents := .buffer [0x61] } .empty

/-- A file with a source map. -/
def mappedFile : VinylFile Nat Nat × Store :=
  vinylFile { cwd := "/", base := "/src", path := some "/src/a.js", contents := .buffer [0x61]
              sourceMap := some "{}" } .empty

theorem closed_empty : Store.empty.Closed := ⟨nofun, nofun⟩

theorem convertible_vinylFile (args : VinylFileArgs) (st : Store) (path : String)
    (hpath : (vinylFile args st).1.history = [path]) (hmetadata : args.metadata = [])
    (htarget : args.stat = none)
    (hcontents : InStore (vinylFile args st).2 (vinylFile args st).1.contents) :
    Convertible (vinylFile args st).1 (vinylFile args st).2 where
  normalized := normalized_vinylFile args st
  history := ⟨path, hpath⟩
  kind := by
    intro kind hkind
    have hempty : (vinylFile args st).1.metadata = [] := hmetadata
    rw [hempty] at hkind
    cases hkind
  target := by
    intro hsymbolic
    have hstat : (vinylFile args st).1.stat = none := htarget
    rw [VinylFile.isSymbolic, hasKind_eq_any, hstat] at hsymbolic
    simp at hsymbolic
  contents := hcontents

theorem conversions_plain :
    (∃ back st', Sliced.vinylRoundTrip plainFile.1 plainFile.2 = some (back, st') ∧
        SameVinylFile plainFile.1 plainFile.2 back st') ∧
      ∃ back st', Sliced.streamRoundTrip ⟨"/", "/src", "/src/a.js", .text "a", [], none⟩
          plainFile.2 = some (back, st') ∧
        SameFile ⟨"/", "/src", "/src/a.js", .text "a", [], none⟩ plainFile.2 back st' := by
  have hvinyl : Convertible plainFile.1 plainFile.2 :=
    convertible_vinylFile _ _ "/src/a.js" (by decide) rfl rfl trivial
  have hfile : Normal ⟨"/", "/src", "/src/a.js", .text "a", [], none⟩ :=
    ⟨by decide, by decide, by decide⟩
  have hroot : Scans "/" := .inl (by decide)
  have hbase : Scans "/src" := .inl (by decide)
  have hpath : Scans "/src/a.js" := .inl (by decide)
  obtain ⟨hsame, hsameFile, -⟩ := conversions_iff closed_empty hvinyl hfile trivial
  have hlast : plainFile.1.path = some "/src/a.js" := by decide
  refine ⟨hsame.mpr ⟨⟨rfl, by decide, nofun⟩, hroot, hbase, ?_, nofun⟩,
    hsameFile.mpr ⟨rfl, hroot, hbase, hpath, nofun⟩⟩
  intro path hmem
  rw [hlast] at hmem
  exact Option.some.inj hmem ▸ hpath

/-- The file that comes back is without the source map. -/
theorem not_sameVinylFile_mapped : Convertible mappedFile.1 mappedFile.2 ∧
    ¬ ∃ back st', Sliced.vinylRoundTrip mappedFile.1 mappedFile.2 = some (back, st') ∧
      SameVinylFile mappedFile.1 mappedFile.2 back st' := by
  constructor
  · exact convertible_vinylFile _ _ "/src/a.js" (by decide) rfl rfl trivial
  · intro hback
    obtain ⟨hsame, -⟩ := (@made_iff (streamFileFromVinyl mappedFile.1) mappedFile.2
      (SameVinylFile mappedFile.1 mappedFile.2)).mp hback
    cases hsame.sourceMap

end Mulp.VinylFs
