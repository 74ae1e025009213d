import Mulp.Vinyl.Relative
import Mulp.VinylFs.DestPath
import Mulp.VinylFs.Literal

/-! Where a relative link leads (`vinyl_fs/dest.mbt`).

A link is read from the directory that it is in, and its text is made relative to
another one: the output directory, or the base of the file. So the two have to be the
same place. -/
namespace Mulp.VinylFs

open Mulp.Core Mulp.Stream Mulp.Text Mulp.Vinyl Lexical

/-- The link leads to this path from the directory that it is in. Paths are compared as places,
since a link's text goes up and down again. -/
def Points (link : VinylFile Nat Nat) (target : String) : Prop :=
  ∃ text ∈ link.symlink, place (place [] (pathText link)).dropLast text = place [] target

/-! ## Absolute paths -/

/-- A path from the root, without empty segments and without `.` and `..`. -/
structure Absolute (path : String) : Prop where
  rooted : hasPrefix path "/" = true
  normal : normalizePath path = path

namespace Absolute

variable {path : String}

theorem ne_empty (h : Absolute path) : path ≠ "" := by
  rintro rfl
  cases h.rooted

theorem isName (path : String) : ∀ name ∈ (location path).pos.names, IsName name :=
  (location_proper path).names

theorem text_eq (h : Absolute path) : path = "/" ++ joinSlash (place [] path) := by
  have hrooted : (location path).rooted = true := h.rooted
  have hups : (location path).pos.ups = 0 := (location_proper path).rooted hrooted
  have htext := text_location h.normal h.ne_empty
  rw [Location.text, if_pos hrooted, Location.parts, hups, List.replicate_zero,
    List.nil_append] at htext
  rw [place_rooted h.rooted]
  exact htext.symm

/-- The parts that `relative_path_from` compares. -/
theorem nonEmptyParts_eq (h : Absolute path) : nonEmptyParts path = place [] path := by
  have hplace : place [] path = (location path).pos.names := place_rooted h.rooted
  have hnames : ∀ name ∈ place [] path, IsName name := by
    rw [hplace]
    exact isName path
  rw [nonEmptyParts]
  conv_lhs => rw [h.text_eq]
  rw [splitSlash_slash]
  by_cases hnil : place [] path = []
  · rw [hnil]
    rfl
  · rw [splitSlash_joinSlash hnil fun name hname => (hnames name hname).noSlash]
    rw [List.filter_cons_of_neg (by decide), List.filter_eq_self]
    intro name hname
    exact decide_eq_true (hnames name hname).ne_empty

end Absolute

/-! ## `relative_path_from` -/

section Relative

variable {base target : String}

theorem relativePathFrom_text (base target : String) :
    relativePathFrom base target = (⟨false, ⟨(nonEmptyParts base).length -
      commonLength (nonEmptyParts base) (nonEmptyParts target),
      (nonEmptyParts target).drop (commonLength (nonEmptyParts base) (nonEmptyParts target))⟩⟩ :
        Location).text := by
  rw [relativePathFrom, Location.text, Location.parts, if_neg Bool.false_ne_true]

/-- From any directory, the path goes up as many levels as the base is below what it
has in common with the target. -/
theorem place_relativePathFrom (hbase : Absolute base) (htarget : Absolute target)
    (dir : List String) :
    place dir (relativePathFrom base target) =
      dir.take (dir.length -
          ((place [] base).length - commonLength (place [] base) (place [] target))) ++
        (place [] target).drop (commonLength (place [] base) (place [] target)) := by
  have hproper : (⟨false, ⟨(place [] base).length - commonLength (place [] base) (place [] target),
      (place [] target).drop (commonLength (place [] base) (place [] target))⟩⟩ :
        Location).Proper := by
    refine ⟨fun name hname => ?_, fun h => absurd h Bool.false_ne_true⟩
    have hmem := List.mem_of_mem_drop hname
    rw [place_rooted htarget.rooted] at hmem
    exact Absolute.isName target name hmem
  have hlocation := location_text hproper
  have htext := relativePathFrom_text base target
  rw [hbase.nonEmptyParts_eq, htarget.nonEmptyParts_eq] at htext
  rw [← htext] at hlocation
  have hrooted (path : String) : hasPrefix path "/" = (location path).rooted := rfl
  have hrelative : hasPrefix (relativePathFrom base target) "/" = false := by
    rw [hrooted, hlocation]
  rw [place_relative hrelative, hlocation]

/-- From a directory below the base, the path leads to the target only if the directory
is the base. -/
theorem place_relativePathFrom_iff (hbase : Absolute base) (htarget : Absolute target)
    (nested : List String) :
    place (place [] base ++ nested) (relativePathFrom base target) = place [] target ↔
      nested = [] := by
  have hcommon := commonLength_le (place [] base) (place [] target)
  have htake := commonLength_take (place [] base) (place [] target)
  rw [place_relativePathFrom hbase htarget]
  generalize commonLength (place [] base) (place [] target) = common at hcommon htake
  have hsplit : place [] target = (place [] base).take common ++ (place [] target).drop common := by
    rw [htake, List.take_append_drop]
  conv_lhs => rhs; rw [hsplit]
  rw [List.append_cancel_right_eq]
  constructor
  · intro h
    have hlength := congrArg List.length h
    simp only [List.length_take, List.length_append] at hlength
    exact List.length_eq_zero_iff.mp (by omega)
  · rintro rfl
    rw [List.append_nil, Nat.sub_sub_self hcommon]

/-- The relative path of what is below the base. -/
theorem relativeBetween_below {path : String} (hbase : Absolute base) (hpath : Absolute path)
    {nested : List String} (hnested : nested ≠ [])
    (hbelow : place [] path = place [] base ++ nested) :
    relativeBetween base path = joinSlash nested := by
  by_cases hroot : place [] base = []
  · have hslash : base = "/" := by
      rw [hbase.text_eq, hroot]
      rfl
    have hne : path ≠ "/" := by
      rintro rfl
      rw [hroot, List.nil_append] at hbelow
      exact hnested hbelow.symm
    have hparts : relativeParts "/" path = nested := by
      have hups : (location path).pos.ups = 0 := (location_proper path).rooted hpath.rooted
      rw [place_rooted hpath.rooted, hroot, List.nil_append] at hbelow
      rw [relativeParts, pathParts_location path, Location.parts, hups, hbelow]
      rfl
    rw [hslash, relativeBetween_slow hne fun hinside => hinside.1 rfl, hparts]
  · have hne : base ≠ "/" := by
      rintro rfl
      exact hroot rfl
    have hinside : path = base ++ "/" ++ joinSlash nested := by
      rw [hpath.text_eq, hbelow, joinSlash_append hroot hnested]
      conv_rhs => rw [hbase.text_eq]
      simp only [String.append_assoc]
    rw [hinside, relativeBetween_fast hne]

end Relative

/-! ## The link of a file -/

section Link

variable {input : VinylFile Nat Nat} {outDir : String} {options : DestOptions}

/-- What the link leads to, without a target of its own. -/
def linkTarget (input : VinylFile Nat Nat) : String := input.symlink.getD (pathText input)

theorem resolveDestDir_absolute (h : hasPrefix outDir "/" = true) (cwd : String) :
    resolveDestDir outDir cwd = outDir := if_pos h

theorem pathText_symlinkFile (hout : Absolute outDir) (st : Store) :
    pathText (symlinkFile outDir options input st).1 =
      normalizePath (joinDestPath outDir input.relative) := by
  simp only [symlinkFile, resolveDestDir_absolute hout.rooted]
  exact pathText_vinylFile st rfl rfl

theorem symlink_symlinkFile (hout : Absolute outDir) (hrelative : options.relativeSymlinks = true)
    (st : Store) :
    (symlinkFile outDir options input st).1.symlink =
      some (normalizePath (relativePathFrom outDir (linkTarget input))) := by
  have hsymlink (args : VinylFileArgs) :
      (vinylFile args st).1.symlink = args.symlink.map normalizePath := rfl
  simp only [symlinkFile, hsymlink, Option.map_some, if_pos hrelative,
    resolveDestDir_absolute hout.rooted, linkTarget]

/-- A link below the output directory leads to its target only if it is directly in it. -/
theorem points_iff (hout : Absolute outDir) (htarget : Absolute (linkTarget input))
    (hrelative : options.relativeSymlinks = true) (st : Store) {nested : List String}
    (hnested : nested ≠ [])
    (hlink : place [] (joinDestPath outDir input.relative) = place [] outDir ++ nested) :
    Points (symlinkFile outDir options input st).1 (linkTarget input) ↔ nested.length = 1 := by
  have hdir : (place [] (pathText (symlinkFile outDir options input st).1)).dropLast =
      place [] outDir ++ nested.dropLast := by
    rw [pathText_symlinkFile hout, place_normalizePath, hlink,
      List.dropLast_append_of_ne_nil hnested]
  have hlength : nested.dropLast = [] ↔ nested.length = 1 := by
    have hpositive := List.length_pos_iff.mpr hnested
    rw [← List.length_eq_zero_iff, List.length_dropLast]
    omega
  rw [Points, symlink_symlinkFile hout hrelative, hdir, ← hlength,
    ← place_relativePathFrom_iff hout htarget nested.dropLast]
  simp only [Option.mem_some_iff, exists_eq_left', place_normalizePath]

/-- A file below its base is linked as far below the output directory. -/
theorem place_joinDestPath {path : String} (hbase : Absolute input.base) (hpath : Absolute path)
    (hinput : input.path = some path)
    (hfresh : ∀ value ∈ input.relativeCache, value = relativeBetween input.base path)
    (hout : Absolute outDir) {nested : List String} (hnested : nested ≠ [])
    (hbelow : place [] path = place [] input.base ++ nested) :
    place [] (joinDestPath outDir input.relative) = place [] outDir ++ nested := by
  have hnames : ∀ name ∈ nested, IsName name := by
    intro name hname
    have hplace : place [] path = (location path).pos.names := place_rooted hpath.rooted
    refine Absolute.isName path name ?_
    rw [← hplace, hbelow]
    exact List.mem_append_right _ hname
  have hbetween : input.relative = relativeBetween input.base path := by
    rw [VinylFile.relative, VinylFile.relativeResult]
    cases hcache : input.relativeCache with
    | none => rw [hinput]; rfl
    | some value => exact hfresh value hcache
  have hrooted : (location outDir).rooted = true := hout.rooted
  rw [hbetween, relativeBetween_below hbase hpath hnested hbelow, place,
    location_joinDestPath hout.ne_empty, place_rooted hout.rooted]
  simp only [hrooted, if_true]
  rw [splitSlash_joinSlash hnested fun name hname => (hnames name hname).noSlash,
    List.map_congr_left fun name hname => (hnames name hname).stepOf_eq, Pos.walk_down]

/-- The relative link that is made below the output directory leads to its target
exactly if it is directly in the directory; for a file below its base, if the file is
directly in the base. -/
theorem relativeSymlink_points_iff {path : String} (hbase : Absolute input.base)
    (hpath : Absolute path) (hinput : input.path = some path)
    (hsymlink : ∀ target ∈ input.symlink, Absolute target)
    (hout : Absolute outDir) (hrelative : options.relativeSymlinks = true) (st : Store)
    {nested : List String} (hnested : nested ≠ []) :
    (place [] (joinDestPath outDir input.relative) = place [] outDir ++ nested →
      (Points (symlinkFile outDir options input st).1 (linkTarget input) ↔ nested.length = 1)) ∧
    ((∀ value ∈ input.relativeCache, value = relativeBetween input.base path) →
      place [] path = place [] input.base ++ nested →
      (Points (symlinkFile outDir options input st).1 (linkTarget input) ↔ nested.length = 1)) := by
  have htarget : Absolute (linkTarget input) := by
    rw [linkTarget]
    cases hlink : input.symlink with
    | none =>
        rw [Option.getD_none, pathText, hinput]
        exact hpath
    | some target => exact hsymlink target hlink
  constructor
  · intro hlink
    exact points_iff hout htarget hrelative st hnested hlink
  · intro hfresh hbelow
    have hlink := place_joinDestPath hbase hpath hinput hfresh hout hnested hbelow
    exact points_iff hout htarget hrelative st hnested hlink

end Link

/-- A file next to or below the base. -/
def sourceFile (path : String) : VinylFile Nat Nat :=
  (vinylFile { cwd := "/src", base := "/src", path := some path } .empty).1

/-- The link `/out/css/app.css` has the text `../src/css/app.css`, which leads from its
directory to `/out/src/css/app.css`. -/
theorem nestedLink_astray :
    pathText (symlinkFile "/out" { relativeSymlinks := true }
        (sourceFile "/src/css/app.css") .empty).1 = "/out/css/app.css" ∧
      (symlinkFile "/out" { relativeSymlinks := true }
        (sourceFile "/src/css/app.css") .empty).1.symlink = some "../src/css/app.css" ∧
      place ["out", "css"] "../src/css/app.css" = ["out", "src", "css", "app.css"] ∧
      ¬Points (symlinkFile "/out" { relativeSymlinks := true }
        (sourceFile "/src/css/app.css") .empty).1 "/src/css/app.css" := by
  have hpath : pathText (symlinkFile "/out" { relativeSymlinks := true }
      (sourceFile "/src/css/app.css") .empty).1 = "/out/css/app.css" := by decide +kernel
  have hsymlink : (symlinkFile "/out" { relativeSymlinks := true }
      (sourceFile "/src/css/app.css") .empty).1.symlink = some "../src/css/app.css" := by
    decide +kernel
  refine ⟨hpath, hsymlink, by decide +kernel, ?_⟩
  rw [Points, hpath, hsymlink]
  simp only [Option.mem_some_iff, exists_eq_left']
  decide +kernel

theorem directLink_points :
    Points (symlinkFile "/out" { relativeSymlinks := true } (sourceFile "/src/app.css") .empty).1
      "/src/app.css" := by
  have hpoints := @relativeSymlink_points_iff (sourceFile "/src/app.css") "/out"
    { relativeSymlinks := true } "/src/app.css" ⟨by decide +kernel, by decide +kernel⟩
    ⟨by decide +kernel, by decide +kernel⟩ (by decide +kernel) (fun _ htarget => by cases htarget)
    ⟨by decide +kernel, by decide +kernel⟩ rfl .empty ["app.css"] (List.cons_ne_nil _ _)
  have htarget : linkTarget (sourceFile "/src/app.css") = "/src/app.css" := by decide +kernel
  rw [htarget] at hpoints
  exact (hpoints.1 (by decide +kernel)).mpr rfl

end Mulp.VinylFs
