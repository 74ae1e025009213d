import Mulp.Platform.Path
import Mulp.Stream.MemoryIo

/-! Where the destinations put a file (`stream/file.mbt`, `stream/memory_io.mbt`,
`stream/file_dest.mbt`).

Each destination joins its directory and `relative_path`, which is found on the texts of
`path` and `base`; so it depends on how these are spelled. -/
namespace Mulp.Stream

open Mulp.Text Mulp.Platform

/-! ## The path relative to the base -/

section RelativePath

variable {β : Type} {file : File β}

theorem relativePath_base (h : file.path = file.base) : file.relativePath = "" := by
  rw [File.relativePath, h, pathIsInsideBase]
  simp [trimLeadingSlash, String.length]

theorem relativePath_below {rest : String} (h : file.path = file.base ++ "/" ++ rest) :
    file.relativePath = rest := by
  have hinside : pathIsInsideBase file.path file.base = true := by
    rw [pathIsInsideBase, h]
    simp
  rw [File.relativePath, if_pos hinside, h]
  simp [trimLeadingSlash, String.length]

theorem relativePath_outside (h : file.path ≠ file.base)
    (hbelow : ∀ rest, file.path ≠ file.base ++ "/" ++ rest) : file.relativePath = file.path := by
  rw [File.relativePath, if_neg]
  intro hinside
  rcases (Bool.or_eq_true _ _).mp hinside with hinside | hinside
  · exact h (by simpa using hinside)
  · obtain ⟨rest, hrest⟩ := hasPrefix_iff.mp hinside
    exact hbelow rest hrest

end RelativePath

/-! ## Segments -/

section Segments

variable {β : Type} {file : File β} {rest : List String}

/-- A base that is inside a path by its text is so by its segments. -/
theorem segments_of_inside {path base : String} (h : pathIsInsideBase path base = true) :
    nonEmptySegments base <+: nonEmptySegments path := by
  rcases (Bool.or_eq_true _ _).mp h with hsame | hinside
  · obtain rfl := eq_of_beq hsame
    exact List.prefix_refl _
  · obtain ⟨rest, rfl⟩ := hasPrefix_iff.mp hinside
    rw [nonEmptySegments_append]
    exact List.prefix_append _ _

/-- Segments joined do not start with a slash. -/
theorem hasPrefix_joinSlash_segments (h : ∀ segment ∈ rest, NoSlash segment ∧ segment ≠ "") :
    hasPrefix (joinSlash rest) "/" = false := by
  cases rest with
  | nil => rfl
  | cons segment rest =>
      obtain ⟨hslash, hne⟩ := h segment List.mem_cons_self
      exact hasPrefix_joinSlash hslash hne

theorem isSegment_rest {base path : String}
    (h : nonEmptySegments path = nonEmptySegments base ++ rest) :
    ∀ segment ∈ rest, NoSlash segment ∧ segment ≠ "" := by
  intro segment hsegment
  have hmem : segment ∈ nonEmptySegments path := by
    rw [h]
    exact List.mem_append_right _ hsegment
  exact mem_nonEmptySegments hmem

/-- The path is the base, or goes on from its text after one slash by the segments
joined. -/
def Spelled (file : File β) (rest : List String) : Prop :=
  file.path = file.base ∨ file.path = file.base ++ "/" ++ joinSlash rest

/-- `relative_path` is the rest of the segments for the paths spelled so. -/
theorem relativePath_eq_iff (hpath : hasPrefix file.path "/" = true)
    (h : nonEmptySegments file.path = nonEmptySegments file.base ++ rest) :
    file.relativePath = joinSlash rest ↔ Spelled file rest := by
  rw [Spelled]
  by_cases hsame : file.path = file.base
  · -- nothing is left
    have hrest : rest = [] := by
      rw [hsame] at h
      exact List.self_eq_append_right.mp h
    rw [relativePath_base hsame, hrest]
    exact iff_of_true rfl (.inl hsame)
  · rw [or_iff_right hsame]
    by_cases hinside : ∃ tail, file.path = file.base ++ "/" ++ tail
    · obtain ⟨tail, htail⟩ := hinside
      rw [relativePath_below htail, htail]
      constructor
      · intro heq
        rw [heq]
      · intro heq
        rw [← String.toList_inj, String.toList_append,
          String.toList_append (t := joinSlash rest)] at heq
        exact String.toList_inj.mp (List.append_cancel_left heq)
    · have hinside (tail : String) : file.path ≠ file.base ++ "/" ++ tail :=
        fun hrest => hinside ⟨tail, hrest⟩
      rw [relativePath_outside hsame hinside]
      refine iff_of_false (fun heq => ?_) (hinside _)
      rw [heq, hasPrefix_joinSlash_segments (isSegment_rest h)] at hpath
      cases hpath

/-- A file below its base with no slash but those between segments is spelled so,
unless the base is the root. -/
theorem spelled_plain {segments : List String}
    (hsegments : ∀ segment ∈ segments, NoSlash segment ∧ segment ≠ "")
    (hrest : ∀ segment ∈ rest, NoSlash segment ∧ segment ≠ "")
    (hbase : file.base = "/" ++ joinSlash segments)
    (hpath : file.path = "/" ++ joinSlash (segments ++ rest)) :
    Spelled file rest ↔ segments ≠ [] ∨ rest = [] := by
  rw [Spelled, hbase, hpath]
  by_cases hnil : rest = []
  · rw [hnil, List.append_nil]
    exact iff_of_true (.inl rfl) (.inr rfl)
  · cases segments with
    | nil =>
        rw [List.nil_append, joinSlash_nil, String.append_empty]
        refine iff_of_false ?_ (by simp [hnil])
        rintro (hroot | hroot)
        · have hjoin := String.toList_inj.mpr hroot
          rw [String.toList_append] at hjoin
          have hempty := String.toList_eq_nil_iff.mp (List.append_right_eq_self.mp hjoin)
          exact hnil ((joinSlash_eq_empty fun segment h => (hrest segment h).2).mp hempty)
        · have hlength := congrArg String.length hroot
          simp only [String.length_append] at hlength
          have hone : "/".length = 1 := rfl
          omega
    | cons segment segments =>
        refine iff_of_true (.inr ?_) (.inl (List.cons_ne_nil _ _))
        rw [joinSlash_append (List.cons_ne_nil _ _) hnil]
        simp only [String.append_assoc]

theorem nonEmptySegments_joinRealDestPath (dir rel : String) :
    nonEmptySegments (joinRealDestPath dir rel) = nonEmptySegments dir ++ nonEmptySegments rel := by
  rw [joinRealDestPath]
  split_ifs with hsuffix
  · obtain ⟨start, rfl⟩ := hasSuffix_iff.mp hsuffix
    have hstart := nonEmptySegments_append start ""
    rw [String.append_empty] at hstart
    rw [nonEmptySegments_append, hstart]
    simp [nonEmptySegments]
  · exact nonEmptySegments_append dir rel

end Segments

/-! ## Placement -/

/-- The directory that a transform writes below. -/
def MemoryTransform.outDir : MemoryTransform → String
  | options outDir _ | writeMode outDir _ => outDir
  | modes outDir _ _ | writeModeAndSourcemaps outDir _ _ => outDir

/-- The file that `file_dest_with_options` writes. -/
def fileDestOutput {β : Type} (outDir : String) (cwd : Option String) (input : File β) : File β :=
  withRealDestPath input (joinRealDestPath (resolveRealDestDir outDir cwd) input.relativePath)

theorem fileDestWithOptions_eq (n : Nat) (outDir : String) (cwd : Option String)
    (input : File Nat) :
    fileDestWithOptions n outDir cwd input =
      .fromPull (fileDestPull n (fileDestOutput outDir cwd input)) := rfl

theorem withDestModes_path (file : File Nat) (mode dirMode : Option String) :
    (MemoryDest.withDestModes file mode dirMode).path = file.path := by
  rw [MemoryDest.withDestModes]
  split
  · cases dirMode <;> rfl
  · cases mode <;> rfl

theorem MemoryTransform.output_path (input : File Nat) (transform : MemoryTransform) :
    (transform.output input).path = joinRealDestPath transform.outDir input.relativePath := by
  cases transform with
  | modes outDir mode dirMode => exact withDestModes_path _ mode dirMode
  | options | writeMode | writeModeAndSourcemaps => rfl

/-- What the place of a file below its base should be for every destination: the segments below the
base, below the directory of the destination. The segments are compared, since the destinations do
not normalize what they join. -/
structure Placed (input : File Nat) (rest : List String) : Prop where
  relative : input.relativePath = joinSlash rest
  relative_start : hasPrefix input.relativePath "/" = false
  memory : ∀ transform : MemoryTransform,
    nonEmptySegments (transform.output input).path = nonEmptySegments transform.outDir ++ rest
  disk : ∀ outDir cwd, nonEmptySegments (fileDestOutput outDir cwd input).path =
    nonEmptySegments (resolveRealDestDir outDir cwd) ++ rest

theorem placed_of_relative {input : File Nat} {rest : List String}
    (hrest : ∀ segment ∈ rest, NoSlash segment ∧ segment ≠ "")
    (h : input.relativePath = joinSlash rest) : Placed input rest where
  relative := h
  relative_start := by
    rw [h]
    exact hasPrefix_joinSlash_segments hrest
  memory transform := by
    rw [transform.output_path, nonEmptySegments_joinRealDestPath, h,
      nonEmptySegments_joinSlash hrest]
  disk outDir cwd := by
    show nonEmptySegments (joinRealDestPath _ _) = _
    rw [nonEmptySegments_joinRealDestPath, h, nonEmptySegments_joinSlash hrest]

theorem placed_iff (input : File Nat) (hpath : hasPrefix input.path "/" = true) :
    (¬ nonEmptySegments input.base <+: nonEmptySegments input.path →
      pathIsInsideBase input.path input.base = false) ∧
    ∀ rest, nonEmptySegments input.path = nonEmptySegments input.base ++ rest →
      (Placed input rest ↔ Spelled input rest) := by
  constructor
  · intro hsibling
    rw [← Bool.not_eq_true]
    exact fun hinside => hsibling (segments_of_inside hinside)
  · intro rest h
    rw [← relativePath_eq_iff hpath h]
    constructor
    · exact Placed.relative
    · exact placed_of_relative (isSegment_rest h)

/-- A file below the directory `/srv`, by the name of the base. -/
def served (base path : String) : File Nat := ⟨"/", base, path, .empty, [], none⟩

theorem placed_trailing :
    (nonEmptySegments "/srv/site/a.txt" = nonEmptySegments "/srv/" ++ ["site", "a.txt"] ∧
      ¬ Placed (served "/srv/" "/srv/site/a.txt") ["site", "a.txt"]) ∧
    nonEmptySegments "/etc/hosts" = nonEmptySegments "/" ++ ["etc", "hosts"] ∧
      ¬ Placed (served "/" "/etc/hosts") ["etc", "hosts"] := by
  refine ⟨⟨by decide, fun h => ?_⟩, by decide, fun h => ?_⟩
  · have hrelative := h.relative
    revert hrelative
    decide
  · have hrelative := h.relative
    revert hrelative
    decide

theorem placed_plain : Placed (served "/srv" "/srv/site/a.txt") ["site", "a.txt"] :=
  ((placed_iff (served "/srv" "/srv/site/a.txt") (by decide)).2 ["site", "a.txt"] (by decide)).mpr
    (.inr (by decide))

end Mulp.Stream
