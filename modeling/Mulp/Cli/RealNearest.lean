import Mathlib.Data.List.Nodup
import Mulp.Cli.Nearest
import Mulp.Stream.ReadText

/-! The search of the command on a disk (`cmd/mulp/real_config.mbt`).

On the disk a path leads somewhere by its names, however it is spelled, so climbing is
no problem there. What can go wrong is reading the file: as text, in chunks, within a
limit. -/
namespace Mulp.Cli

open Mulp.Core Mulp.Text Mulp.Stream

/-! ## Files as text -/

def readTextFile (n : Nat) (disk : Disk) (path : String) : Option (Except MulpError String) :=
  match fileByteStream disk path 4096 with
  | .ok stream => (stream.readAll n (1024 * 1024) ()).1
  | .error _ => some (.error (couldNotRead path))

/-- What `read_text_file` comes to on a disk. -/
def ReadsText (disk : Disk) (read : String → Except MulpError String) : Prop :=
  ∀ path, ∃ m, ∀ n ≥ m, readTextFile n disk path = some (read path)

/-- What a path leads to: a file with its bytes, or a directory. -/
inductive DiskNode where
  | file (bytes : Bytes)
  | directory

/-- What is read there; a directory is opened as well, and reading it ends at once. -/
def DiskNode.bytes : DiskNode → Bytes
  | file bytes => bytes
  | directory => []

/-- The disk holds the files and no others; the directories are any. A path leads to
where its names lead, however many slashes stand between them; where names lead that
contain `.` or `..` is left open. -/
structure Holds (disk : Disk) (nodes : List String → Option DiskNode) (files : List (String × String)) :
    Prop where
  read : ∀ path, hasPrefix path "/" = true → hasSuffix path "/" = false →
    disk.read path = (nodes (names path)).map DiskNode.bytes
  files : ∀ dir bytes, (∀ name ∈ dir, IsName name) → (nodes dir = some (.file bytes) ↔
    ∃ file ∈ files, names file.1 = dir ∧ Utf8.encode file.2.toList = bytes)

/-- `discover_real_config` gives an error, or the document that is nearest. -/
def RealFindsNearest (read : String → Except MulpError String) (files : List (String × String))
    (cwd : String) : Prop :=
  match discoverRealConfig read cwd with
  | none => False
  | some (.error _) => True
  | some (.ok document) => ∃ nearest, nearestDocument files cwd = some nearest ∧
      names document.path = names nearest.path ∧ document.contents = nearest.contents

/-- What there is in a directory in the configuration's place can be read: as a text of which no
chunk cuts a character, within the limit. A search that meets one that cannot fails or goes on. -/
def Readable (nodes : List String → Option DiskNode) (dir : List String) : Prop :=
  ∃ node, nodes (defaultConfigFileName :: dir) = some node ∧ node.bytes.length ≤ 1024 * 1024

/-- The search goes up to the root without reading anything. -/
def Silent (nodes : List String → Option DiskNode) (dir : List String) : Prop :=
  (∀ level ∈ dir.tails, ¬ Readable nodes level) ∧ ∀ name ∈ dir, IsBmp name

/-- The search reads the nearest document, and no chunk of it ends within a
character; or it reads nothing. A directory whose path contains `.` or `..` has no
document of the files, but there may be something to read. -/
inductive ClimbsDisk (nodes : List String → Option DiskNode) : List String → Prop where
  | silent {dir : List String} : Silent nodes dir → ClimbsDisk nodes dir
  | here {dir : List String} {bytes : Bytes} : (∀ name ∈ dir, IsName name) →
      nodes (defaultConfigFileName :: dir) = some (.file bytes) → bytes.length ≤ 1024 * 1024 →
      (∀ chunk ∈ fileChunks 4096 bytes, Utf8.Valid chunk) → ClimbsDisk nodes dir
  | above {name : String} {above : List String} : ¬ Readable nodes (name :: above) →
      ((∀ other ∈ name :: above, IsName other) → nodes (defaultConfigFileName :: name :: above) = none) →
      IsBmp name → ClimbsDisk nodes above → ClimbsDisk nodes (name :: above)

section Read

variable {disk : Disk} {nodes : List String → Option DiskNode} {files : List (String × String)}
  {read : String → Except MulpError String} {path : String}

/-- The text of a node that can be read. -/
def nodeText (node : DiskNode) : Option String :=
  if node.bytes.length ≤ 1024 * 1024 then some (decodeChunks (fileChunks 4096 node.bytes)) else none

theorem readTextFile_missing (h : disk.read path = none) (n : Nat) :
    readTextFile n disk path = some (.error (couldNotRead path)) := by
  rw [readTextFile, fileByteStream, if_neg (by decide), h]

theorem readTextFile_content {content : Bytes} (h : disk.read path = some content) {n : Nat}
    (hn : content.length < n) : readTextFile n disk path =
      some (if content.length ≤ 1024 * 1024 then .ok (decodeChunks (fileChunks 4096 content))
        else .error (exceeded (1024 * 1024))) := by
  obtain ⟨s, hopen, hread⟩ :=
    @ByteStream.readAll_fileByteStream disk path content 4096 (1024 * 1024) n
      h (by decide) (by decide) (by decide) hn
  have hlimit : (content.length : Int) ≤ 1024 * 1024 ↔ content.length ≤ 1024 * 1024 := by omega
  rw [readTextFile, hopen]
  exact hread.trans (congrArg some (if_congr hlimit rfl rfl))

/-- Reading always ends. -/
theorem exists_readsText (disk : Disk) : ∃ read, ReadsText disk read := by
  have hpath (path : String) : ∃ result, ∃ m, ∀ n ≥ m, readTextFile n disk path = some result := by
    cases hread : disk.read path with
    | none => exact ⟨_, 0, fun n _ => readTextFile_missing hread n⟩
    | some content => exact ⟨_, content.length + 1, fun n hn => readTextFile_content hread hn⟩
  choose read hread using hpath
  exact ⟨read, hread⟩

theorem toOption_read (hreads : ReadsText disk read) (hholds : Holds disk nodes files)
    (habsolute : hasPrefix path "/" = true) (hslash : hasSuffix path "/" = false) :
    (read path).toOption = (nodes (names path)).bind nodeText := by
  obtain ⟨m, hm⟩ := hreads path
  have hread := hholds.read path habsolute hslash
  cases hnode : nodes (names path) with
  | none =>
      rw [hnode] at hread
      have hresult := (hm m (Nat.le_refl m)).symm.trans (readTextFile_missing hread m)
      rw [Option.some.inj hresult]
      rfl
  | some node =>
      rw [hnode] at hread
      have hresult := (hm (max m (node.bytes.length + 1)) (Nat.le_max_left _ _)).symm.trans
        (readTextFile_content hread (Nat.lt_of_succ_le (Nat.le_max_right _ _)))
      rw [Option.some.inj hresult, Option.bind_some, nodeText]
      split_ifs <;> rfl

end Read

/-! ## Documents on the disk -/

section Documents

variable {disk : Disk} {nodes : List String → Option DiskNode} {files : List (String × String)}
  {dir : List String}

theorem findFile_some {path : String} {document : ConfigDocument}
    (h : findFile path files = some document) :
    (path, document.contents) ∈ files := by
  obtain ⟨file, hfile, rfl⟩ := Option.map_eq_some_iff.mp h
  have heq : file.1 = path := by simpa using List.find?_some hfile
  rw [← heq]
  exact List.mem_of_find?_eq_some hfile

theorem isName_default : IsName defaultConfigFileName :=
  ⟨by decide, by decide, by decide, by decide⟩

theorem names_dirText_default (hslash : ∀ name ∈ dir, NoSlash name)
    (hne : ∀ name ∈ dir, name ≠ "") :
    names (dirText (defaultConfigFileName :: dir)) = defaultConfigFileName :: dir :=
  names_dirText (List.forall_mem_cons.mpr ⟨by decide, hslash⟩) (List.forall_mem_cons.mpr ⟨by decide, hne⟩)

/-- A document in memory is a file on the disk. -/
theorem node_of_document (hfiles : ∀ file ∈ files, NormalPath file.1)
    (hholds : Holds disk nodes files) (hslash : ∀ name ∈ dir, NoSlash name)
    (hne : ∀ name ∈ dir, name ≠ "") {document : ConfigDocument}
    (h : documentIn files dir = some document) : (∀ name ∈ dir, IsName name) ∧
      nodes (defaultConfigFileName :: dir) =
        some (.file (Utf8.encode document.contents.toList)) := by
  obtain ⟨normal, hnormal, hpath⟩ := normalPath_of_findFile hfiles h
  have hnames := names_dirText_default hslash hne
  have hsame : normal = defaultConfigFileName :: dir := by
    rw [← hnames, hpath]
    exact (names_dirText (fun name hmem => (hnormal name hmem).noSlash)
      fun name hmem => (hnormal name hmem).ne_empty).symm
  rw [hsame] at hnormal
  exact ⟨(List.forall_mem_cons.mp hnormal).2,
    (hholds.files _ _ hnormal).mpr ⟨_, findFile_some h, hnames, rfl⟩⟩

/-- Without a document in memory there is no file on the disk. -/
theorem no_file_of_no_document (hfiles : ∀ file ∈ files, NormalPath file.1)
    (hholds : Holds disk nodes files) (hdir : ∀ name ∈ dir, IsName name)
    (h : documentIn files dir = none) (bytes : Bytes) :
    nodes (defaultConfigFileName :: dir) ≠ some (.file bytes) := by
  intro hnode
  obtain ⟨file, hfile, hnames, -⟩ :=
    (hholds.files _ _ (List.forall_mem_cons.mpr ⟨isName_default, hdir⟩)).mp hnode
  obtain ⟨normal, hnormal, hpath⟩ := hfiles file hfile
  have hsame : names file.1 = normal := by
    rw [hpath]
    exact names_dirText (fun name hmem => (hnormal name hmem).noSlash)
      fun name hmem => (hnormal name hmem).ne_empty
  have hpath' : file.1 = dirText (defaultConfigFileName :: dir) := by rw [hpath, ← hsame, hnames]
  have hnone := List.find?_eq_none.mp (Option.map_eq_none_iff.mp h) file hfile
  exact hnone (beq_iff_eq.mpr hpath')

/-- The nearest document is in an ancestor. -/
theorem length_names_nearest (hslash : ∀ name ∈ dir, NoSlash name) (hne : ∀ name ∈ dir, name ≠ "")
    {document : ConfigDocument} (h : dir.tails.findSome? (documentIn files) = some document) :
    (names document.path).length ≤ dir.length + 1 := by
  obtain ⟨level, hlevel, hdocument⟩ := List.exists_of_findSome?_eq_some h
  have hsuffix := (List.mem_tails level dir).mp hlevel
  have hnames := names_dirText_default (fun name hmem => hslash name (hsuffix.mem hmem))
    fun name hmem => hne name (hsuffix.mem hmem)
  rw [path_of_findFile hdocument, hnames, List.length_cons]
  exact Nat.succ_le_succ hsuffix.length_le

end Documents

/-! ## The search on the disk -/

section Search

variable {disk : Disk} {nodes : List String → Option DiskNode} {files : List (String × String)}
  {read : String → Except MulpError String} {lead : Nat} {part : Part} {above parts : List Part}

/-- The search on the disk, from where it comes to on its way up. -/
def searchDisk (read : String → Except MulpError String) (lead : Nat) (parts : List Part) :
    Option (Option ConfigDocument) :=
  searchUp (fun _ candidate => (read candidate).toOption.map (ConfigDocument.mk candidate))
    defaultConfigFileName (enter lead parts)

/-- The text that is read in a directory, in the place of the configuration; there is none if there
is no such file. -/
def textIn (nodes : List String → Option DiskNode) (dir : List String) : Option String :=
  (nodes (defaultConfigFileName :: dir)).bind nodeText

theorem textIn_eq_none {dir : List String} : textIn nodes dir = none ↔ ¬ Readable nodes dir := by
  rw [textIn, Readable, Option.bind_eq_none_iff, not_exists]
  refine forall_congr' fun node => ?_
  rw [not_and, nodeText]
  refine imp_congr Iff.rfl ?_
  split_ifs with hlimit
  · simp [hlimit]
  · simp [hlimit]

/-- An absolute path of the configuration in a directory. -/
structure IsCandidate (path : String) (dir : List String) : Prop where
  absolute : hasPrefix path "/" = true
  noSlash : hasSuffix path "/" = false
  names_eq : names path = defaultConfigFileName :: dir

theorem hasSuffix_default (start : String) :
    hasSuffix (start ++ defaultConfigFileName) "/" = false := by
  have hend : (start ++ defaultConfigFileName).toList.getLast? = some 'x' := by
    rw [String.toList_append, List.getLast?_append]
    rfl
  rw [Bool.eq_false_iff]
  intro hsuffix
  obtain ⟨before, hbefore⟩ := hasSuffix_iff.mp hsuffix
  rw [hbefore, String.toList_append, List.getLast?_append] at hend
  cases hend

theorem read_candidate (hreads : ReadsText disk read) (hholds : Holds disk nodes files)
    {dir : List String} {path : String} (hpath : IsCandidate path dir) :
    (read path).toOption = textIn nodes dir := by
  rw [toOption_read hreads hholds hpath.absolute hpath.noSlash, hpath.names_eq, textIn]

theorem isCandidate_root (n : Nat) :
    IsCandidate (candidateIn (slashes (n + 1)) defaultConfigFileName) [] := by
  obtain ⟨rest, hrest⟩ := @exists_spell (n + 1) (Nat.succ_pos n) []
  have hslashes : slashes (n + 1) = "/" ++ rest := hrest
  have hname : names defaultConfigFileName = [defaultConfigFileName] := by decide
  rw [candidateIn]
  split_ifs with hroot
  · exact ⟨hasPrefix_slash _, hasSuffix_default "/", by decide⟩
  · constructor
    · rw [hslashes, String.append_assoc, String.append_assoc]
      exact hasPrefix_slash _
    · exact hasSuffix_default _
    · rw [names_append, names_root, hname, List.append_nil]

theorem isCandidate_name (hlead : 0 < lead) (hslash : ∀ other ∈ part :: above, NoSlash other.name)
    (hne : ∀ other ∈ part :: above, other.name ≠ "") (habove : ∀ other ∈ above, 0 < other.slashes)
    (n : Nat) :
    IsCandidate (candidateIn (spell lead (⟨part.name, n⟩ :: above)) defaultConfigFileName)
      ((part :: above).map Part.name) := by
  obtain ⟨rest, hrest⟩ := exists_spell hlead (⟨part.name, n⟩ :: above)
  rw [List.forall_mem_cons] at hslash hne
  have hname : names defaultConfigFileName = [defaultConfigFileName] := by decide
  rw [candidateIn_spell hlead hne.1]
  constructor
  · rw [hrest, String.append_assoc, String.append_assoc]
    exact hasPrefix_slash _
  · exact hasSuffix_default _
  · rw [names_append, hname, @names_above lead above ⟨part.name, n⟩ hlead habove hslash.1 hne.1,
      names_spell hlead hslash.2 hne.2 fun other hmem => habove other (List.mem_of_mem_tail hmem)]
    rfl

/-- A search at the root finds what is read there. -/
theorem searchDisk_root (hreads : ReadsText disk read) (hholds : Holds disk nodes files) :
    ∃ path, names path = [defaultConfigFileName] ∧
      searchDisk read lead [] = some ((textIn nodes []).map (ConfigDocument.mk path)) := by
  have hslashes : enter lead [] = slashes (max 1 (lead - 1) - 1 + 1) := by
    rw [enter]
    congr 1
    omega
  have hread (n : Nat) : (read (candidateIn (slashes (n + 1)) defaultConfigFileName)).toOption =
      textIn nodes [] :=
    read_candidate hreads hholds (isCandidate_root n)
  refine ⟨_, (isCandidate_root (max 1 (lead - 1) - 1)).names_eq, ?_⟩
  rw [searchDisk, hslashes]
  cases htext : textIn nodes [] with
  | some text =>
      refine searchUp_found ?_
      rw [hread, htext]
      rfl
  | none =>
      rw [searchUp_root]
      · have hroot : (read (candidateIn "/" defaultConfigFileName)).toOption = none :=
          (hread 0).trans htext
        rw [hroot, Option.map_none, ite_self]
        rfl
      · intro k
        rw [hread (k + 1), htext]
        rfl

/-- A search at a name finds what is read there, or goes on above it. -/
theorem searchDisk_name (hreads : ReadsText disk read) (hholds : Holds disk nodes files)
    (hlead : 0 < lead) (hslash : ∀ other ∈ part :: above, NoSlash other.name)
    (hne : ∀ other ∈ part :: above, other.name ≠ "")
    (habove : ∀ other ∈ above, 0 < other.slashes) :
    ∃ path, names path = defaultConfigFileName :: (part :: above).map Part.name ∧
      searchDisk read lead (part :: above) =
        ((textIn nodes ((part :: above).map Part.name)).map fun text => some ⟨path, text⟩).or
          (if ∀ c ∈ part.name.toList, c.toNat ≤ 0xFFFF then searchDisk read lead above else none) := by
  have hread (n : Nat) :
      (read (candidateIn (spell lead (⟨part.name, n⟩ :: above)) defaultConfigFileName)).toOption =
        textIn nodes ((part :: above).map Part.name) :=
    read_candidate hreads hholds (isCandidate_name hlead hslash hne habove n)
  refine ⟨_, (isCandidate_name hlead hslash hne habove (part.slashes - 1)).names_eq, ?_⟩
  cases htext : textIn nodes ((part :: above).map Part.name) with
  | some text =>
      refine searchUp_found ?_
      rw [enter, hread, htext]
      rfl
  | none =>
      rw [searchDisk, enter, searchUp_name hlead (hslash part List.mem_cons_self)
        (hne part List.mem_cons_self) habove]
      · rw [hread 0, htext, Option.map_none, ite_self]
        rfl
      · intro k
        rw [hread (k + 1), htext]
        rfl

theorem length_names_searchDisk (hreads : ReadsText disk read) (hholds : Holds disk nodes files)
    (hlead : 0 < lead) (hslash : ∀ part ∈ parts, NoSlash part.name)
    (hne : ∀ part ∈ parts, part.name ≠ "") (hbetween : ∀ part ∈ parts.tail, 0 < part.slashes)
    {document : ConfigDocument}
    (h : searchDisk read lead parts = some (some document)) :
    (names document.path).length ≤ parts.length + 1 := by
  induction parts with
  | nil =>
      obtain ⟨path, hpath, hsearch⟩ := @searchDisk_root disk nodes files read lead hreads hholds
      rw [hsearch, Option.some.injEq] at h
      obtain ⟨text, -, rfl⟩ := Option.map_eq_some_iff.mp h
      rw [hpath]
      exact Nat.le_refl 1
  | cons part above ih =>
      obtain ⟨path, hpath, hsearch⟩ := searchDisk_name hreads hholds hlead hslash hne hbetween
      rw [hsearch, Option.or_eq_some_iff] at h
      rcases h with h | ⟨-, h⟩
      · obtain ⟨text, -, heq⟩ := Option.map_eq_some_iff.mp h
        cases heq
        rw [hpath]
        simp
      · split_ifs at h with hbmp
        rw [List.forall_mem_cons] at hslash hne
        have hlength := ih hslash.2 hne.2
          (fun other hmem => hbetween other (List.mem_of_mem_tail hmem)) h
        rw [List.length_cons]
        omega

theorem silent_cons {name : String} {dir : List String} :
    Silent nodes (name :: dir) ↔
      ¬ Readable nodes (name :: dir) ∧ IsBmp name ∧ Silent nodes dir := by
  rw [Silent, Silent, List.tails_cons, List.forall_mem_cons, List.forall_mem_cons]
  constructor
  · rintro ⟨⟨hhere, habove⟩, hbmp, hnames⟩
    exact ⟨hhere, hbmp, habove, hnames⟩
  · rintro ⟨hhere, hbmp, habove, hnames⟩
    exact ⟨⟨hhere, habove⟩, hbmp, hnames⟩

theorem silent_nil : Silent nodes [] ↔ ¬ Readable nodes [] := by
  rw [Silent, List.tails, List.forall_mem_singleton, and_iff_left (by nofun)]

/-- The search ends at the root with nothing. -/
theorem searchDisk_silent (hreads : ReadsText disk read) (hholds : Holds disk nodes files)
    (hlead : 0 < lead) (hslash : ∀ part ∈ parts, NoSlash part.name)
    (hne : ∀ part ∈ parts, part.name ≠ "") (hbetween : ∀ part ∈ parts.tail, 0 < part.slashes) :
    searchDisk read lead parts = some none ↔ Silent nodes (parts.map Part.name) := by
  induction parts with
  | nil =>
      obtain ⟨path, -, hsearch⟩ := @searchDisk_root disk nodes files read lead hreads hholds
      rw [hsearch, List.map_nil, silent_nil, ← textIn_eq_none, Option.some.injEq,
        Option.map_eq_none_iff]
  | cons part above ih =>
      obtain ⟨path, -, hsearch⟩ := searchDisk_name hreads hholds hlead hslash hne hbetween
      rw [List.forall_mem_cons] at hslash hne
      rw [hsearch, List.map_cons, silent_cons, ← textIn_eq_none,
        ← ih hslash.2 hne.2 fun other hmem => hbetween other (List.mem_of_mem_tail hmem)]
      cases textIn nodes (part.name :: above.map Part.name) with
      | some text => simp
      | none =>
          rw [Option.map_none, Option.none_or, and_iff_right rfl]
          by_cases hbmp : ∀ c ∈ part.name.toList, c.toNat ≤ 0xFFFF
          · rw [if_pos hbmp, and_iff_right (show IsBmp part.name from hbmp)]
          · rw [if_neg hbmp]
            exact iff_of_false nofun fun h => hbmp h.1

/-- What came of a search is an error, or the nearest document. -/
def IsNearest (nearest : Option ConfigDocument) : Option (Option ConfigDocument) → Prop
  | none => False
  | some none => True
  | some (some document) => ∃ found, nearest = some found ∧
      names document.path = names found.path ∧ document.contents = found.contents

theorem findSome_tails {dir : List String} {document : ConfigDocument}
    (h : documentIn files dir = some document) :
    dir.tails.findSome? (documentIn files) = some document := by
  cases dir with
  | nil => rw [List.tails, List.findSome?_cons, h]
  | cons name above => rw [List.tails_cons, List.findSome?_cons, h]

theorem findSome_tails_cons {name : String} {above : List String}
    (h : documentIn files (name :: above) = none) :
    (name :: above).tails.findSome? (documentIn files) =
      above.tails.findSome? (documentIn files) := by
  rw [List.tails_cons, List.findSome?_cons, h]

/-- What is read in the directory that a search comes to first. -/
theorem isNearest_here (hfiles : ∀ file ∈ files, NormalPath file.1)
    (hholds : Holds disk nodes files) {dir : List String} (hslash : ∀ name ∈ dir, NoSlash name)
    (hne : ∀ name ∈ dir, name ≠ "")
    {path text : String} (hpath : names path = defaultConfigFileName :: dir)
    (htext : textIn nodes dir = some text) :
    IsNearest (dir.tails.findSome? (documentIn files)) (some (some ⟨path, text⟩)) ↔
      ClimbsDisk nodes dir := by
  have hreadable : Readable nodes dir := by
    by_contra h
    rw [textIn_eq_none.mpr h] at htext
    cases htext
  have hnotSilent : ¬ Silent nodes dir := fun hsilent => by
    refine hsilent.1 dir ?_ hreadable
    exact (List.mem_tails dir dir).mpr (List.suffix_refl dir)
  cases hdocument : documentIn files dir with
  | some document =>
      obtain ⟨hdir, hnode⟩ := node_of_document hfiles hholds hslash hne hdocument
      have hnames : names document.path = defaultConfigFileName :: dir := by
        rw [path_of_findFile hdocument]
        exact names_dirText_default hslash hne
      rw [textIn, hnode, Option.bind_some, nodeText] at htext
      split_ifs at htext with hlimit
      cases htext
      rw [findSome_tails hdocument]
      have hchunks := @decodeChunks_iff 4096 (by decide) document.contents
      constructor
      · rintro ⟨found, hfound, -, hcontents⟩
        cases hfound
        exact .here hdir hnode hlimit (hchunks.mp hcontents)
      · intro h
        cases h with
        | silent hsilent => exact absurd hsilent hnotSilent
        | here _ hsame _ hvalid =>
            rw [hnode] at hsame
            cases hsame
            exact ⟨document, rfl, hpath.trans hnames.symm, hchunks.mpr hvalid⟩
        | above hunreadable _ _ _ => exact absurd hreadable hunreadable
  | none =>
      -- what is read is no document of the files, and the nearest one is farther up
      refine iff_of_false ?_ ?_
      · rintro ⟨found, hfound, hsame, -⟩
        cases dir with
        | nil =>
            rw [List.tails, List.findSome?_cons, hdocument] at hfound
            cases hfound
        | cons name above =>
            rw [findSome_tails_cons hdocument] at hfound
            rw [List.forall_mem_cons] at hslash hne
            have hlength := length_names_nearest hslash.2 hne.2 hfound
            rw [← hsame, hpath, List.length_cons, List.length_cons] at hlength
            omega
      · intro h
        cases h with
        | silent hsilent => exact hnotSilent hsilent
        | here hdir hnode _ _ => exact no_file_of_no_document hfiles hholds hdir hdocument _ hnode
        | above hunreadable _ _ _ => exact hunreadable hreadable

/-- A directory without a document, where nothing is read. -/
theorem climbsDisk_missing (hfiles : ∀ file ∈ files, NormalPath file.1)
    (hholds : Holds disk nodes files) {name : String} {dir : List String}
    (hdocument : documentIn files (name :: dir) = none)
    (hunreadable : ¬ Readable nodes (name :: dir)) :
    ClimbsDisk nodes (name :: dir) ↔ IsBmp name ∧ ClimbsDisk nodes dir := by
  constructor
  · intro hclimbs
    cases hclimbs with
    | silent hsilent =>
        obtain ⟨-, hbmp, hrest⟩ := silent_cons.mp hsilent
        exact ⟨hbmp, .silent hrest⟩
    | here hdir hnode _ _ =>
        exact absurd hnode (no_file_of_no_document hfiles hholds hdir hdocument _)
    | above _ _ hbmp hrest => exact ⟨hbmp, hrest⟩
  · rintro ⟨hbmp, hrest⟩
    refine .above hunreadable (fun hdir => ?_) hbmp hrest
    cases hnode : nodes (defaultConfigFileName :: name :: dir) with
    | none => rfl
    | some node =>
        cases node with
        | file bytes => exact absurd hnode (no_file_of_no_document hfiles hholds hdir hdocument bytes)
        | directory => exact absurd ⟨_, hnode, by decide⟩ hunreadable

/-- Where there is a document that cannot be read, the search must read nothing. -/
theorem climbsDisk_unreadable {name : String} {dir : List String} {node : DiskNode}
    (hdir : ∀ other ∈ name :: dir, IsName other)
    (h : nodes (defaultConfigFileName :: name :: dir) = some node)
    (hunreadable : ¬ Readable nodes (name :: dir)) :
    ClimbsDisk nodes (name :: dir) ↔ IsBmp name ∧ Silent nodes dir := by
  have hsilent : ClimbsDisk nodes (name :: dir) ↔ Silent nodes (name :: dir) := by
    refine ⟨fun hclimbs => ?_, .silent⟩
    cases hclimbs with
    | silent hsilent => exact hsilent
    | here _ hnode hlimit _ => exact absurd ⟨_, hnode, hlimit⟩ hunreadable
    | above _ hnone _ _ =>
        rw [hnone hdir] at h
        cases h
  rw [hsilent, silent_cons, and_iff_right hunreadable]

theorem searchDisk_iff (hfiles : ∀ file ∈ files, NormalPath file.1) (hreads : ReadsText disk read)
    (hholds : Holds disk nodes files) (hlead : 0 < lead)
    (hslash : ∀ part ∈ parts, NoSlash part.name) (hne : ∀ part ∈ parts, part.name ≠ "")
    (hbetween : ∀ part ∈ parts.tail, 0 < part.slashes) :
    IsNearest ((parts.map Part.name).tails.findSome? (documentIn files))
      (searchDisk read lead parts) ↔
      ClimbsDisk nodes (parts.map Part.name) := by
  induction parts with
  | nil =>
      obtain ⟨path, hpath, hsearch⟩ := @searchDisk_root disk nodes files read lead hreads hholds
      rw [hsearch]
      cases htext : textIn nodes [] with
      | some text => exact isNearest_here hfiles hholds (by nofun) (by nofun) hpath htext
      | none => exact iff_of_true trivial (.silent (silent_nil.mpr (textIn_eq_none.mp htext)))
  | cons part above ih =>
      obtain ⟨path, hpath, hsearch⟩ := searchDisk_name hreads hholds hlead hslash hne hbetween
      have hdirSlash : ∀ name ∈ (part :: above).map Part.name, NoSlash name :=
        List.forall_mem_map.mpr hslash
      have hdirNe : ∀ name ∈ (part :: above).map Part.name, name ≠ "" := List.forall_mem_map.mpr hne
      have hbelow : ∀ other ∈ above, 0 < other.slashes := hbetween
      have hbetween' : ∀ other ∈ above.tail, 0 < other.slashes := fun other hmem =>
        hbelow other (List.mem_of_mem_tail hmem)
      rw [hsearch]
      cases htext : textIn nodes ((part :: above).map Part.name) with
      | some text =>
          rw [Option.map_some, Option.some_or]
          exact isNearest_here hfiles hholds hdirSlash hdirNe hpath htext
      | none =>
          have hunreadable := textIn_eq_none.mp htext
          rw [List.forall_mem_cons] at hslash hne
          rw [Option.map_none, Option.none_or]
          cases hdocument : documentIn files ((part :: above).map Part.name) with
          | none =>
              rw [List.map_cons] at hdocument hunreadable ⊢
              rw [findSome_tails_cons hdocument,
                climbsDisk_missing hfiles hholds hdocument hunreadable,
                ← ih hslash.2 hne.2 hbetween']
              by_cases hbmp : ∀ c ∈ part.name.toList, c.toNat ≤ 0xFFFF
              · rw [if_pos hbmp, and_iff_right (show IsBmp part.name from hbmp)]
              · rw [if_neg hbmp]
                exact iff_of_false id fun h => hbmp h.1
          | some document =>
              -- a document that is too long: no other one may be found
              obtain ⟨hdir, hnode⟩ := node_of_document hfiles hholds hdirSlash hdirNe hdocument
              have hlength : (names document.path).length = above.length + 2 := by
                rw [path_of_findFile hdocument, names_dirText_default hdirSlash hdirNe]
                simp
              rw [findSome_tails hdocument]
              rw [List.map_cons] at hdir hnode hunreadable ⊢
              rw [climbsDisk_unreadable hdir hnode hunreadable,
                ← searchDisk_silent hreads hholds hlead hslash.2 hne.2 hbetween']
              by_cases hbmp : ∀ c ∈ part.name.toList, c.toNat ≤ 0xFFFF
              · rw [if_pos hbmp, and_iff_right (show IsBmp part.name from hbmp)]
                cases hfarther : searchDisk read lead above with
                | none => exact iff_of_false id nofun
                | some result =>
                    cases result with
                    | none => exact iff_of_true trivial rfl
                    | some found =>
                        refine iff_of_false ?_ nofun
                        rintro ⟨other, hother, hnames, -⟩
                        cases hother
                        have hle := length_names_searchDisk hreads hholds hlead hslash.2 hne.2
                          hbetween' hfarther
                        rw [hnames, hlength] at hle
                        omega
              · rw [if_neg hbmp]
                exact iff_of_false id fun h => hbmp h.1

theorem realFindsNearest_iff (spelling : Spelling) : RealFindsNearest read files spelling.text ↔
    IsNearest ((spelling.parts.map Part.name).tails.findSome? (documentIn files))
      (searchDisk read spelling.lead spelling.parts) := by
  have hsearch : discoverRealConfig read spelling.text =
      (searchDisk read spelling.lead spelling.parts).map
        (searched defaultConfigFileName (enter spelling.lead spelling.parts)) := by
    rw [discoverRealConfig_eq, spelling.trimSlash_text]
    rfl
  rw [RealFindsNearest, nearestDocument, ancestors, spelling.names_text, hsearch]
  rcases searchDisk read spelling.lead spelling.parts with _ | _ | document <;> rfl

/-- Discovery in memory finds the nearest document exactly if it climbs to it through
the spelling of the path, and on the disk exactly if it can read it in whole. -/
theorem discovery_nearest_iff {cwd : String} (hcwd : hasPrefix cwd "/" = true)
    (hfiles : ∀ file ∈ files, NormalPath file.1) :
    ∃ spelling : Spelling, cwd = spelling.text ∧
      (FindsNearest files cwd ↔ Climbs files spelling.lead spelling.parts) ∧
      ∀ disk nodes read, Holds disk nodes files → ReadsText disk read →
        (RealFindsNearest read files cwd ↔ ClimbsDisk nodes (names cwd)) := by
  obtain ⟨spelling, rfl⟩ := exists_spelling hcwd
  refine ⟨spelling, rfl, findsNearest_iff hfiles spelling, ?_⟩
  intro disk nodes read hholds hreads
  rw [spelling.names_text, realFindsNearest_iff,
    searchDisk_iff hfiles hreads hholds spelling.lead_pos
    spelling.noSlash spelling.ne_empty spelling.between]

end Search

/-! ### Disks of files -/

/-- Where the names of these files lead. -/
def nodesOf (files : List (String × String)) (dir : List String) : Option DiskNode :=
  (files.find? fun file => names file.1 == dir).map fun file => .file (Utf8.encode file.2.toList)

/-- A disk that holds these files. -/
def diskOf (files : List (String × String)) : Disk where
  read path := if hasPrefix path "/" then (nodesOf files (names path)).map DiskNode.bytes else none
  stat _ := false
  lstat _ := false
  succeeds _ _ := false
  accesses := []
  place path := path

theorem holds_diskOf {files : List (String × String)}
    (h : (files.map fun file => names file.1).Nodup) :
    Holds (diskOf files) (nodesOf files) files where
  read path habsolute _ := if_pos habsolute
  files dir bytes _ := by
    constructor
    · intro hnode
      obtain ⟨file, hfile, hbytes⟩ := Option.map_eq_some_iff.mp hnode
      injection hbytes with hbytes
      exact ⟨file, List.mem_of_find?_eq_some hfile, by simpa using List.find?_some hfile, hbytes⟩
    · rintro ⟨file, hmem, rfl, rfl⟩
      cases hfound : files.find? fun other => names other.1 == names file.1 with
      | none => exact absurd (beq_self_eq_true _) (List.find?_eq_none.mp hfound file hmem)
      | some other =>
          have hsame : names other.1 = names file.1 := by simpa using List.find?_some hfound
          have heq := List.inj_on_of_nodup_map h (List.mem_of_find?_eq_some hfound) hmem hsame
          rw [nodesOf, hfound, heq]
          rfl

theorem discovery_nearest_app : ∃ spelling : Spelling, "/app/src" = spelling.text ∧
    (FindsNearest [("/app/gulp.mbtx", "")] "/app/src" ↔
      Climbs [("/app/gulp.mbtx", "")] spelling.lead spelling.parts) ∧
    ∃ read, ReadsText (diskOf [("/app/gulp.mbtx", "")]) read ∧
      (RealFindsNearest read [("/app/gulp.mbtx", "")] "/app/src" ↔
        ClimbsDisk (nodesOf [("/app/gulp.mbtx", "")]) (names "/app/src")) := by
  have hfiles : ∀ file ∈ [("/app/gulp.mbtx", "")], NormalPath file.1 := by
    rw [List.forall_mem_singleton]
    refine ⟨[defaultConfigFileName, "app"], ?_, rfl⟩
    rw [List.forall_mem_cons, List.forall_mem_singleton]
    exact ⟨isName_default, by decide, by decide, by decide, by decide⟩
  obtain ⟨spelling, htext, hmemory, hdisk⟩ := @discovery_nearest_iff _ "/app/src" rfl hfiles
  obtain ⟨read, hreads⟩ := exists_readsText (diskOf [("/app/gulp.mbtx", "")])
  exact ⟨spelling, htext, hmemory, read, hreads, hdisk _ _ read (holds_diskOf (by decide)) hreads⟩

/-- A document of `n` bytes below an empty one. -/
def longBelow (n : Nat) : List (String × String) :=
  [("/app/gulp.mbtx", String.ofList (List.replicate n 'a')), ("/gulp.mbtx", "")]

theorem length_encode_replicate (n : Nat) : (Utf8.encode (List.replicate n 'a')).length = n := by
  induction n with
  | zero => rfl
  | succ n ih =>
      have hone : (String.utf8EncodeChar 'a').length = 1 := by decide
      rw [List.replicate_succ, Utf8.encode_cons, List.length_append, ih, hone, Nat.add_comm]

theorem not_climbsDisk_longBelow {n : Nat} (h : 1024 * 1024 < n) :
    ¬ ClimbsDisk (nodesOf (longBelow n)) ["app"] := by
  have hnear : nodesOf (longBelow n) [defaultConfigFileName, "app"] =
      some (.file (Utf8.encode (List.replicate n 'a'))) := by
    have hnames : names "/app/gulp.mbtx" = [defaultConfigFileName, "app"] := by decide
    simp [nodesOf, longBelow, hnames]
  have hfar : nodesOf (longBelow n) [defaultConfigFileName] = some (.file []) := by
    have hnames : names "/app/gulp.mbtx" ≠ [defaultConfigFileName] := by decide
    have hroot : names "/gulp.mbtx" = [defaultConfigFileName] := by decide
    simp [nodesOf, longBelow, hnames, hroot]
  intro hclimbs
  cases hclimbs with
  | silent hsilent => exact hsilent.1 [] (by simp) ⟨.file [], hfar, by decide⟩
  | here _ hnode hlimit _ =>
      rw [hnear] at hnode
      injection hnode with hnode
      injection hnode with hnode
      rw [← hnode, length_encode_replicate] at hlimit
      omega
  | above _ hnone _ _ =>
      rw [hnear] at hnone
      cases hnone (List.forall_mem_singleton.mpr ⟨by decide, by decide, by decide, by decide⟩)

theorem not_realFindsNearest_longBelow {n : Nat} (h : 1024 * 1024 < n)
    {read : String → Except MulpError String} (hreads : ReadsText (diskOf (longBelow n)) read) :
    ¬ RealFindsNearest read (longBelow n) "/app" := by
  have hname : ∀ part ∈ [(⟨"app", 0⟩ : Part)], IsName part.name :=
    List.forall_mem_singleton.mpr ⟨by decide, by decide, by decide, by decide⟩
  have hfiles : ∀ file ∈ longBelow n, NormalPath file.1 := by
    rw [longBelow, List.forall_mem_cons, List.forall_mem_singleton]
    refine ⟨⟨[defaultConfigFileName, "app"], ?_, rfl⟩, [defaultConfigFileName], ?_, rfl⟩
    · exact List.forall_mem_cons.mpr ⟨isName_default, List.forall_mem_map.mpr hname⟩
    · exact List.forall_mem_singleton.mpr isName_default
  have hnodup : ((longBelow n).map fun file => names file.1).Nodup := by
    have hnear : names "/app/gulp.mbtx" = [defaultConfigFileName, "app"] := by decide
    have hfar : names "/gulp.mbtx" = [defaultConfigFileName] := by decide
    simp [longBelow, hnear, hfar]
  intro hnearest
  have hsearch := (realFindsNearest_iff ⟨1, [⟨"app", 0⟩], Nat.one_pos,
    fun part hmem => (hname part hmem).noSlash,
    fun part hmem => (hname part hmem).ne_empty, by nofun⟩).mp hnearest
  exact not_climbsDisk_longBelow h
    ((searchDisk_iff hfiles hreads (holds_diskOf hnodup) Nat.one_pos (fun part hmem => (hname part hmem).noSlash)
      (fun part hmem => (hname part hmem).ne_empty) (by nofun)).mp hsearch)

/-- Two slashes at the end hide the document in memory; on the disk one that is too
long hides itself, and the one above is found. -/
theorem discovery_not_nearest :
    ¬ FindsNearest [("/app/gulp.mbtx", "")] "/app//" ∧
      ∃ read, ReadsText (diskOf (longBelow (1024 * 1024 + 1))) read ∧
        ¬ RealFindsNearest read (longBelow (1024 * 1024 + 1)) "/app" := by
  have hfiles (text : String) : NormalPath ("/app/gulp.mbtx", text).1 :=
    ⟨[defaultConfigFileName, "app"],
      List.forall_mem_cons.mpr ⟨isName_default, List.forall_mem_singleton.mpr
      ⟨by decide, by decide, by decide, by decide⟩⟩, rfl⟩
  constructor
  · intro h
    have spelled : ∃ spelling : Spelling, spelling.lead = 1 ∧ spelling.parts = [⟨"app", 2⟩] :=
      ⟨⟨1, [⟨"app", 2⟩], by decide, by simp [NoSlash], by simp, by simp⟩, rfl, rfl⟩
    obtain ⟨spelling, hlead, hparts⟩ := spelled
    have htext : spelling.text = "/app//" := by
      rw [Spelling.text, hlead, hparts]
      decide
    rw [← htext] at h
    have hclimbs := (findsNearest_iff (List.forall_mem_singleton.mpr (hfiles "")) spelling).mp h
    rw [hlead, hparts] at hclimbs
    cases hclimbs with
    | here _ _ hslashes => exact absurd hslashes (by decide)
    | above hnone _ _ => exact absurd hnone (by decide)
  · obtain ⟨read, hreads⟩ := exists_readsText (diskOf (longBelow (1024 * 1024 + 1)))
    exact ⟨read, hreads, not_realFindsNearest_longBelow (by decide) hreads⟩

end Mulp.Cli
