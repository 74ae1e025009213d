import Mathlib.Data.List.Infix
import Mathlib.Data.List.DropRight
import Mulp.Text.Path
import Mulp.Chokidar.Types

/-! Paths of a watcher (`chokidar/path.mbt`) and what it ignores (`chokidar/matchers.mbt`). -/
namespace Mulp.Chokidar

open Text

/-- `trim_end(chars="/")`, where the path is not only a slash. -/
def trimTrailingSlashes (path : String) : String :=
  if path = "/" then "/" else String.ofList (path.toList.rdropWhile (· = '/'))

def trimLeadingSlashes (path : String) : String := String.ofList (path.toList.dropWhile (· = '/'))

def collapseSlashes (path : String) : String :=
  let kept := (splitSlash path).filter (· ≠ "")
  if hasPrefix path "/" then "/" ++ joinSlash kept else joinSlash kept

/-- `replace_all(old="\\", new="/")`. -/
def unixPath (path : String) : String :=
  String.ofList (path.toList.map fun c => if c = '\\' then '/' else c)

def normalizePath (path : String) : String :=
  let trimmed := trimTrailingSlashes (collapseSlashes (unixPath path))
  if trimmed = "" then "." else trimmed

def joinPath (parent child : String) : String :=
  let parent := trimTrailingSlashes (normalizePath parent)
  let child := trimLeadingSlashes (normalizePath child)
  if parent = "" ∨ parent = "." then
    if child = "" ∨ child = "." then "." else child
  else if child = "" ∨ child = "." then parent
  else if parent = "/" then "/" ++ child
  else parent ++ "/" ++ child

/-- `path.rev_split_once("/")`. -/
def revSplitOnce (path : String) : Option (String × String) :=
  match (splitSlash path).reverse with
  | base :: dir :: rest => some (joinSlash (dir :: rest).reverse, base)
  | _ => none

def pathBasename (path : String) : String :=
  let path := normalizePath path
  if path = "" then "."
  else if path = "/" then "/"
  else
    match revSplitOnce path with
    | some (_, base) => base
    | none => path

def pathDirname (path : String) : String :=
  let path := normalizePath path
  if path = "/" then "/"
  else
    match revSplitOnce path with
    | some (dir, _) => if dir = "" then "/" else dir
    | none => "."

/-- `value.strip_prefix(start)`. -/
def stripPrefix (value start : String) : Option String :=
  if hasPrefix value start then some (String.ofList (value.toList.drop start.toList.length)) else none

def relativePath (root fullPath : String) : String :=
  let root := normalizePath root
  let fullPath := normalizePath fullPath
  match stripPrefix fullPath root with
  | some path =>
      if path = "" then ""
      else if root = "/" then path
      else if hasPrefix path "/" then trimLeadingSlashes path
      else fullPath
  | none => fullPath

/-! ## What is ignored -/

def isDotSwapFile (path : String) : Bool :=
  let name := pathBasename path
  if hasSuffix name "~" then true
  else if (hasSuffix name ".swp" || hasSuffix name ".swx") && hasPrefix name "." then true
  else decide (".subl".toList <:+: name.toList) && hasSuffix name ".tmp"

def recursivePathMatches (root path : String) : Bool :=
  let root := normalizePath root
  let path := normalizePath path
  root = "/" || path = root || hasPrefix path (root ++ "/")

/-- A regular expression is the paths that it matches. -/
inductive Matcher where
  | matchPath (target : String)
  | matchRecursivePath (target : String)
  | matchFunction (fnMatch : String → Option FileStats → Bool)
  | matchRegex (re : String → Bool)

def matcherMatches (path : String) (stats : Option FileStats) : Matcher → Bool
  | .matchPath target => normalizePath target = normalizePath path
  | .matchRecursivePath target => recursivePathMatches target path
  | .matchFunction fnMatch => fnMatch path stats
  | .matchRegex re => re path

def isIgnored (path : String) (stats : Option FileStats) (ignored : List Matcher) : Bool :=
  ignored.any (matcherMatches path stats)

/-- The options that the watcher reads; the others are for the backend. -/
structure Options where
  ignored : List Matcher
  ignoreInitial : Bool
  followSymlinks : Bool
  cwd : Option String
  usePolling : Bool
  alwaysStat : Bool
  depth : Int32
  ignorePermissionErrors : Bool
  atomicOption : AtomicOption
  awaitWriteFinish : AwaitWriteFinish

def Options.default : Options where
  ignored := []
  ignoreInitial := false
  followSymlinks := true
  cwd := none
  usePolling := false
  alwaysStat := false
  depth := 2147483647
  ignorePermissionErrors := false
  atomicOption := .atomicDefault
  awaitWriteFinish := .awaitWriteFinishOff

def eventPathFor (path : String) (options : Options) : String :=
  match options.cwd with
  | some cwd => relativePath cwd path
  | none => path

def absolutePathFor (path : String) (options : Options) : String :=
  match options.cwd with
  | some cwd => joinPath cwd path
  | none => path

/-! ## Normal paths -/

/-- A name that a file may have. -/
structure IsFileName (name : String) : Prop where
  noSlash : NoSlash name
  ne_empty : name ≠ ""

instance (name : String) : Decidable (IsFileName name) :=
  decidable_of_iff (NoSlash name ∧ name ≠ "") ⟨fun h => ⟨h.1, h.2⟩, fun h => ⟨h.noSlash, h.ne_empty⟩⟩

/-- A name between the slashes of a normal path. -/
structure IsSegment (name : String) : Prop extends IsFileName name where
  noBackslash : '\\' ∉ name.toList

instance (name : String) : Decidable (IsSegment name) :=
  decidable_of_iff (IsFileName name ∧ '\\' ∉ name.toList)
    ⟨fun h => ⟨h.1, h.2⟩, fun h => ⟨h.toIsFileName, h.noBackslash⟩⟩

/-- The normal path with the names, from the root or not. -/
def pathText (rooted : Bool) (names : List String) : String :=
  if rooted then "/" ++ joinSlash names else if names = [] then "." else joinSlash names

variable {names first second : List String} {rooted : Bool} {path : String}

theorem fileNames (h : ∀ name ∈ names, IsSegment name) : ∀ name ∈ names, IsFileName name :=
  fun name hname => (h name hname).toIsFileName

theorem unixPath_of_not_mem (h : '\\' ∉ path.toList) : unixPath path = path := by
  have hmap : (path.toList.map fun c => if c = '\\' then '/' else c) = path.toList.map id := by
    refine List.map_congr_left fun c hc => if_neg ?_
    rintro rfl
    exact h hc
  rw [unixPath, hmap, List.map_id, String.ofList_toList]

theorem trimTrailingSlashes_joinSlash (h : ∀ name ∈ names, IsFileName name) (before : String)
    (hne : names ≠ []) : trimTrailingSlashes (before ++ joinSlash names) = before ++ joinSlash names := by
  obtain ⟨start, last, rfl⟩ := (List.eq_nil_or_concat' names).resolve_left hne
  have hlast := h last (by simp)
  obtain ⟨chars, c, hchars⟩ := (List.eq_nil_or_concat' last.toList).resolve_left
    (mt String.toList_eq_nil_iff.mp hlast.ne_empty)
  have hc : c ≠ '/' := by
    rintro rfl
    exact hlast.noSlash (by rw [hchars]; simp)
  -- the text ends with the last character of the last name
  have hend : ∃ front, (before ++ joinSlash (start ++ [last])).toList = front ++ [c] := by
    by_cases hstart : start = []
    · rw [hstart, List.nil_append, joinSlash_singleton]
      exact ⟨before.toList ++ chars, by rw [String.toList_append, hchars, List.append_assoc]⟩
    · rw [joinSlash_append hstart (by simp), joinSlash_singleton]
      refine ⟨(before ++ (joinSlash start ++ "/")).toList ++ chars, ?_⟩
      rw [← String.append_assoc, String.toList_append, hchars, List.append_assoc]
  obtain ⟨front, hfront⟩ := hend
  rw [trimTrailingSlashes]
  split_ifs with hroot
  · rw [hroot] at hfront
    have hslash : front ++ [c] = [] ++ ['/'] := hfront.symm
    exact absurd (by simpa using congrArg List.getLast? hslash) hc
  · rw [hfront, List.rdropWhile_concat_neg _ _ _ (by simpa using hc), ← hfront, String.ofList_toList]

theorem not_mem_unixPath (path : String) : '\\' ∉ (unixPath path).toList := by
  rw [unixPath, String.toList_ofList, List.mem_map]
  rintro ⟨c, -, hc⟩
  split_ifs at hc with h
  · cases hc
  · exact h hc

theorem isSegment_of_mem (path : String) :
    ∀ name ∈ (splitSlash (unixPath path)).filter (· ≠ ""), IsSegment name := by
  intro name hname
  obtain ⟨hmem, hne⟩ := List.mem_filter.mp hname
  refine ⟨⟨noSlash_of_mem_splitSlash hmem, by simpa using hne⟩, ?_⟩
  obtain ⟨chars, hchars, rfl⟩ := List.mem_map.mp hmem
  rw [String.toList_ofList]
  intro hback
  exact not_mem_unixPath path (subset_of_mem_splitOn hchars hback)

theorem joinSlash_ne_empty (h : ∀ name ∈ names, IsFileName name) (hne : names ≠ []) :
    joinSlash names ≠ "" :=
  fun hempty => hne ((joinSlash_eq_empty fun name hname => (h name hname).ne_empty).mp hempty)

/-- Normalizing makes a path normal. -/
theorem normalizePath_eq (path : String) :
    normalizePath path = pathText (hasPrefix (unixPath path) "/")
      ((splitSlash (unixPath path)).filter (· ≠ "")) := by
  have hsegments := isSegment_of_mem path
  unfold normalizePath collapseSlashes pathText
  generalize (splitSlash (unixPath path)).filter (· ≠ "") = kept at hsegments
  cases hasPrefix (unixPath path) "/" with
  | true =>
      rw [if_pos rfl, if_pos rfl]
      by_cases hnil : kept = []
      · subst hnil
        rfl
      · rw [trimTrailingSlashes_joinSlash (fileNames hsegments) "/" hnil]
        exact if_neg (by simp)
  | false =>
      rw [if_neg Bool.false_ne_true, if_neg Bool.false_ne_true]
      by_cases hnil : kept = []
      · subst hnil
        rfl
      · have htrim := trimTrailingSlashes_joinSlash (fileNames hsegments) "" hnil
        rw [String.empty_append] at htrim
        rw [htrim, if_neg (joinSlash_ne_empty (fileNames hsegments) hnil), if_neg hnil]

theorem noBackslash_joinSlash (h : ∀ name ∈ names, IsSegment name) :
    '\\' ∉ (joinSlash names).toList := by
  intro hmem
  rcases mem_joinSlash hmem with hc | ⟨name, hname, hc⟩
  · cases hc
  · exact (h name hname).noBackslash hc

theorem filter_segments (h : ∀ name ∈ names, IsSegment name) : names.filter (· ≠ "") = names :=
  List.filter_eq_self.mpr fun name hname => by simpa using (h name hname).ne_empty

theorem splitSlash_names (h : ∀ name ∈ names, IsFileName name) (hne : names ≠ []) :
    splitSlash (joinSlash names) = names :=
  splitSlash_joinSlash hne fun name hname => (h name hname).noSlash

/-- A normal path stays what it is. -/
theorem normalizePath_pathText (h : ∀ name ∈ names, IsSegment name) :
    normalizePath (pathText rooted names) = pathText rooted names := by
  have hback := noBackslash_joinSlash h
  rw [normalizePath_eq]
  cases rooted with
  | true =>
      have hunix : unixPath ("/" ++ joinSlash names) = "/" ++ joinSlash names := by
        apply unixPath_of_not_mem
        rw [String.toList_append, List.mem_append]
        rintro (hc | hc)
        · exact absurd hc (by decide)
        · exact hback hc
      have hkept : ((splitSlash ("/" ++ joinSlash names)).filter (· ≠ "")) = names := by
        by_cases hnil : names = []
        · subst hnil
          decide
        · rw [splitSlash_slash, splitSlash_names (fileNames h) hnil]
          exact filter_segments h
      simp only [pathText, if_true, hunix, hasPrefix_slash, hkept]
  | false =>
      by_cases hnil : names = []
      · subst hnil
        decide
      · obtain ⟨first, rest, rfl⟩ := List.exists_cons_of_ne_nil hnil
        have hfirst := h first List.mem_cons_self
        simp only [pathText, Bool.false_eq_true, if_false, if_neg hnil, unixPath_of_not_mem hback,
          splitSlash_names (fileNames h) hnil, hasPrefix_joinSlash hfirst.noSlash hfirst.ne_empty, filter_segments h]

/-- What a path normalizes to is normal. -/
theorem normalizePath_idem (path : String) :
    normalizePath (normalizePath path) = normalizePath path := by
  rw [normalizePath_eq path]
  exact normalizePath_pathText (isSegment_of_mem path)

/-! ## Joining and splitting -/

theorem trimTrailingSlashes_pathText (h : ∀ name ∈ names, IsFileName name) :
    trimTrailingSlashes (pathText rooted names) = pathText rooted names := by
  by_cases hnil : names = []
  · subst hnil
    cases rooted <;> decide
  · cases rooted with
    | true => exact trimTrailingSlashes_joinSlash h "/" hnil
    | false =>
        have htrim := trimTrailingSlashes_joinSlash h "" hnil
        rw [String.empty_append] at htrim
        simpa only [pathText, Bool.false_eq_true, if_false, if_neg hnil] using htrim

theorem trimLeadingSlashes_joinSlash (h : ∀ name ∈ names, IsFileName name) :
    trimLeadingSlashes (joinSlash names) = joinSlash names := by
  cases names with
  | nil => rfl
  | cons first rest =>
      have hfirst := h first List.mem_cons_self
      have hno := @hasPrefix_joinSlash first rest hfirst.noSlash hfirst.ne_empty
      rw [trimLeadingSlashes]
      cases hchars : (joinSlash (first :: rest)).toList with
      | nil => rw [List.dropWhile_nil, ← hchars, String.ofList_toList]
      | cons c chars =>
          rw [hasPrefix, hchars] at hno
          have hc : c ≠ '/' := by
            rintro rfl
            simp [List.isPrefixOf] at hno
          rw [List.dropWhile_cons_of_neg (by simpa using hc), ← hchars, String.ofList_toList]

theorem pathText_false (hne : names ≠ []) : pathText false names = joinSlash names := by
  rw [pathText, if_neg Bool.false_ne_true, if_neg hne]

/-- A path below another one is that path, a slash and the names. -/
theorem joinPath_names (root : String) (h : ∀ name ∈ names, IsSegment name) (hne : names ≠ [])
    (hdot : names ≠ ["."]) :
    joinPath root (joinSlash names) =
      if normalizePath root = "." then joinSlash names
      else if normalizePath root = "/" then "/" ++ joinSlash names
      else normalizePath root ++ "/" ++ joinSlash names := by
  have hparent : trimTrailingSlashes (normalizePath root) = normalizePath root := by
    rw [normalizePath_eq root]
    exact trimTrailingSlashes_pathText (fileNames (isSegment_of_mem root))
  have hroot : normalizePath root ≠ "" := by
    show (if _ then "." else _) ≠ ""
    split_ifs with hempty
    · decide
    · exact hempty
  have hchild : trimLeadingSlashes (normalizePath (joinSlash names)) = joinSlash names := by
    have hnormal := @normalizePath_pathText _ false h
    rw [pathText_false hne] at hnormal
    rw [hnormal, trimLeadingSlashes_joinSlash (fileNames h)]
  have hnot : ¬ (joinSlash names = "" ∨ joinSlash names = ".") := by
    rintro (hempty | hsame)
    · exact joinSlash_ne_empty (fileNames h) hne hempty
    · have hsplit := splitSlash_names (fileNames h) hne
      rw [hsame] at hsplit
      exact hdot hsplit.symm
  unfold joinPath
  simp only [hparent, hchild, hroot, hnot, false_or, if_false]

theorem hasPrefix_pathText (h : ∀ name ∈ names, IsSegment name) :
    hasPrefix (pathText rooted names) "/" = rooted := by
  cases rooted with
  | true => exact hasPrefix_slash (joinSlash names)
  | false =>
      cases names with
      | nil => decide
      | cons first rest =>
          have hfirst := h first List.mem_cons_self
          rw [pathText_false (by simp)]
          exact hasPrefix_joinSlash hfirst.noSlash hfirst.ne_empty

/-- The names of a normal path are its own, but for the two spellings of the working directory. -/
theorem pathText_injective {other : Bool} (hfirst : ∀ name ∈ first, IsSegment name)
    (hsecond : ∀ name ∈ second, IsSegment name) (hdot : rooted = false → first ≠ ["."])
    (hdot' : other = false → second ≠ ["."]) (h : pathText rooted first = pathText other second) :
    rooted = other ∧ first = second := by
  have hrooted : rooted = other := by
    rw [← @hasPrefix_pathText first rooted hfirst, h, hasPrefix_pathText hsecond]
  subst hrooted
  refine ⟨rfl, ?_⟩
  have hsplit (hjoin : joinSlash first = joinSlash second) (hne : first ≠ []) (hne' : second ≠ []) :
      first = second := by
    rw [← splitSlash_names (fileNames hfirst) hne, hjoin, splitSlash_names (fileNames hsecond) hne']
  cases rooted with
  | true =>
      have hjoin : joinSlash first = joinSlash second := (String.append_right_inj _).mp h
      by_cases hne : first = []
      · subst hne
        exact ((joinSlash_eq_empty fun name hname => (hsecond name hname).ne_empty).mp hjoin.symm).symm
      · refine hsplit hjoin hne fun hnil => ?_
        subst hnil
        exact joinSlash_ne_empty (fileNames hfirst) hne hjoin
  | false =>
      have hhere {l : List String} (hl : ∀ name ∈ l, IsSegment name) (hne : l ≠ [])
          (htext : pathText false l = ".") : l = ["."] := by
        rw [pathText_false hne] at htext
        have hnames := splitSlash_names (fileNames hl) hne
        rw [htext] at hnames
        exact hnames.symm
      by_cases hne : first = []
      · subst hne
        by_cases hne' : second = []
        · exact hne'.symm
        · exact absurd (hhere hsecond hne' h.symm) (hdot' rfl)
      · by_cases hne' : second = []
        · subst hne'
          exact absurd (hhere hfirst hne h) (hdot rfl)
        · rw [pathText_false hne, pathText_false hne'] at h
          exact hsplit h hne hne'

theorem joinPath_pathText (hfirst : ∀ name ∈ first, IsSegment name)
    (hdot : rooted = false → first ≠ ["."]) (hsecond : ∀ name ∈ second, IsSegment name)
    (hne : second ≠ []) (hdot' : second ≠ ["."]) :
    joinPath (pathText rooted first) (joinSlash second) = pathText rooted (first ++ second) := by
  have hnil : ∀ name ∈ ([] : List String), IsSegment name := by simp
  rw [joinPath_names _ hsecond hne hdot', normalizePath_pathText hfirst]
  split_ifs with hhere hroot
  · obtain ⟨rfl, rfl⟩ := @pathText_injective first [] rooted false hfirst hnil hdot (by simp) hhere
    rw [List.nil_append, pathText_false hne]
  · obtain ⟨rfl, rfl⟩ := @pathText_injective first [] rooted true hfirst hnil hdot (by simp) hroot
    rfl
  · have hfirstNe : first ≠ [] := by
      intro hempty
      subst hempty
      cases rooted with
      | true => exact hroot rfl
      | false => exact hhere rfl
    cases rooted with
    | true => simp [pathText, joinSlash_append hfirstNe hne, String.append_assoc]
    | false =>
        rw [pathText_false hfirstNe, pathText_false (by simp [hne]), joinSlash_append hfirstNe hne]

section Split

variable {last : String} (h : ∀ name ∈ names, IsSegment name) (hlast : IsSegment last)

include h hlast

end Split

-- no proof from here on is by computing with texts
attribute [irreducible] normalizePath joinPath pathBasename pathDirname relativePath isDotSwapFile

end Mulp.Chokidar
