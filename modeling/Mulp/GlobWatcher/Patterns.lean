import Mulp.GlobWatcher.Braces
import Mulp.GlobWatcher.Glob

/-! The patterns of a watcher (`glob-watcher/glob.mbt`): which paths they match, and the
directories that have to be watched for them.

The directory of a pattern is the text before the last slash that comes before its first
special character. It is taken of the text of the pattern, and so a match is below it,
as texts go. -/
namespace Mulp.GlobWatch

open Text

/-! ## The code -/

def globMatchSingle (pattern path : String) : Bool := globGo pattern.toList path.toList

/-- `glob_match`, unless it aborts. -/
def globMatch (pattern path : String) : Option Bool := do
  let patterns ← expandBraces pattern
  return patterns.any (globMatchSingle · path)

def isSpecial (c : Char) : Bool := c = '*' || c = '?' || c = '[' || c = '{'

/-- The loop of `extract_base_dir`: the last slash before what is special. -/
def lastSlashFrom (i : Nat) (lastSlash : Option Nat) : List Char → Option Nat
  | [] => lastSlash
  | c :: rest =>
      if isSpecial c then lastSlash
      else lastSlashFrom (i + 1) (if c = '/' then some i else lastSlash) rest

/-- `extract_base_dir`, unless it aborts. -/
def extractBaseDir (pattern : String) : Option String :=
  match lastSlashFrom 0 none pattern.toList with
  | none => some "."
  | some last => slice pattern 0 last

structure GlobPattern where
  raw : String
  baseDir : String
  isNegation : Bool
  deriving DecidableEq

/-- What `GlobPattern::parse` makes of one of the patterns without braces. -/
def GlobPattern.of (pattern : String) : Option GlobPattern := do
  let clean ← if hasPrefix pattern "!" then slice pattern 1 (unitLength pattern) else some pattern
  let baseDir ← extractBaseDir clean
  return ⟨clean, baseDir, hasPrefix pattern "!"⟩

def GlobPattern.parse (raw : String) : Option (List GlobPattern) := do
  let patterns ← expandBraces raw
  patterns.mapM GlobPattern.of

/-- `parse_globs`: the positive patterns, and the negative ones that none of them takes back. -/
def parseGlobs (patterns : List String) : Option (List GlobPattern × List GlobPattern) := do
  let parsed ← patterns.mapM GlobPattern.parse
  let positives := parsed.flatten.filter (!·.isNegation)
  let negations := parsed.flatten.filter (·.isNegation)
  return (positives, negations.filter fun neg => !positives.any (·.raw = neg.raw))

/-! ## What is matched -/

/-- A glob with braces matches what one of its choices matches. -/
theorem globMatch_text {e : Braces} (h : e.Proper false false) (hbmp : IsBmp (String.ofList e.text))
    (path : String) :
    ∃ matched, globMatch (String.ofList e.text) path = some matched ∧
      (matched = true ↔ ∃ choice ∈ e.choices, Matches (tokens choice) path.toList) := by
  refine ⟨(e.choices.map String.ofList).any (globMatchSingle · path), ?_, ?_⟩
  · rw [globMatch, e.expandBraces_text h hbmp]
    rfl
  · rw [List.any_map, List.any_eq_true]
    refine exists_congr fun choice => and_congr_right fun _ => ?_
    show globGo (String.ofList choice).toList path.toList = true ↔ _
    rw [String.toList_ofList, globGo_iff]

theorem globMatch_text_extensions :
    let e : Braces := .both (.ofChars ['*', '.'])
      (.group (.either (.char 'c') (.both (.char 'h') (.group (.either .empty (.char 'h'))))))
    ∃ matched, globMatch (String.ofList e.text) "a.hh" = some matched ∧
      (matched = true ↔ ∃ choice ∈ e.choices, Matches (tokens choice) "a.hh".toList) :=
  globMatch_text (by simp [Braces.Proper, Braces.ofChars]) (by decide) "a.hh"

/-- What is not special matches itself. -/
theorem matches_plain {before rest path : List Char} (h : ∀ c ∈ before, isSpecial c = false) :
    Matches (tokens (before ++ rest)) path ↔
      ∃ more, path = before ++ more ∧ Matches (tokens rest) more := by
  induction before generalizing path with
  | nil => simp
  | cons c before ih =>
      have hc := h c List.mem_cons_self
      simp only [isSpecial, Bool.or_eq_false_iff, decide_eq_false_iff_not] at hc
      obtain ⟨⟨⟨hstar, hquestion⟩, hclass⟩, -⟩ := hc
      have htokens : tokens (c :: (before ++ rest)) = .literal c :: tokens (before ++ rest) := by
        rw [tokens]
        · exact fun _ h _ => hstar h
        · exact hstar
        · exact hquestion
        · exact hclass
      rw [List.cons_append, htokens, matches_one (covers_literal c)]
      constructor
      · rintro ⟨_, more, rfl, rfl, hmore⟩
        obtain ⟨last, rfl, hlast⟩ := (ih fun d hd => h d (List.mem_cons_of_mem _ hd)).mp hmore
        exact ⟨last, rfl, hlast⟩
      · rintro ⟨more, rfl, hmore⟩
        exact ⟨c, before ++ more, rfl, rfl,
          (ih fun d hd => h d (List.mem_cons_of_mem c hd)).mpr ⟨more, rfl, hmore⟩⟩

/-! ## The directories that are watched -/

/-- The path is in the directory or somewhere below it: it goes on from there and does not go up
again. From the working directory every relative path goes on, and an absolute one never does: a
pattern that begins with a star has the directory `.` and still matches absolute paths, which
nothing watches. -/
def Under (dir path : String) : Prop :=
  ∃ rest, ".." ∉ splitSlash rest ∧
    (path = dir ++ "/" ++ rest ∨ dir = "." ∧ hasPrefix rest "/" = false ∧ path = rest)

/-- Before the slash that is found nothing is special. -/
theorem lastSlashFrom_spec {chars : List Char} {i last : Nat} {lastSlash : Option Nat}
    (h : lastSlashFrom i lastSlash chars = some last) :
    lastSlash = some last ∨ ∃ before rest, chars = before ++ '/' :: rest ∧
      i + before.length = last ∧ ∀ c ∈ before, isSpecial c = false := by
  induction chars generalizing i lastSlash with
  | nil => exact .inl h
  | cons c chars ih =>
      unfold lastSlashFrom at h
      split_ifs at h with hspecial hslash
      · exact .inl h
      · rcases ih h with hhere | ⟨before, rest, rfl, rfl, hbefore⟩
        · exact .inr ⟨[], chars, by rw [hslash]; rfl, Option.some.inj hhere, by simp⟩
        · have hplain := List.forall_mem_cons.mpr ⟨by simpa using hspecial, hbefore⟩
          refine .inr ⟨c :: before, rest, rfl, ?_, hplain⟩
          rw [List.length_cons]
          omega
      · rcases ih h with hbefore | ⟨before, rest, rfl, rfl, hbefore⟩
        · exact .inl hbefore
        · have hplain := List.forall_mem_cons.mpr ⟨by simpa using hspecial, hbefore⟩
          refine .inr ⟨c :: before, rest, rfl, ?_, hplain⟩
          rw [List.length_cons]
          omega

theorem exists_extractBaseDir {pattern : String} (h : IsBmp pattern) :
    ∃ baseDir, extractBaseDir pattern = some baseDir ∧ (baseDir = "." ∨ ∃ rest,
      pattern = baseDir ++ "/" ++ rest ∧ ∀ c ∈ baseDir.toList, isSpecial c = false) := by
  unfold extractBaseDir
  cases hlast : lastSlashFrom 0 none pattern.toList with
  | none => exact ⟨".", rfl, .inl rfl⟩
  | some last =>
      rcases lastSlashFrom_spec hlast with hnone | ⟨before, rest, hchars, hlength, hbefore⟩
      · cases hnone
      · have hslice := @slice_between pattern [] before ('/' :: rest) h hchars
        rw [List.length_nil, hlength] at hslice
        refine ⟨String.ofList before, hslice, .inr ⟨String.ofList rest, ?_, ?_⟩⟩
        · rw [← String.toList_inj, hchars]
          simp
        · rwa [String.toList_ofList]

/-- What a pattern without braces matches goes on from its directory; the working directory stands
for any. -/
theorem exists_rest_of_globMatchSingle {pattern baseDir path : String} (h : IsBmp pattern)
    (hbase : extractBaseDir pattern = some baseDir) (hmatch : globMatchSingle pattern path = true) :
    baseDir = "." ∨ ∃ rest, path = baseDir ++ "/" ++ rest := by
  obtain ⟨dir, hdir, hhere | ⟨rest, hpattern, hplain⟩⟩ := exists_extractBaseDir h
  · rw [hbase] at hdir
    exact .inl ((Option.some.inj hdir).trans hhere)
  · obtain rfl : baseDir = dir := Option.some.inj (hbase.symm.trans hdir)
    have hslash : ∀ c ∈ baseDir.toList ++ ['/'], isSpecial c = false := by
      intro c hc
      rcases List.mem_append.mp hc with hc | hc
      · exact hplain c hc
      · rw [List.mem_singleton.mp hc]
        decide
    have hchars : pattern.toList = (baseDir.toList ++ ['/']) ++ rest.toList := by
      rw [hpattern, String.toList_append, String.toList_append]
      rfl
    rw [globMatchSingle, globGo_iff, hchars, matches_plain hslash] at hmatch
    obtain ⟨more, hpath, -⟩ := hmatch
    refine .inr ⟨String.ofList more, ?_⟩
    rw [← String.toList_inj, hpath]
    simp

/-! ## What is parsed -/

/-- No braces are found, wherever the search begins. -/
theorem findBraceRangeFrom_shift {i j : Nat} {depth : Int} {start other : Option Nat}
    {chars : List Char} (hsame : start.isSome = other.isSome)
    (h : findBraceRangeFrom i depth start chars = none) :
    findBraceRangeFrom j depth other chars = none := by
  induction chars generalizing i j depth start other with
  | nil => rfl
  | cons c chars ih =>
      unfold findBraceRangeFrom at h ⊢
      split_ifs at h ⊢ with hopen hdepth hclose hzero
      · exact ih (by rfl) h
      · exact ih hsame h
      · cases start with
        | some first => cases h
        | none =>
            cases other with
            | some first => cases hsame
            | none => exact ih (by rfl) h
      · exact ih hsame h
      · exact ih hsame h

/-- It has no braces, and its directory is its own: this is what the constructor makes of one
alternative, and a pattern that is parsed is a list of these. -/
structure GlobPattern.Proper (pattern : GlobPattern) : Prop where
  bmp : IsBmp pattern.raw
  noBraces : findBraceRange pattern.raw = none
  baseDir : extractBaseDir pattern.raw = some pattern.baseDir

theorem GlobPattern.exists_of {pattern : String} (h : IsBmp pattern)
    (hnone : findBraceRange pattern = none) :
    ∃ parsed, GlobPattern.of pattern = some parsed ∧ parsed.Proper := by
  have hclean : ∃ clean, (if hasPrefix pattern "!" then slice pattern 1 (unitLength pattern)
      else some pattern) = some clean ∧ IsBmp clean ∧ findBraceRange clean = none := by
    split_ifs with hnegation
    · obtain ⟨rest, rfl⟩ := hasPrefix_iff.mp hnegation
      have hchars : ("!" ++ rest).toList = ['!'] ++ rest.toList := String.toList_append
      have hslice := slice_end h hchars
      rw [List.length_singleton, String.ofList_toList] at hslice
      refine ⟨rest, hslice, h.of_slice hslice, ?_⟩
      rw [findBraceRange, hchars, List.singleton_append, findBraceRangeFrom, if_neg (by decide),
        if_neg (by decide)] at hnone
      exact findBraceRangeFrom_shift rfl hnone
    · exact ⟨pattern, rfl, h, hnone⟩
  obtain ⟨clean, heq, hbmp, hcleanNone⟩ := hclean
  obtain ⟨baseDir, hbase, -⟩ := exists_extractBaseDir hbmp
  refine ⟨⟨clean, baseDir, hasPrefix pattern "!"⟩, ?_, hbmp, hcleanNone, hbase⟩
  unfold GlobPattern.of
  split_ifs at heq ⊢ with hnegation
  · simp only [heq, hbase, Option.bind_eq_bind, Option.bind_some]
    rfl
  · simp only [Option.some.inj heq, hbase, Option.bind_eq_bind, Option.bind_some]
    rfl

theorem exists_mapM {α β : Type} {P : β → Prop} {f : α → Option β} {l : List α}
    (h : ∀ x ∈ l, ∃ y, f x = some y ∧ P y) : ∃ ys, l.mapM f = some ys ∧ ∀ y ∈ ys, P y := by
  induction l with
  | nil => exact ⟨[], rfl, by simp⟩
  | cons x l ih =>
      obtain ⟨y, hy, hPy⟩ := h x List.mem_cons_self
      obtain ⟨ys, hys, hPys⟩ := ih fun z hz => h z (List.mem_cons_of_mem x hz)
      refine ⟨y :: ys, ?_, List.forall_mem_cons.mpr ⟨hPy, hPys⟩⟩
      rw [List.mapM_cons, hy, hys]
      rfl

theorem GlobPattern.exists_parse {raw : String} (h : IsBmp raw) :
    ∃ parsed, GlobPattern.parse raw = some parsed ∧ ∀ pattern ∈ parsed, pattern.Proper := by
  obtain ⟨patterns, hpatterns, hspec⟩ := exists_expandBraces h
  obtain ⟨parsed, hparsed, hproper⟩ := exists_mapM fun pattern hpattern =>
    GlobPattern.exists_of (hspec pattern hpattern).1 (hspec pattern hpattern).2
  refine ⟨parsed, ?_, hproper⟩
  rw [GlobPattern.parse, hpatterns]
  exact hparsed

theorem exists_parseGlobs {patterns : List String} (h : ∀ raw ∈ patterns, IsBmp raw) :
    ∃ positives negations, parseGlobs patterns = some (positives, negations) ∧
      ∀ pattern ∈ positives, pattern.Proper := by
  obtain ⟨parsed, hparsed, hproper⟩ := exists_mapM fun raw hraw =>
    GlobPattern.exists_parse (h raw hraw)
  refine ⟨parsed.flatten.filter (!·.isNegation), _, by rw [parseGlobs, hparsed]; rfl, ?_⟩
  intro pattern hpattern
  obtain ⟨l, hl, hmem⟩ := List.mem_flatten.mp (List.mem_filter.mp hpattern).1
  exact hproper l hl pattern hmem

theorem GlobPattern.Proper.exists_rest {pattern : GlobPattern} (h : pattern.Proper) {path : String}
    (hmatch : globMatch pattern.raw path = some true) :
    pattern.baseDir = "." ∨ ∃ rest, path = pattern.baseDir ++ "/" ++ rest := by
  rw [globMatch, expandBraces_of_none h.noBraces] at hmatch
  refine exists_rest_of_globMatchSingle h.bmp h.baseDir ?_
  simpa using hmatch

/-! ## The directories that are watched -/

/-- The base directories, each once. -/
def baseDirs (positives : List GlobPattern) : List String :=
  positives.foldl (fun dirs pattern =>
    if pattern.baseDir ∈ dirs then dirs else dirs ++ [pattern.baseDir]) []

/-- The directories that `GlobWatcher::new` has the watcher watch: those of the positive patterns,
each joined to the working directory if there is one. -/
def resolvedDirs (cwd : Option String) (positives : List GlobPattern) : List String :=
  match cwd with
  | none => baseDirs positives
  | some cwd => (baseDirs positives).map fun dir => if dir = "." then cwd else cwd ++ "/" ++ dir

/-- Where a path is that listeners are told: a relative one is in the working directory. -/
def resolvedPath (cwd : Option String) (path : String) : String :=
  match cwd with
  | none => path
  | some cwd => if hasPrefix path "/" then path else cwd ++ "/" ++ path

theorem mem_baseDirs {positives : List GlobPattern} {pattern : GlobPattern}
    (h : pattern ∈ positives) : pattern.baseDir ∈ baseDirs positives := by
  have hfold (l : List GlobPattern) (dirs : List String)
      (hmem : pattern ∈ l ∨ pattern.baseDir ∈ dirs) : pattern.baseDir ∈ l.foldl (fun dirs pattern =>
        if pattern.baseDir ∈ dirs then dirs else dirs ++ [pattern.baseDir]) dirs := by
    induction l generalizing dirs with
    | nil => exact hmem.resolve_left List.not_mem_nil
    | cons other l ih =>
        refine ih _ ?_
        rcases hmem with hmem | hmem
        · rcases List.mem_cons.mp hmem with rfl | hmem
          · right
            dsimp only
            split_ifs with hthere
            · exact hthere
            · exact List.mem_append_right _ (List.mem_singleton_self _)
          · exact .inl hmem
        · right
          dsimp only
          split_ifs
          · exact hmem
          · exact List.mem_append_left _ hmem
  exact hfold positives [] (.inl h)

/-- Whatever the globs are, they are parsed. Where no directory to be watched is the empty text,
for which `Watcher::add` refuses to watch, every path without a `..` that a positive pattern matches
is in or below one of them: any relative path, and without a working directory also an absolute one
whose pattern names a directory. -/
theorem parseGlobs_covered {patterns : List String} (h : ∀ raw ∈ patterns, IsBmp raw)
    (cwd : Option String) :
    ∃ positives negations, parseGlobs patterns = some (positives, negations) ∧
      ("" ∉ resolvedDirs cwd positives →
        ∀ pattern ∈ positives, ∀ path, globMatch pattern.raw path = some true →
          ".." ∉ splitSlash path →
          (hasPrefix path "/" = true → cwd = none ∧ pattern.baseDir ≠ ".") →
          ∃ dir ∈ resolvedDirs cwd positives, dir ≠ "" ∧ Under dir (resolvedPath cwd path)) := by
  obtain ⟨positives, negations, hparse, hproper⟩ := exists_parseGlobs h
  refine ⟨positives, negations, hparse, fun hfull pattern hpattern path hmatch hup habsolute => ?_⟩
  have hrest := (hproper pattern hpattern).exists_rest hmatch
  have hmem := mem_baseDirs hpattern
  have hbelow {rest : String} (hpath : path = pattern.baseDir ++ "/" ++ rest) :
      ".." ∉ splitSlash rest := by
    intro hmem
    rw [hpath, splitSlash_append] at hup
    exact hup (List.mem_append_right _ hmem)
  have hrelative (hhere : pattern.baseDir = ".") : hasPrefix path "/" = false := by
    cases hprefix : hasPrefix path "/" with
    | false => rfl
    | true => exact absurd hhere (habsolute hprefix).2
  cases cwd with
  | none =>
      refine ⟨pattern.baseDir, hmem, fun hnil => hfull (hnil ▸ hmem), ?_⟩
      rcases hrest with hhere | ⟨rest, hpath⟩
      · exact ⟨path, hup, .inr ⟨hhere, hrelative hhere, rfl⟩⟩
      · exact ⟨rest, hbelow hpath, .inl hpath⟩
  | some cwd =>
      have hnot : ¬ hasPrefix path "/" = true := fun hprefix => nomatch (habsolute hprefix).1
      have hdir := List.mem_map_of_mem (f := fun dir => if dir = "." then cwd else cwd ++ "/" ++ dir) hmem
      refine ⟨_, hdir, fun hnil => hfull (hnil ▸ hdir), ?_⟩
      rw [resolvedPath, if_neg hnot]
      split_ifs with hhere
      · exact ⟨path, hup, .inl rfl⟩
      · obtain ⟨rest, hpath⟩ := hrest.resolve_left hhere
        exact ⟨rest, hbelow hpath, .inl (by rw [hpath]; simp only [String.append_assoc])⟩

theorem parseGlobs_covered_src :
    let positives : List GlobPattern :=
      [⟨"src/a/*.mbt", "src/a", false⟩, ⟨"src/b/*.mbt", "src/b", false⟩, ⟨"*.md", ".", false⟩]
    parseGlobs ["src/{a,b}/*.mbt", "!src/b/x.mbt", "*.md"] =
        some (positives, [⟨"src/b/x.mbt", "src/b", true⟩]) ∧
      (∃ dir ∈ resolvedDirs (some "/w") positives, dir ≠ "" ∧ Under dir "/w/src/b/y.mbt") ∧
      ∃ dir ∈ resolvedDirs (some "/w") positives, dir ≠ "" ∧ Under dir "/w/README.md" := by
  intro positives
  have hparse : parseGlobs ["src/{a,b}/*.mbt", "!src/b/x.mbt", "*.md"] =
      some (positives, [⟨"src/b/x.mbt", "src/b", true⟩]) := by decide +kernel
  obtain ⟨_, _, heq, hcovered⟩ := @parseGlobs_covered ["src/{a,b}/*.mbt", "!src/b/x.mbt", "*.md"]
    (by decide) (some "/w")
  obtain ⟨rfl, -⟩ := Prod.mk.inj (Option.some.inj (heq.symm.trans hparse))
  have hfull : "" ∉ resolvedDirs (some "/w") positives := by decide +kernel
  refine ⟨hparse, ?_, ?_⟩
  · exact hcovered hfull ⟨"src/b/*.mbt", "src/b", false⟩ (by decide) "src/b/y.mbt" (by decide +kernel)
      (by decide +kernel) (by decide)
  · exact hcovered hfull ⟨"*.md", ".", false⟩ (by decide) "README.md" (by decide +kernel)
      (by decide +kernel) (by decide)

end Mulp.GlobWatch
