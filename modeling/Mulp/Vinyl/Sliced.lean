import Mulp.Text.Substring
import Mulp.Vinyl.History

/-! The strings of vinyl files with the slices that the source takes of them
(`vinyl/file.mbt`).

A slice can abort. On texts without pairs none does, and the functions are those
that take strings apart by characters. -/
namespace Mulp.Vinyl.Sliced

open Mulp.Text

/-! ## `normalize_path` -/

def trimTrailingSlash (value : String) : Option String :=
  if unitLength value > 1 && hasSuffix value "/" then slice value 0 (unitLength value - 1)
  else some value

/-- The loop of `path_needs_normalize`, for `n` more indices. -/
def pathNeedsNormalizeFrom (value : String) (segmentStart index : Nat) : Nat → Option Bool
  | 0 => some false
  | n + 1 => do
      let ends ← if index = unitLength value then some true else (slice value index (index + 1)).map (· = "/")
      if ends then
        if index = segmentStart then
          if index = 0 && hasPrefix value "/" then pathNeedsNormalizeFrom value 1 (index + 1) n
          else some true
        else
          let segment ← slice value segmentStart index
          if segment = "." || segment = ".." then some true
          else pathNeedsNormalizeFrom value (index + 1) (index + 1) n
      else pathNeedsNormalizeFrom value segmentStart (index + 1) n

def pathNeedsNormalize (value : String) : Option Bool :=
  pathNeedsNormalizeFrom value 0 0 (unitLength value + 1)

def normalizePath (value : String) : Option String :=
  if value = "" then some ""
  else do
    let trimmed ← trimTrailingSlash value
    let needs ← pathNeedsNormalize trimmed
    if !needs then some trimmed
    else
      let absolute := hasPrefix value "/"
      let joined := joinSlash ((splitSlash value).foldl (pushPart absolute) [])
      if absolute then
        if joined = "" then some "/" else some ("/" ++ joined)
      else if joined = "" then some "."
      else trimTrailingSlash joined

variable {value : String}

/-- The slice ends before the last slash. -/
theorem trimTrailingSlash_eq (value : String) :
    trimTrailingSlash value = some (Vinyl.trimTrailingSlash value) := by
  rw [trimTrailingSlash, Vinyl.trimTrailingSlash]
  cases hsuffix : hasSuffix value "/" with
  | false => simp
  | true =>
      obtain ⟨start, rfl⟩ := hasSuffix_iff.mp hsuffix
      have hslash : unitLength "/" = 1 := rfl
      have hlength : unitLength (start ++ "/") > 1 ↔ (start ++ "/").toList.length > 1 := by
        rw [unitLength_append, hslash, String.toList_append, List.length_append]
        have hpos : 0 < unitLength start ↔ 0 < start.toList.length := by
          rw [Nat.pos_iff_ne_zero, Nat.pos_iff_ne_zero, ne_eq, ne_eq, unitLength_eq_zero,
            List.length_eq_zero_iff, String.toList_eq_nil_iff]
        simpa using hpos
      have hslice : slice (start ++ "/") 0 (unitLength (start ++ "/") - 1) = some start := by
        refine slice_eq_some_iff.mpr ⟨"", "/", ?_, rfl, ?_⟩
        · rw [String.empty_append]
        · rw [String.empty_append, unitLength_append, hslash, Nat.add_sub_cancel]
      have hdrop : String.ofList (start ++ "/").toList.dropLast = start := by simp
      simp only [hlength, Bool.and_true, decide_eq_true_eq, hslice, hdrop]
      split_ifs <;> rfl

theorem isBmp_trimTrailingSlash (h : IsBmp value) : IsBmp (Vinyl.trimTrailingSlash value) := by
  rw [Vinyl.trimTrailingSlash]
  split_ifs
  · refine h.of_subset ?_
    rw [String.toList_ofList]
    exact List.dropLast_subset _
  · exact h

theorem isDots_eq (segment : String) :
    (segment = "." || segment = "..") =
      (segment.toList = ['.'] || segment.toList = ['.', '.']) := by
  simp only [← String.toList_inj]
  rfl

/-- The loop of `path_needs_normalize` over the characters that are left, with those of
the segment so far. It aborts at a character of two units. -/
def scanFrom (rooted : Bool) (index : Nat) (segment : List Char) : List Char → Option Bool
  | [] => some (segment = [] || segment = ['.'] || segment = ['.', '.'])
  | c :: rest =>
      if ¬ c.toNat ≤ 0xFFFF then none
      else if c = '/' then
        if segment = [] then
          if index = 0 && rooted then scanFrom rooted (index + 1) [] rest else some true
        else if segment = ['.'] || segment = ['.', '.'] then some true
        else scanFrom rooted (index + 1) [] rest
      else scanFrom rooted (index + 1) (segment ++ [c]) rest

/-- The characters of a segment. -/
theorem slice_segment {start index : Nat} (h : IsBmp (String.ofList (value.toList.take index)))
    (hstart : start < index) (hindex : index ≤ value.toList.length) :
    ∃ segment, slice value start index = some segment ∧
      segment.toList = (value.toList.take index).drop start ∧ segment.toList ≠ [] := by
  refine ⟨_, slice_take h (Nat.le_of_lt hstart) hindex, String.toList_ofList, ?_⟩
  rw [String.toList_ofList, ← List.length_pos_iff, List.length_drop, List.length_take_of_le hindex]
  omega

section Loop

variable {start index n : Nat}

/-- The units up to an index are those of characters that take one. -/
theorem unitLength_eq_add (h : IsBmp (String.ofList (value.toList.take index)))
    (hindex : index ≤ value.toList.length) :
    unitLength value = index + unitLength (String.ofList (value.toList.drop index)) := by
  have hcut : value = String.ofList (value.toList.take index) ++ String.ofList
      (value.toList.drop index) := by
    rw [← String.ofList_append, List.take_append_drop, String.ofList_toList]
  have hfront : unitLength (String.ofList (value.toList.take index)) = index := by
    rw [h.unitLength, String.toList_ofList, List.length_take_of_le hindex]
  calc unitLength value
      = unitLength (String.ofList (value.toList.take index)) +
          unitLength (String.ofList (value.toList.drop index)) := by
            rw [← unitLength_append, ← hcut]
    _ = index + unitLength (String.ofList (value.toList.drop index)) := by rw [hfront]

theorem isBmp_take_succ (h : IsBmp (String.ofList (value.toList.take index)))
    (hlt : index < value.toList.length) (hc : value.toList[index].toNat ≤ 0xFFFF) :
    IsBmp (String.ofList (value.toList.take (index + 1))) := by
  rw [← List.take_append_getElem hlt, String.ofList_append]
  refine h.append fun c hmem => ?_
  rw [String.toList_ofList, List.mem_singleton] at hmem
  rwa [hmem]

/-- The slice of one unit is the next character. -/
theorem slice_next (h : IsBmp (String.ofList (value.toList.take (index + 1))))
    (hlt : index < value.toList.length) :
    slice value index (index + 1) = some (String.ofList [value.toList[index]]) := by
  rw [slice_take h (Nat.le_succ index) hlt, ← List.take_append_getElem hlt, List.drop_left']
  exact List.length_take_of_le (Nat.le_of_lt hlt)

theorem drop_take_succ (hstart : start ≤ index) (hlt : index < value.toList.length) :
    (value.toList.take (index + 1)).drop start =
      (value.toList.take index).drop start ++ [value.toList[index]] := by
  rw [← List.take_append_getElem hlt, List.drop_append_of_le_length]
  rwa [List.length_take_of_le (Nat.le_of_lt hlt)]

/-- After the last unit the loop looks at the last segment. -/
theorem pathNeedsNormalizeFrom_end
    (h : IsBmp (String.ofList (value.toList.take value.toList.length)))
    (hstart : start ≤ value.toList.length) (hunits : unitLength value = value.toList.length) :
    pathNeedsNormalizeFrom value start value.toList.length 1 =
      scanFrom (hasPrefix value "/") value.toList.length
        ((value.toList.take value.toList.length).drop start) [] := by
  rw [pathNeedsNormalizeFrom, hunits, if_pos rfl, scanFrom]
  simp only [Option.bind_eq_bind, Option.bind_some, if_true]
  rcases Nat.eq_or_lt_of_le hstart with rfl | hlt
  · -- a last segment that is empty; only an empty path begins with it
    have hroot : ¬ (value.toList.length = 0 && hasPrefix value "/") = true := by
      intro hroot
      rw [Bool.and_eq_true, decide_eq_true_eq, List.length_eq_zero_iff] at hroot
      rw [hasPrefix, hroot.1] at hroot
      cases hroot.2
    rw [if_pos rfl, if_neg hroot, List.take_length, List.drop_length]
    rfl
  · obtain ⟨segment, hslice, hsegment, hne⟩ := slice_segment h hlt (Nat.le_refl _)
    rw [if_neg (Nat.ne_of_gt hlt), hslice, Option.bind_some, ← hsegment, decide_eq_false hne,
      Bool.false_or, isDots_eq]
    split_ifs with hdots
    · rw [hdots]
    · rw [Bool.eq_false_iff.mpr hdots]
      rfl

/-- The loop from an index on is the loop over the characters from there on. -/
theorem pathNeedsNormalizeFrom_eq (h : IsBmp (String.ofList (value.toList.take index)))
    (hstart : start ≤ index) (hindex : index ≤ value.toList.length)
    (hn : index + n = unitLength value) :
    pathNeedsNormalizeFrom value start index (n + 1) =
      scanFrom (hasPrefix value "/") index ((value.toList.take index).drop start)
        (value.toList.drop index) := by
  have hnone : ∀ i, (value.toList.take i).drop i = [] := fun i =>
    List.drop_eq_nil_of_le (List.length_take_le i _)
  induction n generalizing start index with
  | zero =>
      have hunits := unitLength_eq_add h hindex
      obtain rfl : index = value.toList.length := by
        refine Nat.le_antisymm hindex (List.drop_eq_nil_iff.mp ?_)
        have hrest : unitLength (String.ofList (value.toList.drop index)) = 0 := by omega
        rw [unitLength_eq_zero] at hrest
        rw [← String.toList_ofList (l := value.toList.drop index), hrest]
        rfl
      rw [List.drop_length]
      exact pathNeedsNormalizeFrom_end h hstart hn.symm
  | succ n ih =>
      have hlt : index < value.toList.length := by
        have hunits := unitLength_eq_add h hindex
        by_contra hge
        rw [List.drop_eq_nil_of_le (Nat.le_of_not_lt hge)] at hunits
        have hempty : unitLength (String.ofList []) = 0 := rfl
        omega
      have hdrop : value.toList.drop index = value.toList[index] :: value.toList.drop (index + 1) :=
        List.drop_eq_getElem_cons hlt
      rw [pathNeedsNormalizeFrom, if_neg (by omega), hdrop, scanFrom]
      by_cases hpair : value.toList[index].toNat ≤ 0xFFFF
      · have hnext := isBmp_take_succ h hlt hpair
        have hslash : (String.ofList [value.toList[index]] = "/") ↔ value.toList[index] = '/' := by
          rw [← String.toList_inj, String.toList_ofList]
          exact List.singleton_inj
        have hih {start : Nat} (hstart : start ≤ index + 1) := ih hnext hstart hlt (by omega)
        rw [slice_next hnext hlt, if_neg (not_not_intro hpair)]
        simp only [Option.bind_eq_bind, Option.bind_some, Option.map_some,
          decide_eq_true_eq, hslash]
        by_cases hc : value.toList[index] = '/'
        · rw [if_pos hc, if_pos hc]
          rcases Nat.eq_or_lt_of_le hstart with rfl | hlt'
          · rw [if_pos rfl, if_pos (hnone start)]
            split_ifs with hroot
            · rw [Bool.and_eq_true, decide_eq_true_eq] at hroot
              obtain rfl := hroot.1
              rw [hih (Nat.le_refl 1), hnone]
            · rfl
          · obtain ⟨segment, hslice, hsegment, hne⟩ := slice_segment h hlt' (Nat.le_of_lt hlt)
            rw [if_neg (Nat.ne_of_gt hlt'), hslice, Option.bind_some, ← hsegment, if_neg hne,
              isDots_eq]
            split_ifs with hdots
            · rfl
            · rw [hih (Nat.le_refl _), hnone]
        · rw [if_neg hc, if_neg hc, hih (Nat.le_succ_of_le hstart), drop_take_succ hstart hlt]
      · rw [if_pos hpair, slice_pair h hlt hpair, Option.map_none, Option.bind_eq_bind,
          Option.bind_none]

end Loop

theorem pathNeedsNormalize_scan (value : String) :
    pathNeedsNormalize value = scanFrom (hasPrefix value "/") 0 [] value.toList := by
  have hempty : IsBmp (String.ofList (value.toList.take 0)) := (by decide : IsBmp "")
  rw [pathNeedsNormalize, pathNeedsNormalizeFrom_eq hempty (Nat.le_refl 0) (Nat.zero_le _)
    (Nat.zero_add _)]
  rfl

/-- Where the loop does not abort, it answers as by characters. -/
theorem eq_of_scanFrom {rooted b : Bool} {index : Nat} {segment chars : List Char}
    (h : scanFrom rooted index segment chars = some b) :
    b = needsNormalizeFrom rooted index segment chars := by
  induction chars generalizing index segment with
  | nil => exact (Option.some.inj h).symm
  | cons c rest ih =>
      rw [scanFrom] at h
      rw [needsNormalizeFrom]
      split_ifs at h ⊢ with hpair hc hempty hroot hdots
      · exact ih h
      · exact (Option.some.inj h).symm
      · exact (Option.some.inj h).symm
      · exact ih h
      · exact ih h

theorem scanFrom_bmp {rooted : Bool} {index : Nat} {segment chars : List Char}
    (h : ∀ c ∈ chars, c.toNat ≤ 0xFFFF) :
    scanFrom rooted index segment chars = some (needsNormalizeFrom rooted index segment chars) := by
  induction chars generalizing index segment with
  | nil => rfl
  | cons c rest ih =>
      rw [List.forall_mem_cons] at h
      rw [scanFrom, needsNormalizeFrom, if_neg (not_not_intro h.1)]
      split_ifs
      · exact ih h.2
      · rfl
      · rfl
      · exact ih h.2
      · exact ih h.2

theorem pathNeedsNormalize_eq (h : IsBmp value) :
    pathNeedsNormalize value = some (Vinyl.pathNeedsNormalize value) := by
  rw [pathNeedsNormalize_scan, scanFrom_bmp h]
  rfl

/-- The parts that are left are segments. -/
theorem mem_pushPart {absolute : Bool} {parts : List String} {part p : String}
    (h : p ∈ pushPart absolute parts part) : p ∈ part :: parts := by
  have hkeep (h : p ∈ parts) : p ∈ part :: parts := List.mem_cons_of_mem part h
  have hpush (h : p ∈ parts ++ [part]) : p ∈ part :: parts :=
    (List.mem_append.mp h).elim hkeep fun h => List.mem_cons.mpr (.inl (List.mem_singleton.mp h))
  rw [pushPart] at h
  cases hlast : parts.getLast? with
  | none =>
      simp only [hlast] at h
      split_ifs at h
      · exact hkeep h
      · exact hkeep h
      · exact hpush h
      · exact hpush h
  | some last =>
      simp only [hlast] at h
      split_ifs at h
      · exact hkeep h
      · exact hkeep (List.dropLast_subset parts h)
      · exact hkeep h
      · exact hpush h
      · exact hpush h

theorem isBmp_foldl_pushPart {absolute : Bool} {segments parts : List String}
    (hsegments : ∀ segment ∈ segments, IsBmp segment) (hparts : ∀ part ∈ parts, IsBmp part) :
    ∀ part ∈ segments.foldl (pushPart absolute) parts, IsBmp part := by
  induction segments generalizing parts with
  | nil => exact hparts
  | cons segment segments ih =>
      rw [List.forall_mem_cons] at hsegments
      refine ih hsegments.2 fun part hpart => ?_
      exact List.forall_mem_cons.mpr ⟨hsegments.1, hparts⟩ part (mem_pushPart hpart)

theorem isBmp_joined (h : IsBmp value) :
    IsBmp (joinSlash ((splitSlash value).foldl (pushPart (hasPrefix value "/")) [])) :=
  IsBmp.joinSlash (isBmp_foldl_pushPart (fun _ => h.of_mem_splitSlash) nofun)

theorem normalizePath_eq (h : IsBmp value) :
    normalizePath value = some (Vinyl.normalizePath value) := by
  rw [normalizePath, Vinyl.normalizePath, trimTrailingSlash_eq]
  simp only [Option.bind_eq_bind, Option.bind_some,
    pathNeedsNormalize_eq (isBmp_trimTrailingSlash h), trimTrailingSlash_eq]
  split_ifs <;> rfl

theorem isBmp_normalizePath (h : IsBmp value) : IsBmp (Vinyl.normalizePath value) := by
  have hslash : IsBmp "/" := by decide
  rw [Vinyl.normalizePath]
  dsimp only
  split_ifs
  · exact (by decide : IsBmp "")
  · exact isBmp_trimTrailingSlash h
  · exact hslash
  · exact hslash.append (isBmp_joined h)
  · exact (by decide : IsBmp ".")
  · exact isBmp_trimTrailingSlash (isBmp_joined h)

/-! ## `vinyl_file` -/

def appendPath (history : List String) (path : String) : Option (List String) := do
  let normalized ← normalizePath path
  if normalized = "" then some history
  else if history.getLast? ≠ some normalized then some (history ++ [normalized])
  else some history

/-- `copy_strings(history).map(normalize_path)`. -/
def normalizeAll : List String → Option (List String)
  | [] => some []
  | value :: rest => do
      let normalized ← normalizePath value
      let others ← normalizeAll rest
      some (normalized :: others)

/-- `final_history` of `vinyl_file`. -/
def finalHistory (path : Option String) (history : List String) : Option (List String) := do
  let normalizedHistory ← normalizeAll history
  match path with
  | some value =>
      if normalizedHistory.length = 0 then
        let normalized ← normalizePath value
        if normalized = "" then some [] else some [normalized]
      else appendPath normalizedHistory value
  | none => some normalizedHistory

/-- `symlink.map(normalize_path)`. -/
def normalizeLink : Option String → Option (Option String)
  | none => some none
  | some symlink => (normalizePath symlink).map some

def vinylFile (args : VinylFileArgs) (st : Store) : Option (VinylFile Nat Nat × Store) := do
  let ((contents, streamReplay), st) := st.prepareContents args.contents
  let cwd ← normalizePath args.cwd
  let base ← normalizePath args.base
  let history ← finalHistory args.path args.history
  let symlink ← normalizeLink args.symlink
  some ({ cwd, base, history, contents, streamReplay, stat := args.stat, symlink
          sourceMap := args.sourceMap, metadata := args.metadata, relativeCache := none }, st)

/-- The paths that are given to `vinyl_file`, all of which it normalizes: its directories, its path,
its history and its target. -/
def texts (args : VinylFileArgs) : List String :=
  args.cwd :: args.base :: (args.path.toList ++ args.history ++ args.symlink.toList)

theorem appendPath_eq (h : IsBmp value) (history : List String) :
    appendPath history value = some (Vinyl.appendPath history value) := by
  rw [appendPath, Vinyl.appendPath, normalizePath_eq h]
  simp only [Option.bind_eq_bind, Option.bind_some]
  split_ifs <;> rfl

theorem normalizeAll_eq {values : List String} (h : ∀ value ∈ values, IsBmp value) :
    normalizeAll values = some (values.map Vinyl.normalizePath) := by
  induction values with
  | nil => rfl
  | cons value rest ih =>
      rw [List.forall_mem_cons] at h
      rw [normalizeAll, normalizePath_eq h.1, ih h.2]
      rfl

theorem finalHistory_eq {path : Option String} {history : List String}
    (hpath : ∀ value ∈ path, IsBmp value) (h : ∀ value ∈ history, IsBmp value) :
    finalHistory path history = some (Vinyl.finalHistory path history) := by
  rw [finalHistory, normalizeAll_eq h]
  unfold Vinyl.finalHistory
  cases path with
  | none => rfl
  | some value =>
      have hvalue : IsBmp value := hpath value rfl
      simp only [Option.bind_eq_bind, Option.bind_some, normalizePath_eq hvalue,
        appendPath_eq hvalue]
      split_ifs <;> rfl

theorem normalizeLink_eq {symlink : Option String} (h : ∀ value ∈ symlink, IsBmp value) :
    normalizeLink symlink = some (symlink.map Vinyl.normalizePath) := by
  cases symlink with
  | none => rfl
  | some value =>
      rw [normalizeLink, normalizePath_eq (h value rfl)]
      rfl

theorem vinylFile_eq {args : VinylFileArgs} (h : ∀ text ∈ texts args, IsBmp text) (st : Store) :
    vinylFile args st = some (Vinyl.vinylFile args st) := by
  rw [texts, List.forall_mem_cons, List.forall_mem_cons, List.forall_mem_append,
    List.forall_mem_append] at h
  obtain ⟨hcwd, hbase, ⟨hpath, hhistory⟩, hsymlink⟩ := h
  rw [vinylFile, normalizePath_eq hcwd, normalizePath_eq hbase,
    finalHistory_eq (fun value hvalue => hpath value (Option.mem_toList.mpr hvalue)) hhistory,
    normalizeLink_eq fun value hvalue => hsymlink value (Option.mem_toList.mpr hvalue)]
  rfl

theorem isBmp_appendPath {history : List String} (h : ∀ path ∈ history, IsBmp path)
    (hvalue : IsBmp value) :
    ∀ path ∈ Vinyl.appendPath history value, IsBmp path := by
  have hpush : ∀ path ∈ history ++ [Vinyl.normalizePath value], IsBmp path := by
    rw [List.forall_mem_append, List.forall_mem_singleton]
    exact ⟨h, isBmp_normalizePath hvalue⟩
  rw [Vinyl.appendPath]
  split_ifs
  · exact h
  · exact hpush
  · exact h

theorem isBmp_finalHistory {path : Option String} {history : List String}
    (hpath : ∀ value ∈ path, IsBmp value) (h : ∀ value ∈ history, IsBmp value) :
    ∀ value ∈ Vinyl.finalHistory path history, IsBmp value := by
  have hnormalized : ∀ value ∈ history.map Vinyl.normalizePath, IsBmp value := by
    intro value hvalue
    obtain ⟨source, hsource, rfl⟩ := List.mem_map.mp hvalue
    exact isBmp_normalizePath (h source hsource)
  cases path with
  | none => exact hnormalized
  | some value =>
      have hvalue : IsBmp value := hpath value rfl
      unfold Vinyl.finalHistory
      dsimp only
      split_ifs
      · exact nofun
      · rw [List.forall_mem_singleton]
        exact isBmp_normalizePath hvalue
      · exact isBmp_appendPath hnormalized hvalue

/-- The base and the path of a vinyl file. -/
theorem isBmp_vinylFile {args : VinylFileArgs} (h : ∀ text ∈ texts args, IsBmp text) (st : Store) :
    IsBmp (Vinyl.vinylFile args st).1.base ∧
      ∀ path ∈ (Vinyl.vinylFile args st).1.path, IsBmp path := by
  rw [texts, List.forall_mem_cons, List.forall_mem_cons, List.forall_mem_append,
    List.forall_mem_append] at h
  obtain ⟨-, hbase, ⟨hpath, hhistory⟩, -⟩ := h
  refine ⟨isBmp_normalizePath hbase, fun path hlast => ?_⟩
  exact isBmp_finalHistory (fun value hvalue => hpath value (Option.mem_toList.mpr hvalue))
    hhistory path
    (List.mem_of_getLast? hlast)

/-! ## The components of a path -/

/-- The loop of `last_index_of`, for `n` more indices. -/
def lastIndexOfFrom (value needle : String) (found : Option Nat) (index : Nat) : Nat → Option (Option Nat)
  | 0 => some found
  | n + 1 => do
      let part ← slice value index (index + 1)
      lastIndexOfFrom value needle (if part = needle then some index else found) (index + 1) n

def lastIndexOf (value needle : String) : Option (Option Nat) :=
  lastIndexOfFrom value needle none 0 (unitLength value)

/-- The directory of a path. -/
def dirnameOf (path : String) : Option String := do
  match ← lastIndexOf path "/" with
  | some 0 => some "/"
  | some index => slice path 0 index
  | none => some "."

/-- The name of a path. -/
def basenameOf (path : String) : Option String := do
  match ← lastIndexOf path "/" with
  | some index => slice path (index + 1) (unitLength path)
  | none => some path

/-- The extension of a name. -/
def extnameOf (name : String) : Option String := do
  match ← lastIndexOf name "." with
  | some 0 | none => some ""
  | some index => slice name index (unitLength name)

/-- The stem of a name. -/
def stemOf (name : String) : Option String := do
  match ← lastIndexOf name "." with
  | some 0 | none => some name
  | some index => slice name 0 index

theorem lastIndexOfFrom_eq (h : IsBmp value) (c : Char) {found : Option Nat} {index n : Nat}
    (hn : index + n = value.toList.length) :
    lastIndexOfFrom value (String.ofList [c]) found index n =
      some (((value.toList.drop index).zipIdx index).foldl
        (fun found item => if item.1 = c then some item.2 else found) found) := by
  induction n generalizing found index with
  | zero => rw [lastIndexOfFrom, List.drop_eq_nil_of_le (by omega), List.zipIdx_nil, List.foldl_nil]
  | succ n ih =>
      have hindex : index < value.toList.length := by omega
      rw [lastIndexOfFrom, h.slice_one hindex, List.drop_eq_getElem_cons hindex, List.zipIdx_cons,
        List.foldl_cons, Option.bind_eq_bind, Option.bind_some, ih (by omega)]
      simp only [String.ofList_inj, List.singleton_inj]

theorem lastIndexOf_eq (h : IsBmp value) (c : Char) :
    lastIndexOf value (String.ofList [c]) = some (Vinyl.lastIndexOf value c) := by
  rw [lastIndexOf, h.unitLength, lastIndexOfFrom_eq h c (Nat.zero_add _)]
  rfl

theorem foldl_zipIdx_lt {chars : List Char} {c : Char} {found : Option Nat} {start index : Nat}
    (hfound : ∀ i ∈ found, i < start)
    (h : (chars.zipIdx start).foldl
      (fun found item => if item.1 = c then some item.2 else found) found =
      some index) : index < start + chars.length := by
  induction chars generalizing found start with
  | nil => exact hfound index h
  | cons d chars ih =>
      rw [List.length_cons]
      rw [List.zipIdx_cons, List.foldl_cons] at h
      have hnext : ∀ i ∈ (if d = c then some start else found), i < start + 1 := by
        intro i hi
        split_ifs at hi
        · obtain rfl := Option.some.inj hi
          exact Nat.lt_succ_self _
        · exact Nat.lt_succ_of_lt (hfound i hi)
      have hlt := ih hnext h
      omega

/-- What is found is an index of the value. -/
theorem lastIndexOf_lt {c : Char} {index : Nat} (h : Vinyl.lastIndexOf value c = some index) :
    index < value.toList.length := by
  have hlt := foldl_zipIdx_lt (fun i hi => absurd hi (Option.not_mem_none i)) h
  rwa [Nat.zero_add] at hlt

theorem dirnameOf_eq (h : IsBmp value) :
    dirnameOf value = some (match Vinyl.lastIndexOf value '/' with
      | some 0 => "/"
      | some index => String.ofList (value.toList.take index)
      | none => ".") := by
  have hfound : lastIndexOf value "/" = some (Vinyl.lastIndexOf value '/') := lastIndexOf_eq h '/'
  rw [dirnameOf, hfound, Option.bind_eq_bind, Option.bind_some]
  cases hlast : Vinyl.lastIndexOf value '/' with
  | none => rfl
  | some index =>
      cases index with
      | zero => rfl
      | succ index =>
          have hslice := h.slice (Nat.zero_le _) (Nat.le_of_lt (lastIndexOf_lt hlast))
          rw [List.drop_zero] at hslice
          exact hslice

theorem basenameOf_eq (h : IsBmp value) :
    basenameOf value = some (match Vinyl.lastIndexOf value '/' with
      | some index => String.ofList (value.toList.drop (index + 1))
      | none => value) := by
  have hfound : lastIndexOf value "/" = some (Vinyl.lastIndexOf value '/') := lastIndexOf_eq h '/'
  rw [basenameOf, hfound, Option.bind_eq_bind, Option.bind_some]
  cases hlast : Vinyl.lastIndexOf value '/' with
  | none => rfl
  | some index =>
      have hslice := h.slice (lastIndexOf_lt hlast) (Nat.le_refl _)
      rw [List.take_length, ← h.unitLength] at hslice
      exact hslice

theorem extnameOf_eq (h : IsBmp value) :
    extnameOf value = some (match Vinyl.lastIndexOf value '.' with
      | some 0 | none => ""
      | some index => String.ofList (value.toList.drop index)) := by
  have hfound : lastIndexOf value "." = some (Vinyl.lastIndexOf value '.') := lastIndexOf_eq h '.'
  rw [extnameOf, hfound, Option.bind_eq_bind, Option.bind_some]
  cases hlast : Vinyl.lastIndexOf value '.' with
  | none => rfl
  | some index =>
      cases index with
      | zero => rfl
      | succ index =>
          have hslice := h.slice (Nat.le_of_lt (lastIndexOf_lt hlast)) (Nat.le_refl _)
          rw [List.take_length, ← h.unitLength] at hslice
          exact hslice

theorem stemOf_eq (h : IsBmp value) :
    stemOf value = some (match Vinyl.lastIndexOf value '.' with
      | some 0 | none => value
      | some index => String.ofList (value.toList.take index)) := by
  have hfound : lastIndexOf value "." = some (Vinyl.lastIndexOf value '.') := lastIndexOf_eq h '.'
  rw [stemOf, hfound, Option.bind_eq_bind, Option.bind_some]
  cases hlast : Vinyl.lastIndexOf value '.' with
  | none => rfl
  | some index =>
      cases index with
      | zero => rfl
      | succ index =>
          have hslice := h.slice (Nat.zero_le _) (Nat.le_of_lt (lastIndexOf_lt hlast))
          rw [List.drop_zero] at hslice
          exact hslice

theorem isBmp_basenameOf (h : IsBmp value) {name : String} (hname : basenameOf value = some name) :
    IsBmp name := by
  rw [basenameOf_eq h, Option.some.injEq] at hname
  rw [← hname]
  cases Vinyl.lastIndexOf value '/' with
  | none => exact h
  | some index =>
      refine h.of_subset ?_
      rw [String.toList_ofList]
      exact List.drop_subset _ _

section VinylFile

variable {β ρ : Type} {self : VinylFile β ρ}

def dirnameResult (self : VinylFile β ρ) : Option (Except String String) :=
  match self.path with
  | none => some (.error "No path specified! Can not get dirname.")
  | some path => (dirnameOf path).map .ok

def basenameResult (self : VinylFile β ρ) : Option (Except String String) :=
  match self.path with
  | none => some (.error "No path specified! Can not get basename.")
  | some path => (basenameOf path).map .ok

def basename (self : VinylFile β ρ) : Option String :=
  (basenameResult self).map fun result => VinylFile.unwrapOr result ""

def extnameResult (self : VinylFile β ρ) : Option (Except String String) :=
  if self.path.isNone then some (.error "No path specified! Can not get extname.")
  else do
    let name ← basename self
    (extnameOf name).map .ok

def stemResult (self : VinylFile β ρ) : Option (Except String String) :=
  if self.path.isNone then some (.error "No path specified! Can not get stem.")
  else do
    let name ← basename self
    (stemOf name).map .ok

theorem dirnameResult_eq (h : ∀ path ∈ self.path, IsBmp path) :
    dirnameResult self = some self.dirnameResult := by
  rw [dirnameResult, VinylFile.dirnameResult]
  cases hpath : self.path with
  | none => rfl
  | some path =>
      simp only [dirnameOf_eq (h path hpath), Option.map_some]
      rcases Vinyl.lastIndexOf path '/' with _ | _ | index <;> rfl

theorem basenameResult_eq (h : ∀ path ∈ self.path, IsBmp path) :
    basenameResult self = some self.basenameResult := by
  rw [basenameResult, VinylFile.basenameResult]
  cases hpath : self.path with
  | none => rfl
  | some path =>
      simp only [basenameOf_eq (h path hpath), Option.map_some]
      cases Vinyl.lastIndexOf path '/' <;> rfl

theorem basename_eq (h : ∀ path ∈ self.path, IsBmp path) : basename self = some self.basename := by
  rw [basename, basenameResult_eq h]
  rfl

theorem isBmp_basename (h : ∀ path ∈ self.path, IsBmp path) : IsBmp self.basename := by
  have hempty : IsBmp "" := by decide
  rw [VinylFile.basename, VinylFile.basenameResult]
  cases hpath : self.path with
  | none => exact hempty
  | some path =>
      have hname := isBmp_basenameOf (h path hpath) (basenameOf_eq (h path hpath))
      dsimp only
      cases hlast : Vinyl.lastIndexOf path '/' with
      | none => exact h path hpath
      | some index =>
          rw [hlast] at hname
          exact hname

theorem extnameResult_eq (h : ∀ path ∈ self.path, IsBmp path) :
    extnameResult self = some self.extnameResult := by
  rw [extnameResult, VinylFile.extnameResult, basename_eq h]
  simp only [Option.bind_eq_bind, Option.bind_some, extnameOf_eq (isBmp_basename h),
    Option.map_some]
  split_ifs
  · rfl
  · rcases Vinyl.lastIndexOf self.basename '.' with _ | _ | index <;> rfl

theorem stemResult_eq (h : ∀ path ∈ self.path, IsBmp path) :
    stemResult self = some self.stemResult := by
  rw [stemResult, VinylFile.stemResult, basename_eq h]
  simp only [Option.bind_eq_bind, Option.bind_some, stemOf_eq (isBmp_basename h), Option.map_some]
  split_ifs
  · rfl
  · rcases Vinyl.lastIndexOf self.basename '.' with _ | _ | index <;> rfl

end VinylFile

/-! ## `relative_between` -/

def pathParts (path : String) : Option (List String) := do
  let normalized ← normalizePath path
  some ((splitSlash normalized).filter fun part => part ≠ "" && part ≠ ".")

def relativeBetween (base path : String) : Option String :=
  if path = base then some ""
  else if base ≠ "/" && hasPrefix path (base ++ "/") then slice path (unitLength base + 1) (unitLength path)
  else do
    let baseParts ← pathParts base
    let parts ← pathParts path
    let common := commonLength baseParts parts
    some (joinSlash (List.replicate (baseParts.length - common) ".." ++ parts.drop common))

/-- `VinylFile::relative_result`, without the cache it fills. -/
def relativeResult {β ρ : Type} (self : VinylFile β ρ) : Option (Except String String) :=
  match self.relativeCache with
  | some value => some (.ok value)
  | none =>
      match self.path with
      | none => some (.error "No path specified! Can not get relative.")
      | some path => (relativeBetween self.base path).map .ok

theorem pathParts_eq (h : IsBmp value) : pathParts value = some (Vinyl.pathParts value) := by
  rw [pathParts, normalizePath_eq h]
  rfl

theorem relativeBetween_eq {base path : String} (hbase : IsBmp base) (hpath : IsBmp path) :
    relativeBetween base path = some (Vinyl.relativeBetween base path) := by
  rw [relativeBetween, Vinyl.relativeBetween, pathParts_eq hbase, pathParts_eq hpath]
  split_ifs with hsame hinside
  · rfl
  · -- the path goes on behind the base and a slash
    obtain ⟨rest, hrest⟩ := hasPrefix_iff.mp (Bool.and_eq_true_iff.mp hinside).2
    have hlength : base.toList.length + 1 ≤ path.toList.length := by simp [hrest]
    rw [hbase.unitLength, hpath.unitLength, hpath.slice hlength (Nat.le_refl _), List.take_length]
  · rfl

theorem relativeResult_eq {β ρ : Type} {self : VinylFile β ρ} (hbase : IsBmp self.base)
    (h : ∀ path ∈ self.path, IsBmp path) : relativeResult self = some self.relativeResult := by
  rw [relativeResult, VinylFile.relativeResult]
  cases self.relativeCache with
  | some value => rfl
  | none =>
      cases hpath : self.path with
      | none => rfl
      | some path =>
          simp only [relativeBetween_eq hbase (h path hpath), Option.map_some]

end Mulp.Vinyl.Sliced
