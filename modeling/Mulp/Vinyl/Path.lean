import Mulp.Text.Path

/-! The paths of vinyl files (`vinyl/file.mbt`).

Strings are taken apart by characters here. The versions with the slices of the source
are in `Sliced`, where each is shown to be this one on texts that no slice cuts. -/
namespace Mulp.Vinyl

open Mulp.Text Lexical

/-! ## `normalize_path` -/

def trimTrailingSlash (value : String) : String :=
  if value.toList.length > 1 && hasSuffix value "/" then String.ofList value.toList.dropLast
  else value

/-- The loop of `path_needs_normalize`, with the characters of the segment so far. -/
def needsNormalizeFrom (rooted : Bool) (index : Nat) (segment : List Char) : List Char → Bool
  | [] => segment = [] || segment = ['.'] || segment = ['.', '.']
  | c :: rest =>
      if c = '/' then
        if segment = [] then
          if index = 0 && rooted then needsNormalizeFrom rooted (index + 1) [] rest else true
        else if segment = ['.'] || segment = ['.', '.'] then true
        else needsNormalizeFrom rooted (index + 1) [] rest
      else needsNormalizeFrom rooted (index + 1) (segment ++ [c]) rest

def pathNeedsNormalize (value : String) : Bool :=
  needsNormalizeFrom (hasPrefix value "/") 0 [] value.toList

/-- A turn of the loop of `normalize_path` over the segments. -/
def pushPart (absolute : Bool) (parts : List String) (part : String) : List String :=
  if part = "" || part = "." then parts
  else if part = ".." then
    match parts.getLast? with
    | some last => if last ≠ ".." then parts.dropLast else if absolute then parts else parts ++ [part]
    | none => if absolute then parts else parts ++ [part]
  else parts ++ [part]

def normalizePath (value : String) : String :=
  if value = "" then ""
  else
    let trimmed := trimTrailingSlash value
    if !pathNeedsNormalize trimmed then trimmed
    else
      let absolute := hasPrefix value "/"
      let joined := joinSlash ((splitSlash value).foldl (pushPart absolute) [])
      if absolute then
        if joined = "" then "/" else "/" ++ joined
      else if joined = "" then "."
      else trimTrailingSlash joined

/-! ### The slow path -/

theorem pushPart_parts {absolute : Bool} {pos : Pos String} (part : String)
    (hnames : ∀ name ∈ pos.names, IsName name) :
    pushPart absolute (Location.parts pos) part =
      Location.parts (pos.step absolute (stepOf part)) := by
  obtain ⟨ups, names⟩ := pos
  by_cases hstay : part = "" ∨ part = "."
  · simp [pushPart, stepOf, hstay, Pos.step]
  by_cases hup : part = ".."
  · have hstep : stepOf part = .up := by rw [hup]; rfl
    rw [hstep, pushPart, if_neg (by simpa using hstay), if_pos hup]
    rcases names.eq_nil_or_concat' with rfl | ⟨rest, name, rfl⟩
    · -- nothing to leave: the parts are all `..`, and at the root there are none
      have hlast : ∀ last, (Location.parts ⟨ups, []⟩).getLast? = some last → last = ".." := by
        intro last h
        have hmem := List.mem_of_getLast? h
        rw [Location.parts, List.append_nil] at hmem
        exact List.eq_of_mem_replicate hmem
      have hpush : (if absolute = true then Location.parts ⟨ups, []⟩
          else Location.parts ⟨ups, []⟩ ++ [part]) =
          Location.parts (Pos.step absolute ⟨ups, []⟩ .up) := by
        cases absolute with
        | true => rfl
        | false => simp [Location.parts, Pos.step, hup, List.replicate_succ']
      cases hget : (Location.parts ⟨ups, []⟩).getLast? with
      | none => exact hpush
      | some last =>
          simp only [hlast last hget, ne_eq, not_true, if_false]
          exact hpush
    · -- the last part is a name
      have hname : IsName name := hnames name (by simp)
      have hparts : Location.parts ⟨ups, rest ++ [name]⟩ =
          Location.parts ⟨ups, rest⟩ ++ [name] := by
        simp [Location.parts]
      rw [hparts, Pos.step_up_concat, List.getLast?_concat]
      simp [hname.ne_dots]
  · have hstep : stepOf part = .down part := by rw [stepOf, if_neg hstay, if_neg hup]
    rw [hstep, pushPart, if_neg (by simpa using hstay), if_neg hup]
    simp [Location.parts, Pos.step]

theorem foldl_pushPart {absolute : Bool} {pos : Pos String} {segments : List String}
    (hnames : ∀ name ∈ pos.names, IsName name) (h : ∀ segment ∈ segments, NoSlash segment) :
    segments.foldl (pushPart absolute) (Location.parts pos) =
      Location.parts (pos.walk absolute (segments.map stepOf)) := by
  induction segments generalizing pos with
  | nil => rfl
  | cons segment rest ih =>
      have hstep : pos.step absolute (stepOf segment) = pos.walk absolute ([segment].map stepOf) :=
        rfl
      rw [List.foldl_cons, pushPart_parts segment hnames, List.map_cons, Pos.walk_cons]
      refine ih ?_ fun s hs => h s (List.mem_cons_of_mem _ hs)
      rw [hstep]
      exact isName_walk hnames fun s hs => h s (by simp [List.mem_singleton.mp hs])

/-- The segments of a path, resolved, are those of the shortest path. -/
theorem resolved_parts (value : String) :
    (splitSlash value).foldl (pushPart (hasPrefix value "/")) [] =
      Location.parts (location value).pos := by
  have hstart : Location.parts Pos.start = [] := rfl
  rw [← hstart]
  exact foldl_pushPart (by simp [Pos.start]) fun _ => noSlash_of_mem_splitSlash

/-! ### The fast path -/

/-- The segments for which `path_needs_normalize` answers true. -/
def Odd (segment : List Char) : Bool := segment = [] || segment = ['.'] || segment = ['.', '.']

theorem isName_of_not_odd {value : String} (h : (value.toList.splitOn '/').any Odd = false) :
    ∀ segment ∈ splitSlash value, IsName segment := by
  intro segment hsegment
  obtain ⟨chars, hchars, rfl⟩ := List.mem_map.mp hsegment
  have hodd : Odd chars = false := by simpa using List.any_eq_false.mp h chars hchars
  have hne : ∀ other : String, Odd other.toList = true → String.ofList chars ≠ other := by
    rintro other hother rfl
    rw [String.toList_ofList, hodd] at hother
    cases hother
  exact ⟨noSlash_of_mem_splitSlash hsegment, hne "" rfl, hne "." rfl, hne ".." rfl⟩

/-- After the first character, the loop looks for an odd segment. -/
theorem needsNormalizeFrom_eq {rooted : Bool} {index : Nat} (hindex : index ≠ 0)
    {segment : List Char} (hslash : '/' ∉ segment) (rest : List Char) :
    needsNormalizeFrom rooted index segment rest = ((segment ++ rest).splitOn '/').any Odd := by
  induction rest generalizing index segment with
  | nil =>
      rw [List.append_nil, List.splitOn_eq_singleton hslash, List.any_cons, List.any_nil,
        Bool.or_false]
      rfl
  | cons c rest ih =>
      by_cases hc : c = '/'
      · rw [hc, List.splitOn_append_cons_self_of_not_mem hslash, List.any_cons]
        have hrest := ih (Nat.succ_ne_zero index) (List.not_mem_nil (a := '/'))
        rw [List.nil_append] at hrest
        rw [← hrest, needsNormalizeFrom, if_pos rfl]
        by_cases hempty : segment = []
        · simp [hempty, hindex, Odd]
        · by_cases hdots : segment = ['.'] ∨ segment = ['.', '.']
          · simp [hempty, hdots, Odd]
          · simp [hempty, hdots, Odd]
      · have hslash' : '/' ∉ segment ++ [c] := by
          simpa [hslash] using Ne.symm hc
        have happend : segment ++ c :: rest = segment ++ [c] ++ rest := by simp
        rw [needsNormalizeFrom, if_neg hc, ih (Nat.succ_ne_zero index) hslash', happend]

theorem pathNeedsNormalize_slash (rest : String) :
    pathNeedsNormalize ("/" ++ rest) = (rest.toList.splitOn '/').any Odd := by
  have htoList : ("/" ++ rest).toList = '/' :: rest.toList := by simp
  rw [pathNeedsNormalize, hasPrefix_slash, htoList, needsNormalizeFrom, if_pos rfl, if_pos rfl,
    if_pos (by rfl), needsNormalizeFrom_eq Nat.one_ne_zero List.not_mem_nil]
  rfl

theorem pathNeedsNormalize_relative {value : String} (h : hasPrefix value "/" = false) :
    pathNeedsNormalize value = (value.toList.splitOn '/').any Odd := by
  rw [pathNeedsNormalize, h]
  cases hchars : value.toList with
  | nil => rfl
  | cons c rest =>
      have hc : c ≠ '/' := by
        rintro rfl
        simp [hasPrefix, hchars, List.isPrefixOf] at h
      rw [needsNormalizeFrom, if_neg hc,
        needsNormalizeFrom_eq Nat.one_ne_zero (by simpa using Ne.symm hc)]
      rfl

/-- A path that the loop accepts is the shortest one to its location. -/
theorem text_location_of_accepted {value : String} (h : pathNeedsNormalize value = false) :
    (location value).text = value := by
  by_cases hrooted : hasPrefix value "/" = true
  · obtain ⟨rest, rfl⟩ := hasPrefix_iff.mp hrooted
    have hstay : Pos.start.step true (stepOf "") = Pos.start := rfl
    rw [pathNeedsNormalize_slash] at h
    rw [location, hrooted, splitSlash_slash, List.map_cons, Pos.walk_cons, hstay,
      walk_isName (isName_of_not_odd h)]
    simp [Location.text, Location.parts, joinSlash_splitSlash]
  · have hrooted : hasPrefix value "/" = false := Bool.eq_false_iff.mpr hrooted
    rw [pathNeedsNormalize_relative hrooted] at h
    rw [location, hrooted, walk_isName (isName_of_not_odd h)]
    simp [Location.text, Location.parts, joinSlash_splitSlash, splitSlash_ne_nil]

theorem not_odd_of_isName {value : String} (h : ∀ segment ∈ splitSlash value, IsName segment) :
    (value.toList.splitOn '/').any Odd = false := by
  rw [List.any_eq_false]
  intro chars hchars hodd
  have hname := h _ (List.mem_map_of_mem hchars)
  simp only [Odd, Bool.or_eq_true, decide_eq_true_eq] at hodd
  rcases hodd with (rfl | rfl) | rfl
  · exact hname.ne_empty rfl
  · exact hname.ne_dot rfl
  · exact hname.ne_dots rfl

/-- The shortest path to a location is accepted if it has names and no `..`. -/
theorem pathNeedsNormalize_text {l : Location} (h : l.Proper) (hups : l.pos.ups = 0)
    (hne : l.pos.names ≠ []) : pathNeedsNormalize l.text = false := by
  obtain ⟨rooted, ups, names⟩ := l
  obtain rfl : ups = 0 := hups
  have hparts : Location.parts ⟨0, names⟩ = names := rfl
  have hsplit : splitSlash (joinSlash names) = names :=
    splitSlash_joinSlash hne fun name hname => (h.names name hname).noSlash
  have hodd := @not_odd_of_isName (joinSlash names) (by rw [hsplit]; exact h.names)
  cases rooted with
  | true =>
      rw [Location.text, if_pos rfl, hparts, pathNeedsNormalize_slash, hodd]
  | false =>
      obtain ⟨name, rest, rfl⟩ := List.exists_cons_of_ne_nil hne
      have hname := h.names name List.mem_cons_self
      have hne : Location.parts ⟨0, name :: rest⟩ ≠ [] := List.cons_ne_nil name rest
      rw [Location.text, if_neg Bool.false_ne_true, if_neg hne, hparts,
        pathNeedsNormalize_relative (hasPrefix_joinSlash hname.noSlash hname.ne_empty), hodd]

/-! ### Both -/

theorem location_trimTrailingSlash (value : String) :
    location (trimTrailingSlash value) = location value := by
  rw [trimTrailingSlash]
  split_ifs with h
  · obtain ⟨hlength, hsuffix⟩ := (Bool.and_eq_true _ _).mp h
    obtain ⟨start, rfl⟩ := hasSuffix_iff.mp hsuffix
    have hstart : String.ofList (start ++ "/").toList.dropLast = start := by simp
    rw [hstart, location_trailing]
    rintro rfl
    simp at hlength
  · rfl

/-- Joined parts end in no slash. -/
theorem trimTrailingSlash_joinSlash {parts : List String}
    (h : ∀ part ∈ parts, NoSlash part ∧ part ≠ "") :
    trimTrailingSlash (joinSlash parts) = joinSlash parts := by
  rw [trimTrailingSlash, if_neg]
  rintro htrim
  obtain ⟨start, hstart⟩ := hasSuffix_iff.mp ((Bool.and_eq_true _ _).mp htrim).2
  have hne : parts ≠ [] := by
    rintro rfl
    simp [hasSuffix] at htrim
  have hmem : "" ∈ parts := by
    rw [← splitSlash_joinSlash hne fun part hpart => (h part hpart).1, hstart, splitSlash_trailing]
    simp
  exact (h "" hmem).2 rfl

/-- `normalize_path` answers the shortest path to the same place. -/
theorem normalizePath_eq {value : String} (h : value ≠ "") :
    normalizePath value = (location value).text := by
  rw [normalizePath, if_neg h]
  by_cases haccepted : pathNeedsNormalize (trimTrailingSlash value) = false
  · simp only [haccepted, Bool.not_false, if_true]
    rw [← location_trimTrailingSlash, text_location_of_accepted haccepted]
  · have hparts := Location.parts_noSlash (location_proper value).names
    have hempty := joinSlash_eq_empty fun part hpart => (hparts part hpart).2
    have hneeds : pathNeedsNormalize (trimTrailingSlash value) = true := by simpa using haccepted
    have hrooted : (location value).rooted = hasPrefix value "/" := rfl
    simp only [hneeds, Bool.not_true, Bool.false_eq_true, if_false, resolved_parts, hempty,
      Location.text, hrooted, trimTrailingSlash_joinSlash hparts]
    split_ifs with habsolute hnil <;> simp_all

@[simp] theorem normalizePath_empty : normalizePath "" = "" := rfl

theorem location_normalizePath (value : String) :
    location (normalizePath value) = location value := by
  by_cases h : value = ""
  · rw [h, normalizePath_empty]
  · rw [normalizePath_eq h, location_text (location_proper value)]

theorem normalizePath_eq_empty {value : String} : normalizePath value = "" ↔ value = "" := by
  constructor
  · intro hempty
    by_contra h
    rw [normalizePath_eq h] at hempty
    exact text_ne_empty (location_proper value) hempty
  · rintro rfl
    rfl

theorem normalizePath_idem (value : String) :
    normalizePath (normalizePath value) = normalizePath value := by
  by_cases h : value = ""
  · rw [h, normalizePath_empty]
    rfl
  · rw [normalizePath_eq (mt normalizePath_eq_empty.mp h), location_normalizePath,
      normalizePath_eq h]

theorem normalizePath_inj {value other : String} (hvalue : value ≠ "") (hother : other ≠ "") :
    normalizePath value = normalizePath other ↔ location value = location other := by
  constructor
  · intro h
    rw [← location_normalizePath value, h, location_normalizePath]
  · intro h
    rw [normalizePath_eq hvalue, normalizePath_eq hother, h]

/-! ## `relative_between` -/

def pathParts (path : String) : List String :=
  (splitSlash (normalizePath path)).filter fun part => part ≠ "" && part ≠ "."

/-- The loop of `relative_between` over the parts that two paths have in common. -/
def commonLength : List String → List String → Nat
  | basePart :: baseParts, part :: parts =>
      if basePart = part then commonLength baseParts parts + 1 else 0
  | _, _ => 0

def relativeBetween (base path : String) : String :=
  if path = base then ""
  else if base ≠ "/" && hasPrefix path (base ++ "/") then
    String.ofList (path.toList.drop (base.toList.length + 1))
  else
    let common := commonLength (pathParts base) (pathParts path)
    joinSlash (List.replicate ((pathParts base).length - common) ".." ++ (pathParts path).drop common)

end Mulp.Vinyl
