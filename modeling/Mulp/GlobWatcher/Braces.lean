import Mulp.Text.Substring

/-! The alternatives in braces (`glob-watcher/glob.mbt`): `{a,b}` stands for `a` or `b`.

The code replaces the first group of braces by each of its alternatives and starts anew
with each text. What it comes to is told by a syntax of nested alternatives, of which
every text has one: the texts that it stands for are the choices of the syntax, whatever
the order of the replacements. -/
namespace Mulp.GlobWatch

open Text

/-! ## The code -/

/-- The loop of `find_brace_range`, at an index of the pattern. -/
def findBraceRangeFrom (i : Nat) (depth : Int) (start : Option Nat) :
    List Char → Option (Nat × Nat)
  | [] => none
  | c :: rest =>
      if c = '{' then
        findBraceRangeFrom (i + 1) (depth + 1) (if depth = 0 then some i else start) rest
      else if c = '}' then
        match (if depth - 1 = 0 then start else none) with
        | some first => some (first, i)
        | none => findBraceRangeFrom (i + 1) (depth - 1) start rest
      else findBraceRangeFrom (i + 1) depth start rest

def findBraceRange (pattern : String) : Option (Nat × Nat) :=
  findBraceRangeFrom 0 0 none pattern.toList

/-- The loop of `split_brace_alts`; its slices may abort. -/
def splitBraceAltsFrom (inner : String) (i : Nat) (depth : Int) (start : Nat) :
    List Char → Option (List String)
  | [] => do
      let last ← slice inner start (unitLength inner)
      return [last]
  | c :: rest =>
      if c = '{' then splitBraceAltsFrom inner (i + 1) (depth + 1) start rest
      else if c = '}' then splitBraceAltsFrom inner (i + 1) (depth - 1) start rest
      else if c = ',' ∧ depth = 0 then do
        let alt ← slice inner start i
        let more ← splitBraceAltsFrom inner (i + 1) depth (i + 1) rest
        return alt :: more
      else splitBraceAltsFrom inner (i + 1) depth start rest

def splitBraceAlts (inner : String) : Option (List String) :=
  splitBraceAltsFrom inner 0 0 0 inner.toList

/-- What `expand_braces` goes on with: each alternative in place of the braces in the range. -/
def replaceBraces (pattern : String) (range : Nat × Nat) : Option (List String) := do
  let before ← slice pattern 0 range.1
  let inner ← slice pattern (range.1 + 1) range.2
  let after ← slice pattern (range.2 + 1) (unitLength pattern)
  let alts ← splitBraceAlts inner
  return alts.map fun alt => before ++ alt ++ after

/-! ## It comes to an end -/

theorem slice_length {value part : String} {i j : Nat} (h : slice value i j = some part) :
    i + unitLength part = j ∧ j ≤ unitLength value := by
  refine ⟨?_, le_unitLength h⟩
  obtain ⟨before, after, -, hi, hj⟩ := slice_eq_some_iff.mp h
  rw [← hi, ← hj, unitLength_append]

theorem unitLength_splitBraceAltsFrom {inner : String} {i : Nat} {depth : Int} {start : Nat}
    {chars : List Char} {alts : List String}
    (h : splitBraceAltsFrom inner i depth start chars = some alts) :
    ∀ alt ∈ alts, unitLength alt ≤ unitLength inner := by
  have hslice {start stop : Nat} {alt : String} (h : slice inner start stop = some alt) :
      unitLength alt ≤ unitLength inner := by
    have hlength := slice_length h
    omega
  induction chars generalizing i depth start alts with
  | nil =>
      obtain ⟨last, hlast, hreturn⟩ := Option.bind_eq_some_iff.mp h
      rw [← Option.some.inj hreturn]
      intro alt halt
      rw [List.mem_singleton.mp halt]
      exact hslice hlast
  | cons c rest ih =>
      unfold splitBraceAltsFrom at h
      split_ifs at h
      · exact ih h
      · exact ih h
      · obtain ⟨first, hfirst, h⟩ := Option.bind_eq_some_iff.mp h
        obtain ⟨more, hmore, hreturn⟩ := Option.bind_eq_some_iff.mp h
        rw [← Option.some.inj hreturn]
        intro alt halt
        rcases List.mem_cons.mp halt with rfl | halt
        · exact hslice hfirst
        · exact ih hmore alt halt
      · exact ih h

/-- The braces have gone, and nothing else is longer. -/
theorem unitLength_replaceBraces {pattern : String} {range : Nat × Nat} {alts : List String}
    (h : replaceBraces pattern range = some alts) :
    ∀ alt ∈ alts, unitLength alt < unitLength pattern := by
  obtain ⟨before, hbefore, h⟩ := Option.bind_eq_some_iff.mp h
  obtain ⟨inner, hinner, h⟩ := Option.bind_eq_some_iff.mp h
  obtain ⟨after, hafter, h⟩ := Option.bind_eq_some_iff.mp h
  obtain ⟨parts, hparts, hreturn⟩ := Option.bind_eq_some_iff.mp h
  rw [← Option.some.inj hreturn]
  intro alt halt
  obtain ⟨part, hpart, rfl⟩ := List.mem_map.mp halt
  have hle := unitLength_splitBraceAltsFrom hparts part hpart
  have hbeforeLength := slice_length hbefore
  have hinnerLength := slice_length hinner
  have hafterLength := slice_length hafter
  rw [unitLength_append, unitLength_append]
  omega

def expandBraces (pattern : String) : Option (List String) :=
  match findBraceRange pattern with
  | none => some [pattern]
  | some range =>
      match _h : replaceBraces pattern range with
      | none => none
      | some alts => do
          let expanded ← alts.attach.mapM fun alt => expandBraces alt.1
          return expanded.flatten
termination_by unitLength pattern
decreasing_by exact unitLength_replaceBraces _h alt.1 alt.2

theorem expandBraces_of_none {pattern : String} (h : findBraceRange pattern = none) :
    expandBraces pattern = some [pattern] := by
  rw [expandBraces, h]

theorem expandBraces_of_some {pattern : String} {range : Nat × Nat} {alts : List String}
    {f : String → List String} (hrange : findBraceRange pattern = some range)
    (halts : replaceBraces pattern range = some alts)
    (hf : ∀ alt ∈ alts, expandBraces alt = some (f alt)) :
    expandBraces pattern = some (alts.flatMap f) := by
  have hmap (l : List { alt // alt ∈ alts }) :
      l.mapM (fun alt => expandBraces alt.1) = some (l.map fun alt => f alt.1) := by
    induction l with
    | nil => rfl
    | cons alt l ih =>
        rw [List.mapM_cons, hf alt.1 alt.2, ih]
        rfl
  rw [expandBraces, hrange]
  dsimp only
  split
  · rename_i hnone
    rw [halts] at hnone
    cases hnone
  · rename_i others hothers
    obtain rfl : alts = others := Option.some.inj (halts.symm.trans hothers)
    rw [hmap, List.flatMap_def, ← List.attach_map_subtype_val alts, List.map_map,
      List.attach_map_subtype_val]
    rfl

/-! ## Patterns without pairs -/

/-- The slice between two stretches of a text without pairs. -/
theorem slice_between {value : String} {before mid after : List Char} (h : IsBmp value)
    (hvalue : value.toList = before ++ mid ++ after) :
    slice value before.length (before.length + mid.length) = some (String.ofList mid) := by
  have hlength : before.length + mid.length ≤ value.toList.length := by
    rw [hvalue]
    simp only [List.length_append]
    omega
  have htake : (before ++ mid ++ after).take (before.length + mid.length) = before ++ mid := by
    rw [← List.length_append, List.take_left]
  rw [h.slice (Nat.le_add_right _ _) hlength, hvalue, htake, List.drop_left]

theorem slice_end {value : String} {before last : List Char} (h : IsBmp value)
    (hvalue : value.toList = before ++ last) :
    slice value before.length (unitLength value) = some (String.ofList last) := by
  have hslice := @slice_between value before last [] h (by rw [hvalue, List.append_nil])
  rwa [← List.length_append, ← hvalue, ← h.unitLength] at hslice

theorem findBraceRangeFrom_bounds {i : Nat} {depth : Int} {start : Option Nat} {chars : List Char}
    {range : Nat × Nat} (hstart : ∀ first ∈ start, first < i)
    (h : findBraceRangeFrom i depth start chars = some range) :
    range.1 < range.2 ∧ range.2 < i + chars.length := by
  induction chars generalizing i depth start with
  | nil => cases h
  | cons c chars ih =>
      have hlater : ∀ first ∈ start, first < i + 1 := fun first hfirst => Nat.lt_succ_of_lt (hstart first hfirst)
      rw [List.length_cons]
      unfold findBraceRangeFrom at h
      split_ifs at h with hopen hdepth hclose hzero
      · have hbounds := @ih (i + 1) _ (some i) (by simp) h
        omega
      · have hbounds := ih hlater h
        omega
      · cases start with
        | none =>
            have hbounds := ih hlater h
            omega
        | some first =>
            obtain rfl := Option.some.inj h
            have hfirst := hstart first rfl
            simp only
            omega
      · have hbounds := ih hlater h
        omega
      · have hbounds := ih hlater h
        omega

theorem exists_splitBraceAltsFrom {inner : String} (h : IsBmp inner) {i : Nat} {depth : Int}
    {start : Nat} {chars : List Char} (hstart : start ≤ i) (hi : i + chars.length = unitLength inner) :
    ∃ alts, splitBraceAltsFrom inner i depth start chars = some alts ∧ ∀ alt ∈ alts, IsBmp alt := by
  induction chars generalizing i depth start with
  | nil =>
      obtain ⟨last, hlast, hbmp⟩ := h.exists_slice (i := start) (j := unitLength inner) (by
        rw [← hi]
        exact Nat.le_add_right_of_le hstart) (Nat.le_refl _)
      refine ⟨[last], ?_, by simpa using hbmp⟩
      rw [splitBraceAltsFrom, hlast]
      rfl
  | cons c chars ih =>
      rw [List.length_cons] at hi
      unfold splitBraceAltsFrom
      split_ifs
      · exact ih (by omega) (by omega)
      · exact ih (by omega) (by omega)
      · obtain ⟨alt, halt, hbmp⟩ := h.exists_slice hstart (by omega)
        obtain ⟨more, hmore, hmoreBmp⟩ := @ih (i + 1) depth (i + 1) (Nat.le_refl _) (by omega)
        refine ⟨alt :: more, ?_, List.forall_mem_cons.mpr ⟨hbmp, hmoreBmp⟩⟩
        rw [halt, hmore]
        rfl
      · exact ih (by omega) (by omega)

theorem exists_replaceBraces {pattern : String} (h : IsBmp pattern) {range : Nat × Nat}
    (hrange : findBraceRange pattern = some range) :
    ∃ alts, replaceBraces pattern range = some alts ∧ ∀ alt ∈ alts, IsBmp alt := by
  have hbounds := findBraceRangeFrom_bounds (by simp) hrange
  rw [Nat.zero_add, ← h.unitLength] at hbounds
  obtain ⟨before, hbefore, hbeforeBmp⟩ := h.exists_slice (Nat.zero_le range.1) (by omega)
  obtain ⟨inner, hinner, hinnerBmp⟩ := h.exists_slice (i := range.1 + 1) (j := range.2) (by omega) (by omega)
  obtain ⟨after, hafter, hafterBmp⟩ :=
    h.exists_slice (i := range.2 + 1) (j := unitLength pattern) (by omega) (Nat.le_refl _)
  obtain ⟨alts, halts, haltsBmp⟩ := @exists_splitBraceAltsFrom inner hinnerBmp 0 0 0 inner.toList
    (Nat.le_refl 0) (by rw [Nat.zero_add, hinnerBmp.unitLength])
  refine ⟨alts.map fun alt => before ++ alt ++ after, ?_, fun other hother => ?_⟩
  · simp only [replaceBraces, hbefore, hinner, hafter, splitBraceAlts, halts, Option.bind_eq_bind,
      Option.bind_some]
    rfl
  · obtain ⟨alt, halt, rfl⟩ := List.mem_map.mp hother
    exact (hbeforeBmp.append (haltsBmp alt halt)).append hafterBmp

/-- Every pattern without pairs is expanded, to patterns in which no braces are found. -/
theorem exists_expandBraces {pattern : String} (h : IsBmp pattern) :
    ∃ patterns, expandBraces pattern = some patterns ∧
      ∀ other ∈ patterns, IsBmp other ∧ findBraceRange other = none := by
  induction hn : unitLength pattern using Nat.strongRecOn generalizing pattern with
  | ind n ih =>
      cases hrange : findBraceRange pattern with
      | none => exact ⟨[pattern], expandBraces_of_none hrange, by simp [h, hrange]⟩
      | some range =>
          obtain ⟨alts, halts, haltsBmp⟩ := exists_replaceBraces h hrange
          have hall : ∀ alt ∈ alts, ∃ patterns, expandBraces alt = some patterns ∧
              ∀ other ∈ patterns, IsBmp other ∧ findBraceRange other = none := fun alt halt =>
            ih _ (hn ▸ unitLength_replaceBraces halts alt halt) (haltsBmp alt halt) rfl
          refine ⟨alts.flatMap fun alt => (expandBraces alt).getD [],
            expandBraces_of_some hrange halts fun alt halt => ?_, fun other hother => ?_⟩
          · obtain ⟨patterns, hpatterns, -⟩ := hall alt halt
            rw [hpatterns, Option.getD_some]
          · obtain ⟨alt, halt, hother⟩ := List.mem_flatMap.mp hother
            obtain ⟨patterns, hpatterns, hspec⟩ := hall alt halt
            rw [hpatterns, Option.getD_some] at hother
            exact hspec other hother

/-! ## Expressions with alternatives -/

/-- An expression with alternatives in braces. -/
inductive Braces where
  | empty
  | char (c : Char)
  | both (first second : Braces)
  | either (first second : Braces)
  | group (alternatives : Braces)

namespace Braces

def text : Braces → List Char
  | empty => []
  | char c => [c]
  | both first second => first.text ++ second.text
  | either first second => first.text ++ ',' :: second.text
  | group alternatives => '{' :: alternatives.text ++ ['}']

/-- What the expression stands for, in order: of each group one alternative is taken, in all ways.
-/
def choices : Braces → List (List Char)
  | empty => [[]]
  | char c => [[c]]
  | both first second => first.choices.flatMap fun start => second.choices.map (start ++ ·)
  | either first second => first.choices ++ second.choices
  | group alternatives => alternatives.choices

/-- It is written as it is meant: alternatives stand in braces only, and braces, and commas between
braces, are not characters. -/
def Proper (inside alternatives : Bool) : Braces → Prop
  | empty => True
  | char c => c ≠ '{' ∧ c ≠ '}' ∧ (inside = true → c ≠ ',')
  | both first second => first.Proper inside false ∧ second.Proper inside false
  | either first second => alternatives = true ∧ first.Proper inside true ∧ second.Proper inside true
  | group alternatives => alternatives.Proper true true

/-- How many braces it has. Each turn of the code replaces one group, and the number of those that
are left falls in every text that comes of it. -/
def groups : Braces → Nat
  | empty | char _ => 0
  | both first second | either first second => first.groups + second.groups
  | group alternatives => alternatives.groups + 1

variable {e first second : Braces} {inside alternatives : Bool} {rest : List Char} {i : Nat}

theorem Proper.mono (h : e.Proper true false) : e.Proper false false := by
  induction e with
  | empty => trivial
  | char c => exact ⟨h.1, h.2.1, nofun⟩
  | both first second ihFirst ihSecond => exact ⟨ihFirst h.1, ihSecond h.2⟩
  | either first second => exact absurd h.1 Bool.false_ne_true
  | group alternatives => exact h

theorem text_append_group : (group e).text ++ rest = '{' :: (e.text ++ '}' :: rest) := by
  simp only [text, List.cons_append, List.append_assoc, List.nil_append]

/-! ## The braces that are found -/

theorem findBraceRangeFrom_char {c : Char} (hopen : c ≠ '{') (hclose : c ≠ '}') (depth : Int)
    (start : Option Nat) :
    findBraceRangeFrom i depth start (c :: rest) = findBraceRangeFrom (i + 1) depth start rest := by
  rw [findBraceRangeFrom, if_neg hopen, if_neg hclose]

/-- What has no braces is passed. -/
theorem findBraceRangeFrom_plain {before : List Char} (h : ∀ c ∈ before, c ≠ '{' ∧ c ≠ '}')
    (depth : Int) (start : Option Nat) :
    findBraceRangeFrom i depth start (before ++ rest) =
      findBraceRangeFrom (i + before.length) depth start rest := by
  induction before generalizing i with
  | nil => rfl
  | cons c before ih =>
      obtain ⟨hopen, hclose⟩ := h c List.mem_cons_self
      rw [List.cons_append, findBraceRangeFrom_char hopen hclose,
        ih fun d hd => h d (List.mem_cons_of_mem c hd), List.length_cons]
      congr 1
      omega

/-- Inside braces an expression is passed. -/
theorem findBraceRangeFrom_text (h : e.Proper inside alternatives) {depth : Int} (hdepth : 0 < depth)
    (start : Nat) :
    findBraceRangeFrom i depth (some start) (e.text ++ rest) =
      findBraceRangeFrom (i + e.text.length) depth (some start) rest := by
  induction e generalizing i depth rest inside alternatives with
  | empty => rfl
  | char c => exact findBraceRangeFrom_char h.1 h.2.1 depth (some start)
  | both first second ihFirst ihSecond =>
      rw [text, List.append_assoc, ihFirst h.1 hdepth, ihSecond h.2 hdepth, List.length_append,
        Nat.add_assoc]
  | either first second ihFirst ihSecond =>
      rw [text, List.append_assoc, ihFirst h.2.1 hdepth, List.cons_append,
        findBraceRangeFrom_char (by decide) (by decide), ihSecond h.2.2 hdepth]
      congr 1
      simp only [List.length_append, List.length_cons]
      omega
  | group e ih =>
      have hdepth' : depth ≠ 0 := by omega
      have hclose : depth + 1 - 1 ≠ 0 := by omega
      rw [text_append_group, findBraceRangeFrom, if_pos rfl, if_neg hdepth', ih h (by omega),
        findBraceRangeFrom, if_neg (by decide), if_pos rfl, if_neg hclose]
      dsimp only
      rw [Int.add_sub_cancel, text]
      congr 1
      simp only [List.length_append, List.length_cons, List.length_nil]
      omega

/-- The first braces at the top are found. -/
theorem findBraceRange_group {before : List Char} (h : ∀ c ∈ before, c ≠ '{' ∧ c ≠ '}')
    (he : e.Proper inside alternatives) :
    findBraceRange (String.ofList (before ++ (group e).text ++ rest)) =
      some (before.length, before.length + 1 + e.text.length) := by
  rw [findBraceRange, String.toList_ofList, List.append_assoc, findBraceRangeFrom_plain h,
    Nat.zero_add, text_append_group, findBraceRangeFrom, if_pos rfl, if_pos rfl,
    findBraceRangeFrom_text he (by omega), findBraceRangeFrom, if_neg (by decide), if_pos rfl]
  rfl

theorem findBraceRange_none {before : List Char} (h : ∀ c ∈ before, c ≠ '{' ∧ c ≠ '}') :
    findBraceRange (String.ofList before) = none := by
  have hplain := @findBraceRangeFrom_plain [] 0 before h 0 none
  rw [List.append_nil] at hplain
  rw [findBraceRange, String.toList_ofList, hplain]
  rfl

/-! ## The alternatives that are split -/

variable {inner : String} {start : Nat}

theorem splitBraceAltsFrom_char {c : Char} {depth : Int} (hopen : c ≠ '{') (hclose : c ≠ '}')
    (hcomma : ¬ (c = ',' ∧ depth = 0)) :
    splitBraceAltsFrom inner i depth start (c :: rest) =
      splitBraceAltsFrom inner (i + 1) depth start rest := by
  rw [splitBraceAltsFrom, if_neg hopen, if_neg hclose, if_neg hcomma]

/-- Inside braces an expression is passed, commas and all; outside of them it is if it has no
alternatives. -/
theorem splitBraceAltsFrom_text (h : e.Proper inside alternatives) {depth : Int} (hdepth : 0 ≤ depth)
    (hflat : depth = 0 → inside = true ∧ alternatives = false) :
    splitBraceAltsFrom inner i depth start (e.text ++ rest) =
      splitBraceAltsFrom inner (i + e.text.length) depth start rest := by
  induction e generalizing i depth rest inside alternatives with
  | empty => rfl
  | char c =>
      refine splitBraceAltsFrom_char h.1 h.2.1 ?_
      rintro ⟨hcomma, hzero⟩
      exact h.2.2 (hflat hzero).1 hcomma
  | both first second ihFirst ihSecond =>
      rw [text, List.append_assoc, ihFirst h.1 hdepth fun hzero => ⟨(hflat hzero).1, rfl⟩,
        ihSecond h.2 hdepth fun hzero => ⟨(hflat hzero).1, rfl⟩, List.length_append, Nat.add_assoc]
  | either first second ihFirst ihSecond =>
      have hdeep : depth ≠ 0 := fun hzero =>
        absurd ((hflat hzero).2.symm.trans h.1) Bool.false_ne_true
      rw [text, List.append_assoc, ihFirst h.2.1 hdepth fun hzero => absurd hzero hdeep,
        List.cons_append, splitBraceAltsFrom_char (by decide) (by decide) fun hboth => hdeep hboth.2,
        ihSecond h.2.2 hdepth fun hzero => absurd hzero hdeep]
      congr 1
      simp only [List.length_append, List.length_cons]
      omega
  | group e ih =>
      have hdeep : depth + 1 ≠ 0 := by omega
      rw [text_append_group, splitBraceAltsFrom, if_pos rfl,
        ih h (by omega) fun hzero => absurd hzero hdeep, splitBraceAltsFrom, if_neg (by decide),
        if_pos rfl, Int.add_sub_cancel, text]
      congr 1
      simp only [List.length_append, List.length_cons, List.length_nil]
      omega

/-- The alternatives, each without alternatives of its own. -/
def options : Braces → List Braces
  | either first second => first.options ++ second.options
  | e => [e]

/-- The alternatives with commas between them. -/
def optionsText : List Braces → List Char
  | [] => []
  | [option] => option.text
  | option :: others => option.text ++ ',' :: optionsText others

theorem options_ne_nil (e : Braces) : e.options ≠ [] := by
  induction e with
  | either first second ihFirst _ => exact List.append_ne_nil_of_left_ne_nil ihFirst _
  | empty => exact List.cons_ne_nil _ _
  | char c => exact List.cons_ne_nil _ _
  | both first second => exact List.cons_ne_nil _ _
  | group e => exact List.cons_ne_nil _ _

theorem optionsText_append {l l' : List Braces} (h : l ≠ []) (h' : l' ≠ []) :
    optionsText (l ++ l') = optionsText l ++ ',' :: optionsText l' := by
  induction l with
  | nil => exact absurd rfl h
  | cons option l ih =>
      cases l with
      | nil =>
          obtain ⟨other, others, rfl⟩ := List.exists_cons_of_ne_nil h'
          rfl
      | cons next l =>
          have hrest := ih (List.cons_ne_nil _ _)
          rw [List.cons_append] at hrest
          simp only [List.cons_append, optionsText, hrest, List.append_assoc]

theorem text_eq_optionsText (e : Braces) : e.text = optionsText e.options := by
  induction e with
  | either first second ihFirst ihSecond =>
      rw [text, options, optionsText_append first.options_ne_nil second.options_ne_nil, ← ihFirst,
        ← ihSecond]
  | empty => rfl
  | char c => rfl
  | both first second => rfl
  | group e => rfl

theorem choices_eq_flatMap (e : Braces) : e.choices = e.options.flatMap choices := by
  induction e with
  | either first second ihFirst ihSecond =>
      rw [choices, options, List.flatMap_append, ← ihFirst, ← ihSecond]
  | empty => exact (List.flatMap_singleton ..).symm
  | char c => exact (List.flatMap_singleton ..).symm
  | both first second => exact (List.flatMap_singleton ..).symm
  | group e => exact (List.flatMap_singleton ..).symm

theorem proper_of_mem_options (h : e.Proper true alternatives) :
    ∀ option ∈ e.options, option.Proper true false ∧ option.groups ≤ e.groups := by
  induction e generalizing alternatives with
  | either first second ihFirst ihSecond =>
      intro option hoption
      rcases List.mem_append.mp hoption with hoption | hoption
      · obtain ⟨hproper, hgroups⟩ := ihFirst h.2.1 option hoption
        exact ⟨hproper, by rw [groups]; omega⟩
      · obtain ⟨hproper, hgroups⟩ := ihSecond h.2.2 option hoption
        exact ⟨hproper, by rw [groups]; omega⟩
  | empty =>
      intro option hoption
      rw [List.mem_singleton.mp hoption]
      exact ⟨trivial, Nat.le_refl _⟩
  | char c =>
      intro option hoption
      rw [List.mem_singleton.mp hoption]
      exact ⟨h, Nat.le_refl _⟩
  | both first second =>
      intro option hoption
      rw [List.mem_singleton.mp hoption]
      exact ⟨h, Nat.le_refl _⟩
  | group e =>
      intro option hoption
      rw [List.mem_singleton.mp hoption]
      exact ⟨h, Nat.le_refl _⟩

theorem text_subset_of_mem_options : ∀ option ∈ e.options, option.text ⊆ e.text := by
  have hself (e : Braces) : ∀ option ∈ [e], option.text ⊆ e.text := by
    intro option hoption
    rw [List.mem_singleton.mp hoption]
    exact List.Subset.refl _
  induction e with
  | either first second ihFirst ihSecond =>
      intro option hoption
      rcases List.mem_append.mp hoption with hoption | hoption
      · exact fun c hc => List.mem_append_left _ (ihFirst option hoption hc)
      · exact fun c hc => List.mem_append_right _ (List.mem_cons_of_mem _ (ihSecond option hoption hc))
  | empty => exact hself _
  | char c => exact hself _
  | both first second => exact hself _
  | group e => exact hself _

/-- The alternatives are split where they are meant to be. -/
theorem splitBraceAltsFrom_options (hbmp : IsBmp inner) {l : List Braces} (hne : l ≠ [])
    (hl : ∀ option ∈ l, option.Proper true false) {before : List Char}
    (hinner : inner.toList = before ++ optionsText l) :
    splitBraceAltsFrom inner before.length 0 before.length (optionsText l) =
      some (l.map fun option => String.ofList option.text) := by
  induction l generalizing before with
  | nil => exact absurd rfl hne
  | cons option l ih =>
      have hoption := hl option List.mem_cons_self
      have hskip (rest : List Char) := @splitBraceAltsFrom_text option true false rest before.length
        inner before.length hoption 0 (Int.le_refl 0) fun _ => ⟨rfl, rfl⟩
      cases l with
      | nil =>
          have hlast := hskip []
          rw [List.append_nil] at hlast
          rw [optionsText, hlast, splitBraceAltsFrom, slice_end hbmp hinner]
          rfl
      | cons next l =>
          have hcons : inner.toList = before ++ option.text ++ ',' :: optionsText (next :: l) := by
            rw [hinner, List.append_assoc]
            rfl
          have hsplit : inner.toList = (before ++ option.text ++ [',']) ++ optionsText (next :: l) := by
            rw [hcons]
            simp
          have hrest := ih (List.cons_ne_nil _ _)
            (fun other hother => hl other (List.mem_cons_of_mem _ hother)) hsplit
          have hlength : (before ++ option.text ++ [',']).length =
              before.length + option.text.length + 1 := by
            simp only [List.length_append, List.length_cons, List.length_nil]
          rw [hlength] at hrest
          have htext : optionsText (option :: next :: l) =
              option.text ++ ',' :: optionsText (next :: l) := rfl
          rw [htext, hskip, splitBraceAltsFrom, if_neg (by decide), if_neg (by decide),
            if_pos ⟨rfl, rfl⟩, slice_between hbmp hcons, hrest]
          rfl

/-- The braces are replaced by each of the alternatives. -/
theorem replaceBraces_group {pattern : String} {before after : List Char} (hbmp : IsBmp pattern)
    (he : e.Proper true true) (hpattern : pattern.toList = before ++ (group e).text ++ after) :
    replaceBraces pattern (before.length, before.length + 1 + e.text.length) =
      some (e.options.map fun option => String.ofList (before ++ option.text ++ after)) := by
  have hlist (chars : List Char) : chars ⊆ pattern.toList → IsBmp (String.ofList chars) :=
    fun hsubset => hbmp.of_subset (by rwa [String.toList_ofList])
  have hinnerBmp : IsBmp (String.ofList e.text) := by
    refine hlist _ fun c hc => ?_
    rw [hpattern, text]
    simp [hc]
  have hbefore : slice pattern 0 before.length = some (String.ofList before) := by
    have hslice := @slice_between pattern [] before ((group e).text ++ after) hbmp
      (by rw [hpattern, List.nil_append, List.append_assoc])
    rwa [List.length_nil, Nat.zero_add] at hslice
  have hinner : slice pattern (before.length + 1) (before.length + 1 + e.text.length) =
      some (String.ofList e.text) := by
    have hslice := @slice_between pattern (before ++ ['{']) e.text ('}' :: after) hbmp
      (by rw [hpattern, text]; simp)
    rwa [List.length_append, List.length_singleton] at hslice
  have hafter : slice pattern (before.length + 1 + e.text.length + 1) (unitLength pattern) =
      some (String.ofList after) := by
    have hslice := @slice_end pattern (before ++ (group e).text) after hbmp hpattern
    have hlength : (before ++ (group e).text).length = before.length + 1 + e.text.length + 1 := by
      rw [text]
      simp only [List.length_append, List.length_cons, List.length_nil]
      omega
    rwa [hlength] at hslice
  have halts : splitBraceAlts (String.ofList e.text) =
      some (e.options.map fun option => String.ofList option.text) := by
    have hoptions := @splitBraceAltsFrom_options (String.ofList e.text) hinnerBmp e.options
      e.options_ne_nil (fun option hoption => (proper_of_mem_options he option hoption).1) []
      (by rw [String.toList_ofList, text_eq_optionsText]; rfl)
    rw [splitBraceAlts, String.toList_ofList, text_eq_optionsText]
    rwa [text_eq_optionsText] at hoptions
  have hmap : (e.options.map fun option => String.ofList option.text).map
        (fun alt => String.ofList before ++ alt ++ String.ofList after) =
      e.options.map fun option => String.ofList (before ++ option.text ++ after) := by
    rw [List.map_map]
    refine List.map_congr_left fun option _ => ?_
    show String.ofList before ++ String.ofList option.text ++ String.ofList after = _
    rw [← String.ofList_append, ← String.ofList_append]
  simp only [replaceBraces, hbefore, hinner, hafter, halts, Option.bind_eq_bind, Option.bind_some, hmap]
  rfl

/-! ## One pair of braces after the other -/

/-- What has no braces stands for itself. -/
theorem choices_of_groups (h : e.Proper inside false) (hgroups : e.groups = 0) :
    (∀ c ∈ e.text, c ≠ '{' ∧ c ≠ '}') ∧ e.choices = [e.text] := by
  induction e with
  | empty => exact ⟨by simp [text], rfl⟩
  | char c =>
      refine ⟨fun d hd => ?_, rfl⟩
      rw [List.mem_singleton.mp hd]
      exact ⟨h.1, h.2.1⟩
  | both first second ihFirst ihSecond =>
      rw [groups] at hgroups
      obtain ⟨hplain, hchoices⟩ := ihFirst h.1 (by omega)
      obtain ⟨hplain', hchoices'⟩ := ihSecond h.2 (by omega)
      refine ⟨fun c hc => (List.mem_append.mp hc).elim (hplain c) (hplain' c), ?_⟩
      rw [choices, hchoices, hchoices']
      rfl
  | either first second => exact absurd h.1 Bool.false_ne_true
  | group e => exact absurd hgroups (Nat.succ_ne_zero _)

/-- The first braces of an expression, what is before them and what is after them. -/
theorem exists_group (h : e.Proper false false) (hgroups : e.groups ≠ 0) :
    ∃ (before : List Char) (mid after : Braces), e.text = before ++ (group mid).text ++ after.text ∧
      (∀ c ∈ before, c ≠ '{' ∧ c ≠ '}') ∧ mid.Proper true true ∧ after.Proper false false ∧
      mid.groups + after.groups < e.groups ∧
      e.choices = mid.choices.flatMap fun choice => after.choices.map (before ++ choice ++ ·) := by
  induction e with
  | empty => exact absurd rfl hgroups
  | char c => exact absurd rfl hgroups
  | both first second ihFirst ihSecond =>
      rw [groups] at hgroups
      by_cases hfirst : first.groups = 0
      · obtain ⟨hplain, hchoices⟩ := choices_of_groups h.1 hfirst
        obtain ⟨before, mid, after, htext, hbefore, hmid, hafter, hless, hall⟩ :=
          ihSecond h.2 (by omega)
        refine ⟨first.text ++ before, mid, after, ?_, ?_, hmid, hafter, ?_, ?_⟩
        · rw [text, htext]
          simp only [List.append_assoc]
        · exact fun c hc => (List.mem_append.mp hc).elim (hplain c) (hbefore c)
        · rw [groups, hfirst]
          omega
        · rw [choices, hchoices, hall, List.flatMap_singleton, List.map_flatMap]
          simp only [List.map_map, Function.comp_def, List.append_assoc]
      · obtain ⟨before, mid, after, htext, hbefore, hmid, hafter, hless, hall⟩ := ihFirst h.1 hfirst
        refine ⟨before, mid, both after second, ?_, hbefore, hmid, ⟨hafter, h.2⟩, ?_, ?_⟩
        · rw [text, text, htext]
          simp only [List.append_assoc]
        · rw [groups, groups]
          omega
        · rw [choices, hall, List.flatMap_assoc]
          refine List.flatMap_congr fun choice _ => ?_
          rw [choices, List.flatMap_map, List.map_flatMap]
          refine List.flatMap_congr fun start _ => ?_
          rw [List.map_map]
          simp only [Function.comp_def, List.append_assoc]
  | either first second => exact absurd h.1 Bool.false_ne_true
  | group e =>
      refine ⟨[], e, empty, ?_, by simp, h, trivial, ?_, ?_⟩
      · simp [text]
      · rw [groups, groups]
        omega
      · simp [choices]

/-- A text without braces, as an expression. -/
def ofChars : List Char → Braces
  | [] => empty
  | c :: chars => both (char c) (ofChars chars)

theorem ofChars_spec {chars : List Char} (h : ∀ c ∈ chars, c ≠ '{' ∧ c ≠ '}') :
    (ofChars chars).text = chars ∧ (ofChars chars).Proper false false ∧ (ofChars chars).groups = 0 := by
  induction chars with
  | nil => exact ⟨rfl, trivial, rfl⟩
  | cons c chars ih =>
      obtain ⟨htext, hproper, hgroups⟩ := ih fun d hd => h d (List.mem_cons_of_mem c hd)
      obtain ⟨hopen, hclose⟩ := h c List.mem_cons_self
      exact ⟨congrArg (c :: ·) htext, ⟨⟨hopen, hclose, nofun⟩, hproper⟩, by rw [ofChars, groups, hgroups]; rfl⟩

/-- Expanding gives all that the expression stands for, in order. -/
theorem expandBraces_text (h : e.Proper false false) (hbmp : IsBmp (String.ofList e.text)) :
    expandBraces (String.ofList e.text) = some (e.choices.map String.ofList) := by
  induction hn : e.groups using Nat.strongRecOn generalizing e with
  | ind n ih =>
      by_cases hgroups : e.groups = 0
      · obtain ⟨hplain, hchoices⟩ := choices_of_groups h hgroups
        rw [expandBraces_of_none (findBraceRange_none hplain), hchoices]
        rfl
      · obtain ⟨before, mid, after, htext, hbefore, hmid, hafter, hless, hall⟩ := exists_group h hgroups
        obtain ⟨hbeforeText, hbeforeProper, hbeforeGroups⟩ := ofChars_spec hbefore
        have hpattern : (String.ofList e.text).toList = before ++ (group mid).text ++ after.text := by
          rw [String.toList_ofList, htext]
        have hrange : findBraceRange (String.ofList e.text) =
            some (before.length, before.length + 1 + mid.text.length) := by
          rw [htext]
          exact findBraceRange_group hbefore hmid
        have hreplace := replaceBraces_group hbmp hmid hpattern
        -- each alternative is an expression with fewer braces
        let other (option : Braces) : Braces := both (both (ofChars before) option) after
        have hother (option : Braces) : (other option).text = before ++ option.text ++ after.text := by
          simp only [other, text, hbeforeText]
        have hexpand : ∀ option ∈ mid.options, expandBraces (String.ofList (other option).text) =
            some ((other option).choices.map String.ofList) := by
          intro option hoption
          obtain ⟨hproper, hle⟩ := proper_of_mem_options hmid option hoption
          have hfewer : (other option).groups < n := by
            simp only [other, groups]
            omega
          refine ih _ hfewer ⟨⟨hbeforeProper, hproper.mono⟩, hafter⟩ ?_ rfl
          have hsubset := text_subset_of_mem_options option hoption
          refine hbmp.of_subset fun c hc => ?_
          rw [String.toList_ofList, hother] at hc
          rw [hpattern, text]
          simp only [List.mem_append, List.mem_cons] at hc ⊢
          rcases hc with (hc | hc) | hc
          · exact .inl (.inl hc)
          · exact .inl (.inr (.inl (.inr (hsubset hc))))
          · exact .inr hc
        have hall' : e.choices.map String.ofList =
            (mid.options.map fun option => String.ofList (before ++ option.text ++ after.text)).flatMap
              fun alt => (expandBraces alt).getD [] := by
          rw [hall, choices_eq_flatMap mid, List.flatMap_map, List.flatMap_assoc, List.map_flatMap]
          refine List.flatMap_congr fun option hoption => ?_
          rw [← hother, hexpand option hoption, Option.getD_some]
          congr 1
          simp only [other, choices, (choices_of_groups hbeforeProper hbeforeGroups).2, hbeforeText,
            List.flatMap_singleton, List.flatMap_map]
        rw [hall']
        refine expandBraces_of_some hrange hreplace fun alt halt => ?_
        obtain ⟨option, hoption, rfl⟩ := List.mem_map.mp halt
        rw [← hother, hexpand option hoption, Option.getD_some]

end Braces

end Mulp.GlobWatch
