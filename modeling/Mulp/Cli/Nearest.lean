import Mulp.Cli.Ancestors

/-! The nearest configuration above a directory (`cli/discovery.mbt`).

The documents are files in memory, by their paths as texts. The nearest one is that in
the first of the directories above which has one, and in a directory the kinds of
documents have an order. -/
namespace Mulp.Cli

open Mulp.Core Mulp.Text

/-! ## The nearest document -/

/-- The path of a directory; the root's is empty. -/
def dirText : List String → String
  | [] => ""
  | name :: above => dirText above ++ "/" ++ name

def NormalPath (path : String) : Prop := ∃ dir : List String, (∀ name ∈ dir, IsName name) ∧ path = dirText dir

/-- The configuration that the files have in a directory. -/
def documentIn (files : List (String × String)) (dir : List String) : Option ConfigDocument :=
  findFile (dirText (defaultConfigFileName :: dir)) files

/-- The configuration of the deepest ancestor that has one. -/
def nearestDocument (files : List (String × String)) (cwd : String) : Option ConfigDocument :=
  (ancestors cwd).findSome? (documentIn files)

/-- `discover_config` gives the nearest document, and an error if there is none. Where a slice
aborts it gives neither, and this does not hold. -/
def FindsNearest (files : List (String × String)) (cwd : String) : Prop :=
  match nearestDocument files cwd with
  | some document => discoverConfig cwd files = some (.ok document)
  | none => ∃ err, discoverConfig cwd files = some (.error err)

/-- The path up to a name is spelled with single slashes. -/
def Plain (lead : Nat) (part : Part) (above : List Part) : Prop :=
  spell lead (⟨part.name, 0⟩ :: above) = dirText ((part :: above).map Part.name)

/-- The search climbs from a path to the nearest document, or to the root if there
is none. -/
inductive Climbs (files : List (String × String)) (lead : Nat) : List Part → Prop where
  | root : (documentIn files [] = none ∨ lead = 1 ∨ lead % 2 = 0) → Climbs files lead []
  | here {part : Part} {above : List Part} :
      (documentIn files ((part :: above).map Part.name)).isSome = true → Plain lead part above →
      part.slashes = 0 ∨ part.slashes % 2 = 1 → Climbs files lead (part :: above)
  | above {part : Part} {above : List Part} :
      documentIn files ((part :: above).map Part.name) = none →
      IsBmp part.name → Climbs files lead above → Climbs files lead (part :: above)

/-! ## Normal paths -/

section Normal

variable {files : List (String × String)} {dir : List String} {path : String}

theorem count_dirText (h : ∀ name ∈ dir, IsName name) :
    (splitSlash (dirText dir)).count "" = 1 := by
  induction dir with
  | nil => rfl
  | cons name above ih =>
      rw [List.forall_mem_cons] at h
      rw [dirText, splitSlash_append, splitSlash_eq_singleton h.1.noSlash,
        List.count_append, ih h.2, List.count_singleton, if_neg (by simpa using h.1.ne_empty)]

theorem names_dirText (hslash : ∀ name ∈ dir, NoSlash name) (hne : ∀ name ∈ dir, name ≠ "") :
    names (dirText dir) = dir := by
  induction dir with
  | nil => rfl
  | cons name above ih =>
      rw [List.forall_mem_cons] at hslash hne
      rw [dirText, names_append, names_name hslash.1 hne.1, ih hslash.2 hne.2]
      rfl

/-- There are no two slashes in a row in a normal path. -/
theorem not_normalPath (start rest : String) :
    ¬ NormalPath ("/" ++ start ++ "/" ++ "/" ++ rest) := by
  rintro ⟨dir, hdir, hpath⟩
  have hcount := count_dirText hdir
  have hstart : splitSlash ("/" ++ start ++ "/") = "" :: splitSlash start ++ [""] := by
    rw [splitSlash_trailing, splitSlash_slash]
  rw [← hpath, splitSlash_append, hstart, List.count_append, List.count_append,
    List.count_cons_self, List.count_singleton_self] at hcount
  omega

theorem normalPath_of_findFile (hfiles : ∀ file ∈ files, NormalPath file.1)
    {document : ConfigDocument} (h : findFile path files = some document) : NormalPath path := by
  obtain ⟨file, hfile, -⟩ := Option.map_eq_some_iff.mp h
  have heq : file.1 = path := by simpa using List.find?_some hfile
  exact heq ▸ hfiles file (List.mem_of_find?_eq_some hfile)

theorem findFile_eq_none (hfiles : ∀ file ∈ files, NormalPath file.1) (h : ¬ NormalPath path) :
    findFile path files = none := by
  rw [Option.eq_none_iff_forall_ne_some]
  intro document hdocument
  exact h (normalPath_of_findFile hfiles hdocument)

end Normal

/-! ## The search among files -/

section Search

variable {files : List (String × String)} {lead : Nat} {above : List Part} {part : Part}

theorem exists_spell (hlead : 0 < lead) (parts : List Part) :
    ∃ rest, spell lead parts = "/" ++ rest := by
  induction parts with
  | nil =>
      obtain ⟨n, rfl⟩ := Nat.exists_eq_succ_of_ne_zero (Nat.ne_of_gt hlead)
      refine ⟨slashes n, ?_⟩
      rw [spell, slashes, List.replicate_succ, String.ofList_cons]
      rfl
  | cons part above ih =>
      obtain ⟨rest, hrest⟩ := ih
      exact ⟨rest ++ part.name ++ slashes part.slashes, by simp only [spell, hrest, String.append_assoc]⟩

theorem spell_ne_root (hlead : 0 < lead) (hne : part.name ≠ "") :
    spell lead (part :: above) ≠ "/" := by
  obtain ⟨rest, hrest⟩ := exists_spell hlead above
  intro heq
  have hlength := congrArg String.length heq
  have hslash : "/".length = 1 := rfl
  rw [spell, hrest, String.length_append, String.length_append, String.length_append,
    hslash] at hlength
  exact hne (String.length_eq_zero_iff.mp (by omega))

theorem candidateIn_spell (hlead : 0 < lead) (hne : part.name ≠ "") (n : Nat) (file : String) :
    candidateIn (spell lead (⟨part.name, n⟩ :: above)) file =
      spell lead (⟨part.name, n⟩ :: above) ++ "/" ++ file :=
  if_neg (@spell_ne_root lead above ⟨part.name, n⟩ hlead hne)

theorem misses_root (hfiles : ∀ file ∈ files, NormalPath file.1) (k : Nat) (name : String) :
    findFile (candidateIn (slashes (k + 2)) name) files = none := by
  refine findFile_eq_none hfiles ?_
  have hroot : slashes (k + 2) ≠ "/" := by
    rw [slashes_succ]
    simpa using append_slash_ne_root (slashes_ne_empty (Nat.succ_pos k)) ""
  obtain ⟨rest, hrest⟩ := @exists_spell (k + 1) (Nat.succ_pos k) []
  have hslashes : slashes (k + 2) = "/" ++ rest ++ "/" := by rw [slashes_succ, ← hrest]; rfl
  rw [candidateIn, if_neg hroot, hslashes]
  exact not_normalPath rest name

theorem misses_name (hlead : 0 < lead) (hne : part.name ≠ "")
    (hfiles : ∀ file ∈ files, NormalPath file.1) (k : Nat) (name : String) :
    findFile (candidateIn (spell lead (⟨part.name, k + 1⟩ :: above)) name) files = none := by
  refine findFile_eq_none hfiles ?_
  obtain ⟨rest, hrest⟩ := exists_spell hlead (⟨part.name, k⟩ :: above)
  rw [candidateIn_spell hlead hne, spell_succ, hrest]
  exact not_normalPath rest name

/-- What is found below the last name of a path is found in its directory. -/
theorem findFile_plain (hlead : 0 < lead) (hne : part.name ≠ "") (h : Plain lead part above) :
    findFile (candidateIn (spell lead (⟨part.name, 0⟩ :: above)) defaultConfigFileName) files =
      documentIn files ((part :: above).map Part.name) := by
  rw [candidateIn_spell hlead hne, h]
  rfl

theorem findFile_not_plain (hlead : 0 < lead) (hfiles : ∀ file ∈ files, NormalPath file.1)
    (hslash : ∀ other ∈ part :: above, NoSlash other.name)
    (hne : ∀ other ∈ part :: above, other.name ≠ "") (hbetween : ∀ other ∈ above, 0 < other.slashes)
    (h : ¬ Plain lead part above) :
    findFile (candidateIn (spell lead (⟨part.name, 0⟩ :: above)) defaultConfigFileName) files =
      none := by
  refine findFile_eq_none hfiles fun ⟨dir, hdir, hpath⟩ => h ?_
  have hnames := names_dirText (fun name hmem => (hdir name hmem).noSlash)
    fun name hmem => (hdir name hmem).ne_empty
  rw [List.forall_mem_cons] at hslash hne
  rw [candidateIn_spell hlead hne.1] at hpath
  rw [← hpath, names_append, names_name (by decide) (by decide),
    @names_above lead above ⟨part.name, 0⟩ hlead hbetween hslash.1 hne.1,
    names_spell hlead hslash.2 hne.2 fun other hmem => hbetween other (List.mem_of_mem_tail hmem)] at hnames
  have hfull : dirText dir =
      dirText ((part :: above).map Part.name) ++ "/" ++ defaultConfigFileName := by
    rw [← hnames]
    rfl
  exact (String.append_left_inj _).mp ((String.append_left_inj _).mp (hpath.trans hfull))

/-- The search among files, from where it comes to on its way up. -/
def searchFiles (files : List (String × String)) (lead : Nat) (parts : List Part) :
    Option (Option ConfigDocument) :=
  searchUp (fun _ candidate => findFile candidate files) defaultConfigFileName (enter lead parts)

theorem searchFiles_root (hfiles : ∀ file ∈ files, NormalPath file.1) (hlead : 0 < lead) :
    searchFiles files lead [] =
      some (if lead = 1 ∨ lead % 2 = 0 then documentIn files [] else none) := by
  have hslashes : enter lead [] = slashes (max 1 (lead - 1) - 1 + 1) := by
    rw [enter]
    congr 1
    omega
  have hparity : (max 1 (lead - 1) - 1) % 2 = 0 ↔ lead = 1 ∨ lead % 2 = 0 := by omega
  rw [searchFiles, hslashes, searchUp_root fun k => misses_root hfiles k _]
  exact congrArg some (if_congr hparity rfl rfl)

/-- A search that goes past a name, or finds the document below it. -/
theorem searchFiles_name (hfiles : ∀ file ∈ files, NormalPath file.1) (hlead : 0 < lead)
    (hslash : NoSlash part.name) (hne : part.name ≠ "")
    (habove : ∀ other ∈ above, 0 < other.slashes) :
    searchFiles files lead (part :: above) =
      ((if (part.slashes - 1) % 2 = 0 then
        findFile (candidateIn (spell lead (⟨part.name, 0⟩ :: above)) defaultConfigFileName) files
        else none).map some).or
      (if ∀ c ∈ part.name.toList, c.toNat ≤ 0xFFFF then searchFiles files lead above else none) :=
  @searchUp_name _ (fun _ candidate => findFile candidate files) defaultConfigFileName part.name lead above
    hlead hslash hne habove (fun k => misses_name hlead hne hfiles k _) _

theorem path_of_findFile {path : String} {document : ConfigDocument}
    (h : findFile path files = some document) :
    document.path = path := by
  obtain ⟨file, hfile, rfl⟩ := Option.map_eq_some_iff.mp h
  simpa using List.find?_some hfile

/-- What is found is in an ancestor. -/
theorem length_names_searchFiles (hfiles : ∀ file ∈ files, NormalPath file.1) (hlead : 0 < lead)
    {parts : List Part} (hslash : ∀ part ∈ parts, NoSlash part.name)
    (hne : ∀ part ∈ parts, part.name ≠ "") (hbetween : ∀ part ∈ parts.tail, 0 < part.slashes)
    {document : ConfigDocument}
    (h : searchFiles files lead parts = some (some document)) :
    (names document.path).length ≤ parts.length + 1 := by
  induction parts with
  | nil =>
      rw [searchFiles_root hfiles hlead, Option.some.injEq] at h
      split_ifs at h with hlead
      have hnames : names (dirText [defaultConfigFileName]) = [defaultConfigFileName] := by decide
      rw [path_of_findFile h, hnames]
      exact Nat.le_refl 1
  | cons part above ih =>
      rw [List.forall_mem_cons] at hslash hne
      have habove : ∀ other ∈ above, 0 < other.slashes := hbetween
      rw [searchFiles_name hfiles hlead hslash.1 hne.1 habove, Option.or_eq_some_iff] at h
      -- found here, or farther up and then shorter
      rcases h with h | ⟨-, h⟩
      · obtain ⟨found, hfound, heq⟩ := Option.map_eq_some_iff.mp h
        cases heq
        split_ifs at hfound with hparity
        rw [path_of_findFile hfound, candidateIn_spell hlead hne.1, names_append,
          @names_above lead above ⟨part.name, 0⟩ hlead habove hslash.1 hne.1,
          names_spell hlead hslash.2 hne.2 fun other hmem => habove other (List.mem_of_mem_tail hmem),
          names_name (by decide) (by decide)]
        simp
      · split_ifs at h with hbmp
        have hlength := ih hslash.2 hne.2
          (fun other hmem => habove other (List.mem_of_mem_tail hmem)) h
        rw [List.length_cons]
        omega

/-- What is found with a name's directory, if the path is spelled so. -/
theorem findFile_level (hlead : 0 < lead) (hfiles : ∀ file ∈ files, NormalPath file.1)
    (hslash : ∀ other ∈ part :: above, NoSlash other.name)
    (hne : ∀ other ∈ part :: above, other.name ≠ "") (hbetween : ∀ other ∈ above, 0 < other.slashes)
    {document : ConfigDocument} :
    findFile (candidateIn (spell lead (⟨part.name, 0⟩ :: above)) defaultConfigFileName) files =
      some document ↔
      documentIn files ((part :: above).map Part.name) = some document ∧ Plain lead part above := by
  have hname := hne part List.mem_cons_self
  by_cases hplain : Plain lead part above
  · rw [findFile_plain hlead hname hplain, and_iff_left hplain]
  · rw [findFile_not_plain hlead hfiles hslash hne hbetween hplain]
    simp [hplain]

theorem climbs_name_of_none (h : documentIn files ((part :: above).map Part.name) = none) :
    Climbs files lead (part :: above) ↔ IsBmp part.name ∧ Climbs files lead above := by
  constructor
  · intro hclimbs
    cases hclimbs with
    | here hdocument _ _ =>
        rw [h] at hdocument
        cases hdocument
    | above _ hbmp habove => exact ⟨hbmp, habove⟩
  · rintro ⟨hbmp, habove⟩
    exact .above h hbmp habove

theorem climbs_name_of_some {document : ConfigDocument}
    (h : documentIn files ((part :: above).map Part.name) = some document) :
    Climbs files lead (part :: above) ↔ Plain lead part above ∧ (part.slashes - 1) % 2 = 0 := by
  have hparity : part.slashes = 0 ∨ part.slashes % 2 = 1 ↔ (part.slashes - 1) % 2 = 0 := by omega
  constructor
  · intro hclimbs
    cases hclimbs with
    | here _ hplain hslashes => exact ⟨hplain, hparity.mp hslashes⟩
    | above hnone _ _ =>
        rw [h] at hnone
        cases hnone
  · rintro ⟨hplain, hslashes⟩
    exact .here (by rw [h]; rfl) hplain (hparity.mpr hslashes)

/-- The search finds the nearest document exactly if it climbs to it. -/
theorem searchFiles_iff (hfiles : ∀ file ∈ files, NormalPath file.1) (hlead : 0 < lead)
    {parts : List Part} (hslash : ∀ part ∈ parts, NoSlash part.name)
    (hne : ∀ part ∈ parts, part.name ≠ "") (hbetween : ∀ part ∈ parts.tail, 0 < part.slashes) :
    searchFiles files lead parts = some ((parts.map Part.name).tails.findSome? (documentIn files)) ↔
      Climbs files lead parts := by
  induction parts with
  | nil =>
      have hroot : Climbs files lead [] ↔ (documentIn files [] = none ∨ lead = 1 ∨ lead % 2 = 0) :=
        ⟨fun h => by cases h; assumption, .root⟩
      have htails : (List.map Part.name []).tails.findSome? (documentIn files) =
          documentIn files [] := by
        simp
      rw [hroot, searchFiles_root hfiles hlead, htails, Option.some.injEq]
      by_cases hlead : lead = 1 ∨ lead % 2 = 0
      · simp [hlead]
      · rw [if_neg hlead, or_iff_left hlead, eq_comm]
  | cons part above ih =>
      have hlevel {document : ConfigDocument} :=
        @findFile_level files lead above part hlead hfiles hslash hne hbetween document
      rw [List.forall_mem_cons] at hslash hne
      have habove : ∀ other ∈ above, 0 < other.slashes := hbetween
      have habove' : ∀ other ∈ above.tail, 0 < other.slashes := fun other hmem =>
        habove other (List.mem_of_mem_tail hmem)
      rw [searchFiles_name hfiles hlead hslash.1 hne.1 habove, List.map_cons, List.tails_cons,
        List.findSome?_cons]
      cases hdocument : documentIn files ((part :: above).map Part.name) with
      | none =>
          have hnone : findFile
              (candidateIn (spell lead (⟨part.name, 0⟩ :: above)) defaultConfigFileName)
              files = none := by
            rw [Option.eq_none_iff_forall_ne_some]
            intro document hfound
            rw [hlevel, hdocument] at hfound
            cases hfound.1
          rw [climbs_name_of_none hdocument, ← ih hslash.2 hne.2 habove', hnone, ite_self,
            Option.map_none, Option.none_or]
          by_cases hbmp : ∀ c ∈ part.name.toList, c.toNat ≤ 0xFFFF
          · have hhere : documentIn files (part.name :: above.map Part.name) = none := hdocument
            rw [if_pos hbmp, and_iff_right (show IsBmp part.name from hbmp), hhere]
          · rw [if_neg hbmp]
            exact iff_of_false nofun fun h => hbmp h.1
      | some document =>
          rw [climbs_name_of_some hdocument]
          -- from farther up comes no document of this path
          have hfarther : (if ∀ c ∈ part.name.toList, c.toNat ≤ 0xFFFF then searchFiles files lead above
              else none) ≠ some (some document) := by
            intro h
            split_ifs at h with hbmp
            have hlength := length_names_searchFiles hfiles hlead hslash.2 hne.2 habove' h
            have hnames : names document.path =
                defaultConfigFileName :: (part :: above).map Part.name := by
              rw [path_of_findFile hdocument]
              refine names_dirText (List.forall_mem_cons.mpr ⟨by decide, ?_⟩)
                (List.forall_mem_cons.mpr ⟨by decide, ?_⟩)
              · exact List.forall_mem_map.mpr (List.forall_mem_cons.mpr hslash)
              · exact List.forall_mem_map.mpr (List.forall_mem_cons.mpr hne)
            rw [hnames, List.length_cons, List.length_map, List.length_cons] at hlength
            omega
          have hhere : documentIn files (part.name :: above.map Part.name) = some document :=
            hdocument
          rw [hhere, Option.or_eq_some_iff]
          constructor
          · rintro (hfound | ⟨-, h⟩)
            · obtain ⟨found, hfound, heq⟩ := Option.map_eq_some_iff.mp hfound
              cases heq
              split_ifs at hfound with hparity
              exact ⟨(hlevel.mp hfound).2, hparity⟩
            · exact absurd h hfarther
          · rintro ⟨hplain, hparity⟩
            rw [if_pos hparity, hlevel.mpr ⟨hdocument, hplain⟩]
            exact .inl rfl

theorem findsNearest_iff (hfiles : ∀ file ∈ files, NormalPath file.1) (spelling : Spelling) :
    FindsNearest files spelling.text ↔ Climbs files spelling.lead spelling.parts := by
  rw [← searchFiles_iff hfiles spelling.lead_pos spelling.noSlash spelling.ne_empty
    spelling.between, FindsNearest, nearestDocument, ancestors, spelling.names_text,
    discoverConfig_eq, spelling.trimSlash_text]
  change (match (spelling.parts.map Part.name).tails.findSome? (documentIn files) with
    | some document => (searchFiles files spelling.lead spelling.parts).map _ = _
    | none => ∃ err, (searchFiles files spelling.lead spelling.parts).map _ = _) ↔ _
  cases (spelling.parts.map Part.name).tails.findSome? (documentIn files) with
  | some document =>
      rcases searchFiles files spelling.lead spelling.parts with _ | _ | found <;> simp [searched]
  | none =>
      rcases searchFiles files spelling.lead spelling.parts with _ | _ | found <;> simp [searched]

end Search

end Mulp.Cli
