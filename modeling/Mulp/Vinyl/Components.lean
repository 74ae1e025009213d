import Mulp.Vinyl.Relative

/-! The directory, the name, the stem and the extension of a path (`vinyl/file.mbt`).

Each is found by the last slash or the last dot of a text. A dot at the start of a name
begins no extension. -/
namespace Mulp.Vinyl

open Mulp.Text Lexical

/-! ## `last_index_of` -/

theorem foldl_zipIdx_of_not_mem {chars : List Char} {c : Char} (h : c ∉ chars) (found : Option Nat)
    (start : Nat) :
    (chars.zipIdx start).foldl
    (fun found item => if item.1 = c then some item.2 else found) found = found := by
  induction chars generalizing start with
  | nil => rfl
  | cons d chars ih =>
      rw [List.mem_cons, not_or] at h
      rw [List.zipIdx_cons, List.foldl_cons, if_neg (Ne.symm h.1), ih h.2]

theorem lastIndexOf_none {value : String} {c : Char} (h : c ∉ value.toList) :
    lastIndexOf value c = none :=
  foldl_zipIdx_of_not_mem h none 0

theorem lastIndexOf_append {value : String} {c : Char} {before after : List Char}
    (hvalue : value.toList = before ++ c :: after) (h : c ∉ after) :
    lastIndexOf value c = some before.length := by
  rw [lastIndexOf, hvalue, List.zipIdx_append, List.foldl_append, List.zipIdx_cons, List.foldl_cons,
    if_pos rfl, foldl_zipIdx_of_not_mem h, Nat.zero_add]

/-- A character is not there, or there is a last one. -/
theorem lastIndexOf_cases (value : String) (c : Char) :
    c ∉ value.toList ∧ lastIndexOf value c = none ∨
      ∃ before after, value.toList = before ++ c :: after ∧ c ∉ after ∧
        lastIndexOf value c = some before.length := by
  by_cases h : c ∈ value.toList
  · obtain ⟨before, after, hvalue, hafter⟩ := List.eq_append_cons_of_mem (List.mem_reverse.mpr h)
    have hchars : value.toList = after.reverse ++ c :: before.reverse := by
      rw [← List.reverse_inj, hvalue]
      simp
    have hlast : c ∉ before.reverse := by simpa using hafter
    exact .inr ⟨after.reverse, before.reverse, hchars, hlast, lastIndexOf_append hchars hlast⟩
  · exact .inl ⟨h, lastIndexOf_none h⟩

/-! ## Directory and name -/

/-- The directory of a path: what stands before its last slash, the root if that is nothing, and `.`
if there is no slash. -/
def dirPart (path : String) : String :=
  match lastIndexOf path '/' with
  | some 0 => "/"
  | some index => String.ofList (path.toList.take index)
  | none => "."

/-- The name of a path. -/
def namePart (path : String) : String :=
  match lastIndexOf path '/' with
  | some index => String.ofList (path.toList.drop (index + 1))
  | none => path

/-- A name in a directory that is canonical. -/
def inside (dir name : String) : String :=
  if dir = "." then name else if dir = "/" then "/" ++ name else dir ++ "/" ++ name

theorem dirPart_namePart_slash {front name : String} (hname : NoSlash name) (hfront : front ≠ "") :
    dirPart (front ++ "/" ++ name) = front ∧ namePart (front ++ "/" ++ name) = name := by
  have hchars : (front ++ "/" ++ name).toList = front.toList ++ '/' :: name.toList := by simp
  have hlast := lastIndexOf_append hchars hname
  obtain ⟨n, hn⟩ : ∃ n, front.toList.length = n + 1 := Nat.exists_eq_succ_of_ne_zero fun h =>
    hfront (String.toList_eq_nil_iff.mp (List.length_eq_zero_iff.mp h))
  constructor
  · have htake : String.ofList ((front ++ "/" ++ name).toList.take (n + 1)) = front := by
      rw [hchars, ← hn, List.take_left, String.ofList_toList]
    rw [dirPart, hlast, hn]
    exact htake
  · rw [namePart, hlast, hchars]
    simp

theorem dirPart_namePart_inside {dir name : String} (hdir : dir ≠ "") (hname : NoSlash name) :
    dirPart (inside dir name) = dir ∧ namePart (inside dir name) = name := by
  rw [inside]
  split_ifs with hstart hroot
  · have hlast : lastIndexOf name '/' = none := lastIndexOf_none hname
    rw [dirPart, namePart, hlast, hstart]
    exact ⟨rfl, rfl⟩
  · have hchars : ("/" ++ name).toList = [] ++ '/' :: name.toList := by simp
    have hlast := lastIndexOf_append hchars hname
    rw [dirPart, namePart, hlast, hroot, hchars]
    simp
  · exact dirPart_namePart_slash hname hdir

/-- The place of a name in a directory. -/
def below (l : Location) (name : String) : Location := ⟨l.rooted, ⟨l.pos.ups, l.pos.names ++ [name]⟩⟩

theorem text_below {l : Location} (h : l.Proper) (name : String) :
    (below l name).text = inside l.text name := by
  have hparts : Location.parts (below l name).pos = Location.parts l.pos ++ [name] := by
    simp [below, Location.parts]
  have hlocation := location_text h
  rw [inside]
  split_ifs with hstart hroot
  · rw [hstart] at hlocation
    rw [← hlocation]
    exact joinSlash_singleton name
  · rw [hroot] at hlocation
    rw [← hlocation]
    exact congrArg ("/" ++ ·) (joinSlash_singleton name)
  · have hne : Location.parts l.pos ≠ [] := by
      intro hnil
      rw [Location.text, hnil, joinSlash_nil] at hstart hroot
      cases hrooted : l.rooted with
      | true => simp [hrooted] at hroot
      | false => simp [hrooted] at hstart
    have hne' : Location.parts l.pos ++ [name] ≠ [] := by simp
    have hrooted : (below l name).rooted = l.rooted := rfl
    rw [Location.text, Location.text, hparts, hrooted, if_neg hne, if_neg hne',
      joinSlash_append hne (List.cons_ne_nil name []), joinSlash_singleton]
    split_ifs
    · simp only [String.append_assoc]
    · rfl

/-- Joining a name to a directory. -/
theorem normalizePath_joinPath {dir name : String} (hnormal : normalizePath dir = dir)
    (hdir : dir ≠ "") (hname : IsName name) : normalizePath
    (joinPath dir name) = inside dir name := by
  have hlocation : location (joinPath dir name) = below (location dir) name := by
    rw [location_joinPath hdir, location_append hdir, splitSlash_eq_singleton hname.noSlash,
      List.map_singleton, hname.stepOf_eq]
    rfl
  rw [normalizePath_eq (joinPath_ne_empty dir name), hlocation, text_below (location_proper dir),
    text_location hnormal hdir]

/-- A canonical path with a proper name is that name in a canonical directory. -/
theorem exists_inside {path : String} (hnormal : normalizePath path = path)
    (hempty : namePart path ≠ "") (hdot : namePart path ≠ ".") (hdots : namePart path ≠ "..") :
    ∃ dir name, path = inside dir name ∧ normalizePath dir = dir ∧ dir ≠ "" ∧ IsName name := by
  have hne : path ≠ "" := by
    rintro rfl
    exact hempty rfl
  have hproper := location_proper path
  have htext := text_location hnormal hne
  obtain ⟨⟨rooted, ups, names⟩, hlocation⟩ : ∃ l, location path = l := ⟨_, rfl⟩
  rw [hlocation] at hproper htext
  rcases names.eq_nil_or_concat' with rfl | ⟨others, name, rfl⟩
  · -- the root, the start, or a way upwards
    exfalso
    have hparts : Location.parts (⟨ups, []⟩ : Pos String) = List.replicate ups ".." :=
      List.append_nil _
    rw [Location.text, hparts] at htext
    cases rooted with
    | true =>
        obtain rfl : ups = 0 := hproper.rooted rfl
        exact hempty (htext ▸ rfl)
    | false =>
        rcases Nat.eq_zero_or_eq_succ_pred ups with rfl | hups
        · exact hdot (htext ▸ rfl)
        · have hne : List.replicate ups ".." ≠ [] := by rw [hups]; simp
          rw [if_neg Bool.false_ne_true, if_neg hne, hups, List.replicate_succ'] at htext
          by_cases hnil : List.replicate ups.pred ".." = []
          · rw [hnil] at htext
            exact hdots (htext ▸ rfl)
          · have hfront : joinSlash (List.replicate ups.pred "..") ≠ "" := by
              refine mt (joinSlash_eq_empty fun part hpart => ?_).mp hnil
              rw [List.eq_of_mem_replicate hpart]
              decide
            rw [joinSlash_append hnil (List.cons_ne_nil ".." []), joinSlash_singleton] at htext
            exact hdots (htext ▸ (dirPart_namePart_slash (by decide) hfront).2)
  · have hparent : (⟨rooted, ups, others⟩ : Location).Proper :=
      ⟨fun other hother => hproper.names other (List.mem_append_left _ hother), hproper.rooted⟩
    have hname : IsName name := hproper.names name (by simp)
    refine ⟨(⟨rooted, ups, others⟩ : Location).text, name, ?_, normalizePath_text hparent,
      text_ne_empty hparent, hname⟩
    rw [← htext, ← text_below hparent]
    rfl

/-! ## Stem and extension -/

/-- The extension of a name: its last dot and what follows, unless the dot is its first character.
-/
def extPart (name : String) : String :=
  match lastIndexOf name '.' with
  | some 0 | none => ""
  | some index => String.ofList (name.toList.drop index)

/-- The stem of a name. -/
def stemPart (name : String) : String :=
  match lastIndexOf name '.' with
  | some 0 | none => name
  | some index => String.ofList (name.toList.take index)

/-- A name has no dot behind its first character. -/
def Undotted (name : String) : Prop := '.' ∉ name.toList.tail

/-- An extension: a dot and something without one. It has no slash either, since it is to be part of
a name. -/
def IsExtension (ext : String) : Prop :=
  ∃ rest, ext = "." ++ rest ∧ rest ≠ "" ∧ '.' ∉ rest.toList ∧ NoSlash rest

theorem stemPart_extPart_undotted {name : String} (h : Undotted name) :
    stemPart name = name ∧ extPart name = "" := by
  rw [stemPart, extPart]
  rcases lastIndexOf_cases name '.' with ⟨-, hlast⟩ | ⟨before, after, hname, -, hlast⟩
  · rw [hlast]
    exact ⟨rfl, rfl⟩
  · cases before with
    | nil =>
        rw [hlast]
        exact ⟨rfl, rfl⟩
    | cons c before =>
        rw [Undotted, hname, List.cons_append, List.tail_cons] at h
        exact absurd (List.mem_append_right before List.mem_cons_self) h

/-- Where a stem and what follows the last dot are put together. -/
theorem stemPart_extPart_append {stem rest : String} (hstem : stem ≠ "")
    (hrest : '.' ∉ rest.toList) :
    stemPart (stem ++ ("." ++ rest)) = stem ∧ extPart (stem ++ ("." ++ rest)) = "." ++ rest := by
  have hchars : (stem ++ ("." ++ rest)).toList = stem.toList ++ '.' :: rest.toList := by simp
  have hlast := lastIndexOf_append hchars hrest
  obtain ⟨n, hn⟩ : ∃ n, stem.toList.length = n + 1 := Nat.exists_eq_succ_of_ne_zero fun h =>
    hstem (String.toList_eq_nil_iff.mp (List.length_eq_zero_iff.mp h))
  have htake : String.ofList ((stem ++ ("." ++ rest)).toList.take (n + 1)) = stem := by
    rw [hchars, ← hn, List.take_left, String.ofList_toList]
  have hdrop : String.ofList ((stem ++ ("." ++ rest)).toList.drop (n + 1)) = "." ++ rest := by
    rw [hchars, ← hn, List.drop_left, ← String.toList_inj, String.toList_ofList]
    simp
  rw [stemPart, extPart, hlast, hn]
  exact ⟨htake, hdrop⟩

/-- A name is plain, or it is a stem and an extension that may be a dot only. -/
theorem stem_ext_cases (name : String) :
    Undotted name ∨ ∃ stem rest, name = stem ++ ("." ++ rest) ∧ stem ≠ "" ∧ '.' ∉ rest.toList := by
  rcases lastIndexOf_cases name '.' with ⟨hnot, -⟩ | ⟨before, after, hname, hafter, -⟩
  · exact .inl fun h => hnot (List.mem_of_mem_tail h)
  · cases before with
    | nil =>
        left
        rw [Undotted, hname]
        exact hafter
    | cons c before =>
        refine .inr ⟨String.ofList (c :: before), String.ofList after, ?_, ?_, ?_⟩
        · rw [← String.toList_inj, hname]
          simp
        · intro hempty
          have hnil := String.toList_eq_nil_iff.mpr hempty
          rw [String.toList_ofList] at hnil
          cases hnil
        · rwa [String.toList_ofList]

theorem stemPart_append_extPart (name : String) : stemPart name ++ extPart name = name := by
  rcases stem_ext_cases name with h | ⟨stem, rest, rfl, hstem, hrest⟩
  · rw [(stemPart_extPart_undotted h).1, (stemPart_extPart_undotted h).2, String.append_empty]
  · rw [(stemPart_extPart_append hstem hrest).1, (stemPart_extPart_append hstem hrest).2]

theorem extPart_cases (name : String) :
    extPart name = "" ∨ ∃ rest, extPart name = "." ++ rest ∧ '.' ∉ rest.toList := by
  rcases stem_ext_cases name with h | ⟨stem, rest, rfl, hstem, hrest⟩
  · exact .inl (stemPart_extPart_undotted h).2
  · exact .inr ⟨rest, (stemPart_extPart_append hstem hrest).2, hrest⟩

theorem stemPart_ne_empty {name : String} (h : name ≠ "") : stemPart name ≠ "" := by
  rcases stem_ext_cases name with hundotted | ⟨stem, rest, rfl, hstem, hrest⟩
  · rwa [(stemPart_extPart_undotted hundotted).1]
  · rwa [(stemPart_extPart_append hstem hrest).1]

end Mulp.Vinyl
