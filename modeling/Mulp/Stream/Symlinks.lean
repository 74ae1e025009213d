import Mathlib.Logic.Relation
import Mulp.Lib.KeyedList
import Mulp.Stream.File
import Mulp.Stream.Kleisli

/-! Symbolic links among files in memory (`stream/memory_io.mbt`).

A link is followed by one look into the list of files, by its target's path. What it
should come to is the end of the chain, which may go through several links, or round in
a circle. -/
namespace Mulp.Stream

open Relation Pull

variable {β ω : Type}

def findFileByPath (files : List (File β)) (path : String) : Option (File β) :=
  files.find? (·.path = path)

def followSymlink (file target : File β) : File β where
  cwd := file.cwd
  base := file.base
  path := file.path
  contents := target.contents
  metadata := target.metadata
  sourceMap := target.sourceMap

/-- The loop body of `src_symlinks`. -/
def selectSymlink (files : List (File β)) (file : File β) : File β :=
  match file.contents with
  | .symlink target =>
      match findFileByPath files target with
      | some found => followSymlink file found
      | none => file
  | _ => file

def srcSymlinks (files : List (File β)) (follow : Bool) : FileStream ω (File β) :=
  if !follow then .fileStream files else .fileStream (files.map (selectSymlink files))

/-! ## Chains of links -/

def File.IsLink (file : File β) : Prop := ∃ target, file.contents = .symlink target

/-- The file is a link to another one of the list, by the text of its target. A link whose target is
no file's path leads nowhere. -/
def LinksTo (files : List (File β)) (file found : File β) : Prop :=
  ∃ target, file.contents = .symlink target ∧ found ∈ files ∧ found.path = target

/-- The chain of links from the file ends at one that is no link. Paths are distinct, so there is at
most one such chain. -/
def Resolves (files : List (File β)) (file final : File β) : Prop :=
  TransGen (LinksTo files) file final ∧ ¬ final.IsLink

/-- What following links should make of a file: it stays where it is, and has what the file at the
end of its chain has. A link without an end may stay a link, or be left as it is. -/
structure Followed (files : List (File β)) (file out : File β) : Prop where
  cwd : out.cwd = file.cwd
  base : out.base = file.base
  path : out.path = file.path
  other : ¬ file.IsLink → out = file
  resolved : ∀ final, Resolves files file final →
    out.contents = final.contents ∧ out.metadata = final.metadata ∧ out.sourceMap = final.sourceMap
  unresolved : file.IsLink → (∀ final, ¬ Resolves files file final) → out = file ∨ out.IsLink

section Chains

variable {files : List (File β)} {file found final : File β}

theorem LinksTo.isLink (h : LinksTo files file found) : file.IsLink := by
  obtain ⟨target, htarget, -⟩ := h
  exact ⟨target, htarget⟩

theorem Resolves.isLink (h : Resolves files file final) : file.IsLink := by
  obtain ⟨found, hlink, -⟩ := TransGen.head'_iff.mp h.1
  exact hlink.isLink

/-- The list has one file for a path, so a link leads to one file. -/
theorem findFileByPath_iff (hpaths : Keyed.Distinct File.path files) {path : String} :
    findFileByPath files path = some found ↔ found ∈ files ∧ found.path = path := by
  constructor
  · exact Keyed.lookup_eq_some
  · rintro ⟨hmem, rfl⟩
    exact Keyed.Distinct.lookup_mem hpaths hmem

theorem linksTo_iff (hpaths : Keyed.Distinct File.path files) {target : String}
    (hfile : file.contents = .symlink target) :
    LinksTo files file found ↔ findFileByPath files target = some found := by
  rw [findFileByPath_iff hpaths]
  constructor
  · rintro ⟨other, hother, hfound⟩
    rw [hfile] at hother
    cases hother
    exact hfound
  · intro hfound
    exact ⟨target, hfile, hfound⟩

/-- A link to a file that is none ends there. -/
theorem resolves_iff (hpaths : (files.map File.path).Nodup) (hlink : LinksTo files file found)
    (hfound : ¬ found.IsLink) : Resolves files file final ↔ final = found := by
  constructor
  · rintro ⟨hchain, -⟩
    obtain ⟨next, hnext, hrest⟩ := TransGen.head'_iff.mp hchain
    have hsame : next = found := by
      obtain ⟨target, htarget, -⟩ := id hlink
      rw [linksTo_iff hpaths htarget] at hnext hlink
      exact Option.some.inj (hnext.symm.trans hlink)
    rw [hsame] at hrest
    rcases hrest.cases_head with heq | ⟨other, hother, -⟩
    · exact heq.symm
    · exact absurd hother.isLink hfound
  · rintro rfl
    exact ⟨.single hlink, hfound⟩

theorem selectSymlink_link (hpaths : (files.map File.path).Nodup) (h : LinksTo files file found) :
    selectSymlink files file = followSymlink file found := by
  obtain ⟨target, htarget, -⟩ := id h
  rw [linksTo_iff hpaths htarget] at h
  rw [selectSymlink, htarget]
  dsimp only
  rw [h]

theorem selectSymlink_dangling (hpaths : (files.map File.path).Nodup)
    (h : ∀ found, ¬ LinksTo files file found) : selectSymlink files file = file := by
  rw [selectSymlink]
  split
  · rename_i target htarget
    cases hfind : findFileByPath files target with
    | none => rfl
    | some found => exact absurd ((linksTo_iff hpaths htarget).mpr hfind) (h found)
  · rfl

/-- One lookup is enough for a file if it is no link to a link whose chain ends. -/
theorem followed_iff (hpaths : (files.map File.path).Nodup) (file : File β) :
    Followed files file (selectSymlink files file) ↔
      ∀ found, LinksTo files file found → found.IsLink → ∀ final, ¬ Resolves files file final := by
  constructor
  · intro h found hlink hfound final hresolves
    obtain ⟨hcontents, -⟩ := h.resolved final hresolves
    rw [selectSymlink_link hpaths hlink] at hcontents
    obtain ⟨target, htarget⟩ := hfound
    exact hresolves.2 ⟨target, hcontents.symm.trans htarget⟩
  · intro h
    by_cases hlink : ∃ found, LinksTo files file found
    · obtain ⟨found, hlink⟩ := hlink
      rw [selectSymlink_link hpaths hlink]
      refine ⟨rfl, rfl, rfl, fun hother => absurd hlink.isLink hother, ?_, ?_⟩
      · intro final hfinal
        by_cases hfound : found.IsLink
        · exact absurd hfinal (h found hlink hfound final)
        · rw [(resolves_iff hpaths hlink hfound).mp hfinal]
          exact ⟨rfl, rfl, rfl⟩
      · intro _ hnone
        by_cases hfound : found.IsLink
        · exact .inr hfound
        · exact absurd ((resolves_iff hpaths hlink hfound).mpr rfl) (hnone found)
    · have hnone (found : File β) : ¬ LinksTo files file found := fun h => hlink ⟨found, h⟩
      rw [selectSymlink_dangling hpaths hnone]
      refine ⟨rfl, rfl, rfl, fun _ => rfl, ?_, fun _ _ => .inl rfl⟩
      intro final hfinal
      obtain ⟨found, hfound, -⟩ := TransGen.head'_iff.mp hfinal.1
      exact absurd hfound (hnone found)

end Chains

/-- No link of the list is to another link of it, unless its chain does not end at a
file. -/
def Direct (files : List (File β)) : Prop :=
  ∀ file ∈ files, ∀ found, LinksTo files file found → found.IsLink →
    ∀ final, ¬ Resolves files file final

theorem collect_srcSymlinks (files : List (File β)) (w : ω) :
    ∃ n₀, ∀ n, n₀ ≤ n → ((srcSymlinks files true).collect (fun _ => false) n w).1 =
      some (.ok (files.map (selectSymlink files))) := by
  obtain ⟨n₀, hn₀⟩ := FileStream.collect_plays (fun _ => rfl)
    (@FileStream.fileStream_plays ω _ (files.map (selectSymlink files))) w
  refine ⟨n₀, fun n hn => ?_⟩
  have hcollect := hn₀ n hn
  rw [Script.result, Script.ending_ofList, Script.items_ofList] at hcollect
  exact hcollect

theorem srcSymlinks_follows_iff (files : List (File β)) (hpaths : (files.map File.path).Nodup)
    (w : ω) :
    ∃ n₀ outs, (∀ n, n₀ ≤ n →
      ((srcSymlinks files true).collect (fun _ => false) n w).1 = some (.ok outs)) ∧
      (List.Forall₂ (Followed files) files outs ↔ Direct files) := by
  obtain ⟨n₀, hn₀⟩ := collect_srcSymlinks files w
  refine ⟨n₀, files.map (selectSymlink files), hn₀, ?_⟩
  rw [List.forall₂_map_right_iff, List.forall₂_same]
  exact forall₂_congr fun file _ => followed_iff hpaths file

def plainFile (path : String) (contents : FileContents Nat) : File Nat :=
  ⟨"/", "/", path, contents, [], none⟩

/-- A link to a link to a file, before both. -/
def chainedLinks : List (File Nat) :=
  [plainFile "/a" (.symlink "/b"), plainFile "/b" (.symlink "/c"), plainFile "/c" (.text "text")]

theorem chain_not_followed : (chainedLinks.map File.path).Nodup ∧
    (∃ n₀, ∀ n, n₀ ≤ n → ((srcSymlinks chainedLinks true).collect (fun _ => false) n ()).1 =
      some (.ok (chainedLinks.map (selectSymlink chainedLinks)))) ∧
    ¬ List.Forall₂ (Followed chainedLinks) chainedLinks
      (chainedLinks.map (selectSymlink chainedLinks)) := by
  have hpaths : (chainedLinks.map File.path).Nodup := by decide
  refine ⟨hpaths, collect_srcSymlinks chainedLinks (), fun h => ?_⟩
  rw [List.forall₂_map_right_iff, List.forall₂_same] at h
  have hb : LinksTo chainedLinks (plainFile "/a" (.symlink "/b"))
      (plainFile "/b" (.symlink "/c")) :=
    ⟨"/b", rfl, by simp [chainedLinks], rfl⟩
  have hc : LinksTo chainedLinks (plainFile "/b" (.symlink "/c")) (plainFile "/c" (.text "text")) :=
    ⟨"/c", rfl, by simp [chainedLinks], rfl⟩
  refine (followed_iff hpaths _).mp (h _ List.mem_cons_self) _ hb ⟨"/c", rfl⟩
    (plainFile "/c" (.text "text")) ?_
  exact ⟨.head hb (.single hc), fun ⟨target, htarget⟩ => by cases htarget⟩

/-- A link to a file, after it. -/
def oneLink : List (File Nat) := [plainFile "/c" (.text "text"), plainFile "/a" (.symlink "/c")]

theorem link_followed : ∃ n₀ outs, (∀ n, n₀ ≤ n →
    ((srcSymlinks oneLink true).collect (fun _ => false) n ()).1 = some (.ok outs)) ∧
    List.Forall₂ (Followed oneLink) oneLink outs := by
  obtain ⟨n₀, outs, houts, hiff⟩ := srcSymlinks_follows_iff oneLink (by decide) ()
  refine ⟨n₀, outs, houts, hiff.mpr ?_⟩
  rintro file hfile found ⟨target, htarget, hfound, rfl⟩ ⟨other, hother⟩
  exfalso
  simp only [oneLink, List.mem_cons, List.not_mem_nil, or_false] at hfile hfound
  rcases hfound with rfl | rfl
  · cases hother
  · rcases hfile with rfl | rfl
    · cases htarget
    · simp [plainFile] at htarget

end Mulp.Stream
