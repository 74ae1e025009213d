import Mulp.Cli.Config
import Mulp.Platform.MemoryFs
import Mulp.Platform.Shell
import Mulp.Platform.Sliced
import Mulp.Stream.Sliced

/-! Which operations abort on characters beyond the basic plane.

Strings are code units to the source, and such a character is two of them. A loop over
slices of one unit each aborts at the first half of a pair; a function that searches and
splits at slashes does not. -/
namespace Mulp.Entry

open Mulp.Text Mulp.Vinyl Mulp.Platform

/-- The readings of a vinyl file's path: what its getters answer and its setters make, each of which
takes slices. -/
structure ReadsPath (file : VinylFile Nat Nat) : Prop where
  dirname : ∃ result, Vinyl.Sliced.dirnameResult file = some result
  basename : ∃ result, Vinyl.Sliced.basenameResult file = some result
  extname : ∃ result, Vinyl.Sliced.extnameResult file = some result
  stem : ∃ result, Vinyl.Sliced.stemResult file = some result
  relative : ∃ result, Vinyl.Sliced.relativeResult file = some result

/-- The readings of a stream file's path. -/
structure ReadsFile (file : Stream.File Unit) : Prop where
  dirname : ∃ result, Stream.Sliced.dirname file = some result
  basename : ∃ result, Stream.Sliced.basename file = some result
  extname : ∃ result, Stream.Sliced.extname file = some result
  stem : ∃ result, Stream.Sliced.stem file = some result
  relativePath : ∃ result, Stream.Sliced.relativePath file = some result

/-- The operations of a file system in memory. -/
structure Operates (self : MemoryFileSystem) (path : String) : Prop where
  mkdir : ∃ result, self.mkdir path = some result
  writeFile : ∀ contents, ∃ result, self.writeFile path contents = some result
  readFile : ∃ result, self.readFile path = some result
  stat : ∃ result, self.stat path = some result
  delete : ∃ result, self.delete path = some result

/-- Every operation returns a value that is given strings of a kind. The kind is a condition on
strings, the same for all operations. -/
structure AllReturn (given : String → Prop) : Prop where
  normalizePath : ∀ value, given value → ∃ path, Vinyl.Sliced.normalizePath value = some path
  vinylFile : ∀ args st, (∀ text ∈ Vinyl.Sliced.texts args, given text) →
    ∃ file st', Vinyl.Sliced.vinylFile args st = some (file, st') ∧ ReadsPath file
  file : ∀ file : Stream.File Unit, given file.base → given file.path → ReadsFile file
  globMatches : ∀ pattern path, given pattern → given path →
    ∃ matched, Platform.Sliced.globMatches pattern path = some matched
  pathsEqual : ∀ platform left right, given left → given right →
    ∃ equal, Platform.Sliced.pathsEqual platform left right = some equal
  quoteShellArg : ∀ value, given value → ∃ quoted, quoteShellArg (units value) = some quoted
  memoryFileSystem : ∀ self path, given path → Operates self path
  parseConfig : ∀ source, given source → ∃ result, Cli.parseConfig source = some result
  parseInt64 : ∀ value, given value → ∃ result, Stream.Sliced.parseInt64 value = some result

/-! ## Texts without pairs -/

theorem readsPath {args : VinylFileArgs} (h : ∀ text ∈ Vinyl.Sliced.texts args, IsBmp text)
    (st : Store) :
    ReadsPath (vinylFile args st).1 := by
  obtain ⟨hbase, hpath⟩ := Vinyl.Sliced.isBmp_vinylFile h st
  exact {
    dirname := ⟨_, Vinyl.Sliced.dirnameResult_eq hpath⟩
    basename := ⟨_, Vinyl.Sliced.basenameResult_eq hpath⟩
    extname := ⟨_, Vinyl.Sliced.extnameResult_eq hpath⟩
    stem := ⟨_, Vinyl.Sliced.stemResult_eq hpath⟩
    relative := ⟨_, Vinyl.Sliced.relativeResult_eq hbase hpath⟩ }

theorem readsFile {file : Stream.File Unit} (hbase : IsBmp file.base) (hpath : IsBmp file.path) :
    ReadsFile file where
  dirname := ⟨_, Vinyl.Sliced.dirnameOf_eq hpath⟩
  basename := ⟨_, Vinyl.Sliced.basenameOf_eq hpath⟩
  extname := Stream.Sliced.exists_extname hpath
  stem := Stream.Sliced.exists_stem hpath
  relativePath := ⟨_, Stream.Sliced.relativePath_eq hbase hpath⟩

theorem operates (self : MemoryFileSystem) {path : String} (h : IsBmp path) :
    Operates self path where
  mkdir := self.exists_mkdir h
  writeFile := self.exists_writeFile h
  readFile := self.exists_readFile h
  stat := self.exists_stat h
  delete := self.exists_delete h

/-- No operation aborts on strings of a kind if and only if none of them has a
character that takes two code units. -/
theorem allReturn_iff (given : String → Prop) :
    AllReturn given ↔ ∀ value, given value → IsBmp value := by
  constructor
  · intro h value hvalue
    obtain ⟨quoted, hquoted⟩ := h.quoteShellArg value hvalue
    exact plain_units_iff.mp (quoteShellArg_eq_some_iff.mp hquoted).1
  · intro h
    exact {
      normalizePath := fun value hvalue => ⟨_, Vinyl.Sliced.normalizePath_eq (h value hvalue)⟩
      vinylFile := fun args st hargs =>
        ⟨_, _, Vinyl.Sliced.vinylFile_eq (fun text htext => h text (hargs text htext)) st,
          readsPath (fun text htext => h text (hargs text htext)) st⟩
      file := fun file hbase hpath => readsFile (h _ hbase) (h _ hpath)
      globMatches := fun pattern path hpattern hpath =>
        ⟨_, Platform.Sliced.globMatches_eq (h pattern hpattern) (h path hpath)⟩
      pathsEqual := fun platform left right hleft hright =>
        ⟨_, Platform.Sliced.pathsEqual_eq (h left hleft) (h right hright) platform⟩
      quoteShellArg := fun value hvalue =>
        ⟨_, quoteShellArg_eq_some_iff.mpr ⟨plain_units_iff.mpr (h value hvalue), rfl⟩⟩
      memoryFileSystem := fun self path hpath => operates self (h path hpath)
      parseConfig := fun source hsource => Cli.exists_parseConfig (h source hsource)
      parseInt64 := fun value hvalue => Stream.Sliced.exists_parseInt64 (h value hvalue) }

/-- A path with an emoji aborts. -/
theorem not_allReturn : ¬ AllReturn fun _ => True := by
  intro h
  obtain ⟨path, hpath⟩ := h.normalizePath "a/😀" trivial
  have hnone : Vinyl.Sliced.normalizePath "a/😀" = none := by decide +kernel
  rw [hnone] at hpath
  cases hpath

end Mulp.Entry
