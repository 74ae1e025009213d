import Mulp.Vinyl.Files
import Mulp.VinylFs.DestBytes

/-! Destinations one after the other (`vinyl_fs/dest.mbt`).

Before it writes a file, `dest` makes one with its path below the output directory.
That takes slices of the paths, which can abort, and then the run is over. -/
namespace Mulp.VinylFs

open Mulp.Core Mulp.Stream Mulp.Text Mulp.Vinyl Pull

/-! ## The file that is made -/

namespace Sliced

/-- The arguments of `vinyl_file` in `with_dest_file`. -/
def destArgs (input : VinylFile Nat Nat) (options : DestOptions) (base relative : String) :
    VinylFileArgs where
  cwd := options.cwd
  base
  path := some (joinDestPath base relative)
  contents := input.contents
  stat := destStat input options
  symlink := input.symlink
  sourceMap := input.sourceMap
  metadata := destMetadata input (destStat input options)

def withDestFile (input : VinylFile Nat Nat) (options : DestOptions) (base : String) (st : Store) :
    Option (VinylFile Nat Nat × Store) := do
  let relative ← Vinyl.Sliced.relative input
  Vinyl.Sliced.vinylFile (destArgs input options base relative) st

/-- `dest`. Its default options add no file to the one that is made. -/
def dest (n : Nat) (outDir : String) (input : VinylFile Nat Nat) :
    Option World → FileStream (Option World) (VinylFile Nat Nat) × Option World
  | none => (destStream n {} [], none)
  | some w =>
      match withDestFile input {} (resolveDestDir outDir ".") w.store with
      | none => (destStream n {} [], none)
      | some (prepared, store) =>
          let (files, store) := destOutputFiles prepared {} store
          (destStream n {} files, some { w with store })

end Sliced

/-- The slices that `with_dest_file` takes of its file return: `relative()`, and `normalize_path` of
each path that `vinyl_file` is given. It is a condition on the file as it comes to the destination,
and it has to hold of each of the two. -/
def Prepares (outDir : String) (input : VinylFile Nat Nat) : Prop :=
  ∃ relative, Vinyl.Sliced.relative input = some relative ∧
    ∀ text ∈ Vinyl.Sliced.texts (Sliced.destArgs input {} (resolveDestDir outDir ".") relative),
      Vinyl.Sliced.normalizePath text ≠ none

/-- The file that `dest` writes under the default options. -/
def destFileOf (outDir : String) (input : VinylFile Nat Nat) (st : Store) : VinylFile Nat Nat × Store :=
  withDestFile input {} (resolveDestDir outDir ".") st

section Prepares

variable {outDir : String} {input : VinylFile Nat Nat} {n : Nat} {w : World}

theorem exists_withDestFile {st : Store} :
    (∃ made, Sliced.withDestFile input {} (resolveDestDir outDir ".") st = some made) ↔
      Prepares outDir input := by
  constructor
  · intro h
    obtain ⟨made, h⟩ := h
    obtain ⟨relative, hrelative, h⟩ := Option.bind_eq_some_iff.mp h
    exact ⟨relative, hrelative, Vinyl.Sliced.exists_vinylFile.mp ⟨made, h⟩⟩
  · intro h
    obtain ⟨relative, hrelative, htexts⟩ := h
    exact exists_bind hrelative (Vinyl.Sliced.exists_vinylFile.mpr htexts)

/-- A file that is made is the one by characters. -/
theorem withDestFile_prepares (h : Prepares outDir input) (st : Store) :
    Sliced.withDestFile input {} (resolveDestDir outDir ".") st =
      some (destFileOf outDir input st) := by
  obtain ⟨⟨prepared, store⟩, hmade⟩ := exists_withDestFile.mpr h
  rw [hmade]
  obtain ⟨relative, hrelative, hmade⟩ := Option.bind_eq_some_iff.mp hmade
  rw [Vinyl.Sliced.eq_of_vinylFile hmade, Vinyl.Sliced.eq_of_relative hrelative]
  rfl

/-- The stream of `dest` under the default options. -/
theorem dest_eq (h : Prepares outDir input) (n : Nat) (w : World) :
    Sliced.dest n outDir input (some w) =
      (.fromPull (destPull n {} [(destFileOf outDir input w.store).1]),
        some { w with store := (destFileOf outDir input w.store).2 }) := by
  rw [Sliced.dest, withDestFile_prepares h]
  rfl

/-- Where a slice aborts nothing is written, and the world is gone. -/
theorem dest_aborts (h : ¬ Prepares outDir input) (n : Nat) (w : World) :
    Sliced.dest n outDir input (some w) = (.fromPull (destPull n {} []), none) := by
  have hnone : Sliced.withDestFile input {} (resolveDestDir outDir ".") w.store = none :=
    Option.eq_none_iff_forall_ne_some.mpr fun made hmade =>
      h (exists_withDestFile.mp ⟨made, hmade⟩)
  rw [Sliced.dest, hnone]
  rfl

theorem isBmp_resolveDestDir (h : IsBmp outDir) : IsBmp (resolveDestDir outDir ".") := by
  rw [resolveDestDir, joinDestPath]
  split_ifs
  · exact h
  · exact (by decide : IsBmp ".")
  · exact (by decide : IsBmp ".").append h
  · exact ((by decide : IsBmp ".").append (by decide : IsBmp "/")).append h

theorem isBmp_joinDestPath {dir rel : String} (hdir : IsBmp dir) (hrel : IsBmp rel) :
    IsBmp (joinDestPath dir rel) := by
  rw [joinDestPath]
  split_ifs
  · exact hdir
  · exact hdir.append hrel
  · exact (hdir.append (by decide : IsBmp "/")).append hrel

/-- The texts of a file are without pairs, that in the cache too. It is a simple condition under
which no slice aborts, and there are others, since a scan need not get to the pair. -/
structure PlainTexts (file : VinylFile Nat Nat) : Prop where
  base : IsBmp file.base
  path : ∀ path ∈ file.path, IsBmp path
  symlink : ∀ target ∈ file.symlink, IsBmp target
  cache : ∀ relative ∈ file.relativeCache, IsBmp relative

theorem PlainTexts.relative (h : PlainTexts input) : IsBmp input.relative := by
  rw [VinylFile.relative, VinylFile.relativeResult]
  cases hcache : input.relativeCache with
  | some value => exact h.cache value hcache
  | none =>
      cases hpath : input.path with
      | none => exact (by decide : IsBmp "")
      | some path => exact Vinyl.Sliced.isBmp_relativeBetween (h.path path hpath)

theorem PlainTexts.texts (h : PlainTexts input) (hdir : IsBmp outDir) :
    ∀ text ∈ Vinyl.Sliced.texts
      (Sliced.destArgs input {} (resolveDestDir outDir ".") input.relative), IsBmp text := by
  have hbase := isBmp_resolveDestDir hdir
  intro text htext
  rw [Vinyl.Sliced.texts, List.mem_cons, List.mem_cons, List.mem_append] at htext
  rcases htext with rfl | rfl | hpath | hsymlink
  · exact (by decide : IsBmp ".")
  · exact hbase
  · obtain rfl : text = joinDestPath (resolveDestDir outDir ".") input.relative := by
      simpa [Sliced.destArgs] using hpath
    exact isBmp_joinDestPath hbase h.relative
  · exact h.symlink text (Option.mem_toList.mp hsymlink)

/-- In the basic plane no slice aborts. -/
theorem PlainTexts.prepares (h : PlainTexts input) (hdir : IsBmp outDir) : Prepares outDir input := by
  refine ⟨input.relative, ?_, ?_⟩
  · rw [Vinyl.Sliced.relative, Vinyl.Sliced.relativeResult_eq h.base h.path]
    rfl
  · intro text htext
    rw [Vinyl.Sliced.normalizePath_eq (h.texts hdir text htext)]
    exact Option.some_ne_none _

/-- The file that is made has such texts too. -/
theorem PlainTexts.destFileOf (h : PlainTexts input) (hdir : IsBmp outDir) (st : Store) :
    PlainTexts (destFileOf outDir input st).1 := by
  obtain ⟨hbase, hpath⟩ := Vinyl.Sliced.isBmp_vinylFile (h.texts hdir) st
  refine ⟨hbase, hpath, ?_, nofun⟩
  intro target htarget
  obtain ⟨source, hsource, rfl⟩ := Option.map_eq_some_iff.mp htarget
  exact Vinyl.Sliced.isBmp_normalizePath (h.symlink source hsource)

end Prepares

/-! ## Two destinations -/

/-- Two destinations, and a file that goes through both. -/
def chained (n : Nat) (outA outB : String) (file : VinylFile Nat Nat) :
    FileStream (Option World) (VinylFile Nat Nat) :=
  ((FileStream.fileStream [file]).piped (Sliced.dest n outA)).piped (Sliced.dest n outB)

/-- Both destinations come to have the bytes, and the file between them still has
or delivers them. -/
structure ChainWrites (outA outB : String) (file : VinylFile Nat Nat) (w : World) (bytes : Bytes) :
    Prop where
  writes : ∃ N, ∀ n, N ≤ n → ∃ last w', FileStream.Collects (fun _ => false)
    (chained n outA outB file) [] (some w) (.ok [last]) (some w') ∧
    w'.disk.read (destPath outA {} file) = some bytes ∧ w'.disk.read (pathText last) = some bytes
  emits : ∃ N, ∀ n, N ≤ n → ∃ m emitted s w', ((FileStream.fileStream [file]).piped (Sliced.dest n outA)).next m
    (some w) = (some (.ok (some emitted)), s, some w') ∧
    ∃ cs, Yields w'.store emitted.contents cs ∧ cs.flatten = bytes

/-! ## One stage -/

section Stage

variable {file : VinylFile Nat Nat} {w : World} {cs : List Bytes} {n : Nat}

theorem openedWith_default (h : ∀ before a, w.disk.succeeds before a = true) (path : String) :
    openedWith w.disk path {} = some [] := by
  simp [openedWith, Disk.grants, h]

/-- A stage writes what the file yields, and drains it if it is streamed. -/
theorem destPull_written (h : Yields w.store file.contents cs)
    (hsucceeds : ∀ before a, w.disk.succeeds before a = true)
    (hn : isBuffered file.contents = true ∨ w.store.streams.length + cs.length ≤ n) :
    ∃ w', destPull n {} [file] 0 (some w) = (.ok (some file), some w') ∧
      w'.disk.read = (w.disk.put (pathText file) cs.flatten).read ∧
      w'.disk.place = w.disk.place ∧
      (∀ before a, w'.disk.succeeds before a = true) ∧ ∀ i, file.contents = .stream i → w'.store.Consumed i := by
  obtain ⟨store, hwrite, hconsumed⟩ :=
    @writeVinylFile_opened file {} w n cs [] h hn (openedWith_default hsucceeds _)
  have hbytes : writtenBytes .utf8 file.contents cs.flatten = cs.flatten := by
    cases file.contents <;> rfl
  rw [List.nil_append, hbytes] at hwrite
  generalize hw₁ : World.mk store
    ((w.disk.access (.openWriter (pathText file))).2.put (pathText file) cs.flatten) = w₁ at hwrite
  have hsucceeds₁ : ∀ before a, w₁.disk.succeeds before a = true := by
    rw [← hw₁]
    exact hsucceeds
  obtain ⟨accesses, hmetadata⟩ := applyWrittenMetadata_world file true w₁
  have hok := applyWrittenMetadata_ok file true hsucceeds₁
  rcases happly : applyWrittenMetadata file true w₁ with ⟨r, w'⟩
  rw [happly] at hok hmetadata
  cases hok
  refine ⟨w', ?_, ?_⟩
  · simp only [destPull, List.getElem?_cons_zero, destFile, hwrite, happly]
    rfl
  · rw [show w' = _ from hmetadata, ← hw₁]
    exact ⟨rfl, rfl, hsucceeds, hconsumed⟩

/-- A stage fails on contents whose stream has been read to its end. -/
theorem destPull_consumed {reader : Nat} (hcontents : file.contents = .stream reader)
    (hread : (Store.readNext n reader w.store).1 = some ByteStream.alreadyConsumed)
    (hsucceeds : ∀ before a, w.disk.succeeds before a = true) (hn : 0 < n) :
    ∃ err w', destPull n {} [file] 0 (some w) = (.error err, some w') := by
  obtain ⟨m, rfl⟩ : ∃ k, n = k + 1 := ⟨n - 1, by omega⟩
  rcases hcall : Store.readNext (m + 1) reader w.store with ⟨r, st⟩
  rw [hcall] at hread
  cases hread
  have hturn (disk : Disk) : writeTurn (m + 1) reader (pathText file) (.opened (pathText file)) ()
      ⟨w.store, disk⟩ = (.reply (.error (.streamError "byte stream already consumed")), (),
        ⟨st, disk⟩) := by
    simp only [writeTurn, hcall, ByteStream.alreadyConsumed, Disk.writerClose]
  have hwrite : ∃ err w', writeVinylFile (m + 1) file {} w = (some (.error err), w') := by
    rw [writeVinylFile_contents (by simp [hcontents]), hcontents]
    dsimp only
    rw [writeVinylStream, openDestWriter_opened (openedWith_default hsucceeds _)]
    simp only [loop_reply (hturn _)]
    exact ⟨_, _, rfl⟩
  obtain ⟨err, w', hwrite⟩ := hwrite
  refine ⟨err, w', ?_⟩
  simp only [destPull, List.getElem?_cons_zero, destFile, hwrite]

end Stage

/-! ## Two stages -/

section Chain

variable {outA outB : String} {file : VinylFile Nat Nat} {w : World} {cs : List Bytes} {n : Nat}

/-- The stream of the first stage once it has emitted its file. -/
def firstStage (n : Nat) (outA : String) (file : VinylFile Nat Nat) (st : Store)
    (calls : List (PipeCall (VinylFile Nat Nat))) : FileStream (Option World) (VinylFile Nat Nat) :=
  .pipe ⟨.pulled (fun index w => (.ok [file][index]?, w)) 1,
    some (.pulled (destPull n {} [(destFileOf outA file st).1]) 1), [], calls⟩ (Sliced.dest n outA) .unused

theorem pathText_destFileOf (outDir : String) (input : VinylFile Nat Nat) (st : Store) :
    pathText (destFileOf outDir input st).1 = destPath outDir {} input :=
      pathText_vinylFile st rfl rfl

theorem next_firstStage (hprepares : Prepares outA file) (h : Yields w.store file.contents cs)
    (hsucceeds : ∀ before a, w.disk.succeeds before a = true)
    (hn : isBuffered file.contents = true ∨
      (destFileOf outA file w.store).2.streams.length + cs.length ≤ n) :
    ∃ calls w', ((FileStream.fileStream [file]).piped (Sliced.dest n outA)).next 5 (some w) =
        (some (.ok (some (destFileOf outA file w.store).1)), firstStage n outA file w.store calls,
          some w') ∧
      w'.disk.read = (w.disk.put (destPath outA {} file) cs.flatten).read ∧
      (∀ before a, w'.disk.succeeds before a = true) ∧
      ∀ i, (destFileOf outA file w.store).1.contents = .stream i → w'.store.Consumed i := by
  have hyields : Yields (destFileOf outA file w.store).2
      (destFileOf outA file w.store).1.contents cs :=
    h.prepareContents
  rw [← isBuffered_prepareContents w.store file.contents] at hn
  obtain ⟨w', hpull, hread, -, hsucceeds', hconsumed⟩ := @destPull_written _
    { w with store := (destFileOf outA file w.store).2 } cs n hyields hsucceeds hn
  rw [pathText_destFileOf] at hread
  obtain ⟨calls, hnext⟩ := @FileStream.next_pipe_item _ _ (Sliced.dest n outA) _ _ [] [] _ _ _ _ _ _ _ _
    (FileStream.next_fileStream file (some w)) (dest_eq hprepares n w) hpull
  exact ⟨calls, w', hnext, hread, hsucceeds', hconsumed⟩

/-- Once both stages have emitted their file, the stream is over. -/
theorem collects_over {last : VinylFile Nat Nat} {st : Store} {w : World}
    {calls calls' : List (PipeCall (VinylFile Nat Nat))} {files : List (VinylFile Nat Nat)} :
    FileStream.Collects (fun _ => false)
      (.pipe ⟨firstStage n outA file st calls, some (.pulled (destPull n {} [last]) 1), [], calls'⟩
        (Sliced.dest n outB) .unused) files (some w) (.ok files) (some w) := by
  have hover (file : VinylFile Nat Nat) :
      destPull n {} [file] 1 (some w) = (.ok none, some w) := rfl
  obtain ⟨s, hfile, hclose⟩ := FileStream.next_fileStream_over file (some w)
  obtain ⟨m, s₁, hfirst, hclose₁⟩ :=
    @FileStream.next_pipe_over _ _ (Sliced.dest n outA) _ _ [] calls _ _ _ _ _ _ (hover _) hfile hclose
  obtain ⟨m', s₂, hsecond, -⟩ :=
    @FileStream.next_pipe_over _ _ (Sliced.dest n outB) _ _ [] calls' _ _ _ _ _ _ (hover last) hfirst hclose₁
  exact .done rfl hsecond

theorem chainWrites_buffer {bytes : Bytes} (hcontents : file.contents = .buffer bytes)
    (hsucceeds : ∀ before a, w.disk.succeeds before a = true) (hprepares : Prepares outA file)
    (hprepares' : Prepares outB (destFileOf outA file w.store).1) :
    ChainWrites outA outB file w bytes := by
  have hyields (st : Store) {file : VinylFile Nat Nat} (h : file.contents = .buffer bytes) :
      Yields st file.contents [bytes] ∧ isBuffered file.contents = true := by
    rw [h]
    exact ⟨.buffer bytes, rfl⟩
  have hprepared (outDir : String) {file : VinylFile Nat Nat} (h : file.contents = .buffer bytes)
      (st : Store) : (destFileOf outDir file st).1.contents = .buffer bytes := by
    show (st.prepareContents file.contents).1.1 = _
    rw [h]
    rfl
  have hfirst (n : Nat) := @next_firstStage outA file w [bytes] n hprepares (hyields _ hcontents).1 hsucceeds
    (.inl (hyields w.store hcontents).2)
  constructor
  · refine ⟨0, fun n _ => ?_⟩
    obtain ⟨calls, w₁, hnext, hread₁, hsucceeds₁, -⟩ := hfirst n
    have hmiddle := hprepared outA hcontents w.store
    generalize destFileOf outA file w.store = emitted at hnext hmiddle hprepares'
    have hlast := hyields (destFileOf outB emitted.1 w₁.store).2 (hprepared outB hmiddle w₁.store)
    obtain ⟨w₂, hpull, hread₂, -⟩ := @destPull_written _
      { w₁ with store := (destFileOf outB emitted.1 w₁.store).2 } [bytes] n hlast.1 hsucceeds₁
      (.inl hlast.2)
    obtain ⟨calls', hsecond⟩ :=
      @FileStream.next_pipe_item _ _ (Sliced.dest n outB) _ _ [] [] _ _ _ _ _ _ _ _
        hnext (dest_eq hprepares' n w₁) hpull
    rw [List.flatten_singleton] at hread₁ hread₂
    refine ⟨_, w₂, .item rfl hsecond collects_over, ?_, ?_⟩
    · -- the second stage may write over what the first one has written
      rw [hread₂, Disk.put_read, hread₁, Disk.put_read_self]
      split_ifs <;> rfl
    · rw [hread₂, Disk.put_read_self]
  · refine ⟨0, fun n _ => ?_⟩
    obtain ⟨calls, w₁, hnext, -⟩ := hfirst n
    exact ⟨5, _, _, w₁, hnext, [bytes], (hyields _ (hprepared outA hcontents w.store)).1, by simp⟩

theorem not_chainWrites_stream {i : Nat} (hcontents : file.contents = .stream i)
    (h : Yields w.store file.contents cs) (hsucceeds : ∀ before a, w.disk.succeeds before a = true)
    (hprepares : Prepares outA file) (hprepares' : Prepares outB (destFileOf outA file w.store).1)
    (bytes : Bytes) :
    ¬ ChainWrites outA outB file w bytes := by
  rintro ⟨⟨N, hN⟩, -⟩
  have hle := Nat.le_add_left ((destFileOf outA file w.store).2.streams.length + cs.length) (N + 2)
  obtain ⟨last, w', hcollects, -⟩ := hN (N + 2 + _) (Nat.le_add_right_of_le (Nat.le_add_right N 2))
  generalize hm : N + 2 + ((destFileOf outA file w.store).2.streams.length + cs.length) = m
    at hle hcollects
  obtain ⟨calls, w₁, hnext, -, hsucceeds₁, hconsumed⟩ :=
    @next_firstStage outA file w cs m hprepares h hsucceeds (.inr hle)
  -- the file between the stages has the drained reader for contents
  obtain ⟨reader, hmiddle⟩ : ∃ reader, (destFileOf outA file w.store).1.contents =
    .stream reader := by
    refine ⟨w.store.streams.length, ?_⟩
    show (w.store.prepareContents file.contents).1.1 = _
    rw [hcontents]
    rfl
  have hdrained := hconsumed reader hmiddle
  generalize destFileOf outA file w.store = emitted at hnext hmiddle hprepares'
  obtain ⟨reader', hreader', hread⟩ := readNext_prepareContents hdrained
  have hlast : (destFileOf outB emitted.1 w₁.store).1.contents = .stream reader' := by
    rw [← hreader', ← hmiddle]
    rfl
  have hstore : (destFileOf outB emitted.1 w₁.store).2 =
      (w₁.store.prepareContents (.stream reader)).2 := by
    rw [← hmiddle]
    rfl
  obtain ⟨k, rfl⟩ : ∃ k, m = k + 2 := ⟨m - 2, by omega⟩
  rw [← hstore] at hread
  obtain ⟨err, w₂, hpull⟩ := @destPull_consumed _
    { w₁ with store := (destFileOf outB emitted.1 w₁.store).2 } (k + 2) reader' hlast (hread k)
    hsucceeds₁ (by omega)
  obtain ⟨s, w₃, hsecond⟩ :=
    @FileStream.next_pipe_error _ _ (Sliced.dest (k + 2) outB) _ _ [] [] _ _ _ _ _ _ _ _
      hnext (dest_eq hprepares' (k + 2) w₁) hpull
  obtain ⟨w₄, n, st, hfails⟩ :=
    @FileStream.Collects.error _ _ (fun _ => false) _ _ s [] _ w₃ err rfl hsecond
  cases (hcollects.eq hfails).1

/-- The run ends without a file where the first stage aborts. -/
theorem not_chainWrites_first (h : ¬ Prepares outA file) (bytes : Bytes) :
    ¬ ChainWrites outA outB file w bytes := by
  intro hwrites
  obtain ⟨N, hN⟩ := hwrites.writes
  obtain ⟨last, w', hcollects, -⟩ := hN N (Nat.le_refl N)
  obtain ⟨s, hfile, hclose⟩ := FileStream.next_fileStream_over file (none : Option World)
  obtain ⟨m, s₁, hfirst, hclose₁⟩ := @FileStream.next_pipe_empty _ _ (Sliced.dest N outA) _ _ [] []
    _ _ _ _ _ _ _ _ _ _ (FileStream.next_fileStream file (some w)) (dest_aborts h N w) rfl hfile
    hclose
  obtain ⟨s₂, hsecond, -⟩ :=
    @FileStream.next_pipe_done _ _ (Sliced.dest N outB) _ _ [] [] _ _ _ hfirst hclose₁
  obtain ⟨k, st, hover⟩ :=
    @FileStream.Collects.done _ _ (fun _ => false) _ _ _ [] _ _ rfl hsecond
  cases (hcollects.eq hover).1

/-- So it does where the second one aborts, though the first one has written. -/
theorem not_chainWrites_second (hprepares : Prepares outA file)
    (h : Yields w.store file.contents cs) (hsucceeds : ∀ before a, w.disk.succeeds before a = true)
    (hprepares' : ¬ Prepares outB (destFileOf outA file w.store).1) (bytes : Bytes) :
    ¬ ChainWrites outA outB file w bytes := by
  intro hwrites
  obtain ⟨N, hN⟩ := hwrites.writes
  have hle := Nat.le_add_left ((destFileOf outA file w.store).2.streams.length + cs.length) N
  obtain ⟨last, w', hcollects, -⟩ := hN (N + _) (Nat.le_add_right N _)
  generalize N + ((destFileOf outA file w.store).2.streams.length + cs.length) = n
    at hle hcollects
  obtain ⟨calls, w₁, hnext, -⟩ := @next_firstStage outA file w cs n hprepares h hsucceeds (.inr hle)
  obtain ⟨s, hfile, hclose⟩ := FileStream.next_fileStream_over file (none : Option World)
  have hgone : destPull n {} [(destFileOf outA file w.store).1] 1 none = (.ok none, none) := rfl
  obtain ⟨m, s₁, hfirst, hclose₁⟩ := @FileStream.next_pipe_over _ _ (Sliced.dest n outA) _ _ [] calls
    _ _ _ _ _ _ hgone hfile hclose
  obtain ⟨k, s₂, hsecond, -⟩ := @FileStream.next_pipe_empty _ _ (Sliced.dest n outB) _ _ [] []
    _ _ _ _ _ _ _ _ _ _ hnext (dest_aborts hprepares' n w₁) rfl hfirst hclose₁
  obtain ⟨k, st, hover⟩ :=
    @FileStream.Collects.done _ _ (fun _ => false) _ _ _ [] _ _ rfl hsecond
  cases (hcollects.eq hover).1

end Chain

/-- Two destinations write the same contents exactly when these are buffered and no
slice of either `with_dest_file` aborts. -/
theorem chainWrites_iff {outA outB : String} {file : VinylFile Nat Nat} {w : World} {cs : List Bytes}
    (h : Yields w.store file.contents cs) (hsucceeds : ∀ before a, w.disk.succeeds before a = true) :
    ChainWrites outA outB file w cs.flatten ↔ isBuffered file.contents = true ∧
      Prepares outA file ∧ Prepares outB (destFileOf outA file w.store).1 := by
  by_cases hprepares : Prepares outA file
  · by_cases hprepares' : Prepares outB (destFileOf outA file w.store).1
    · rw [and_iff_left ⟨hprepares, hprepares'⟩]
      cases hcontents : file.contents with
      | null => exact absurd hcontents h.ne_null
      | buffer bytes =>
          rw [hcontents] at h
          cases h
          rw [List.flatten_singleton]
          exact iff_of_true (chainWrites_buffer hcontents hsucceeds hprepares hprepares') rfl
      | stream i =>
          exact iff_of_false (not_chainWrites_stream hcontents h hsucceeds hprepares hprepares' _)
            (by simp [isBuffered])
    · exact iff_of_false (not_chainWrites_second hprepares h hsucceeds hprepares' _)
        fun hall => hprepares' hall.2.2
  · exact iff_of_false (not_chainWrites_first hprepares _) fun hall => hprepares hall.2.1

theorem plainTexts_namedFile (contents : VinylContents Nat) :
    PlainTexts { namedFile with contents } :=
  ⟨(by decide : IsBmp "/src"), fun path hpath => Option.some.inj hpath ▸ (by decide : IsBmp "/src/a.txt"),
    nofun, nofun⟩

theorem chainWrites_bytes :
    ChainWrites "/a" "/b" { namedFile with contents := .buffer [0x61] } (streamWorld []) [0x61] := by
  have hplain := plainTexts_namedFile (.buffer [0x61])
  exact (@chainWrites_iff "/a" "/b" { namedFile with contents := .buffer [0x61] } (streamWorld [])
    [[0x61]] (.buffer [0x61]) fun _ _ => rfl).mpr ⟨rfl, hplain.prepares (by decide),
      (hplain.destFileOf (by decide) _).prepares (by decide)⟩

/-- The second destination finds the stream of the first one consumed. -/
theorem not_chainWrites_chunk :
    ¬ ChainWrites "/a" "/b" { namedFile with contents := .stream 0 } (streamWorld [[0x61]]) [0x61] := by
  have hplain := plainTexts_namedFile (.stream 0)
  exact not_chainWrites_stream rfl (.stream (delivers_streamWorld [[0x61]])) (fun _ _ => rfl)
    (hplain.prepares (by decide)) ((hplain.destFileOf (by decide) _).prepares (by decide)) [0x61]

end Mulp.VinylFs
