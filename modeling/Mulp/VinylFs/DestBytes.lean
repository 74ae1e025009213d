import Mulp.Vinyl.Delivers
import Mulp.VinylFs.DestPath
import Mulp.VinylFs.Fixed

/-! What `dest` writes (`vinyl_fs/dest.mbt`).

A buffer is encoded before it is written, and the chunks of a stream are written as they
come. A file that is not newer than the one on the disk may be left out altogether, by
either way. -/
namespace Mulp.VinylFs

open Mulp.Core Mulp.Stream Mulp.Text Mulp.Vinyl Pull

/-! ## The writers -/

/-- What the file at the path has in it when it has just been opened, unless it is
skipped or cannot be opened. -/
def openedWith (d : Disk) (path : String) (options : DestOptions) : Option Bytes :=
  if !options.overwrite && d.stat path then none
  else if d.grants (.openWriter path) then
    some (if options.append then (d.read path).getD [] else [])
  else none

section Writers

variable {d : Disk} {path : String} {options : DestOptions} {start : Bytes} {w : World}

theorem openDestWriter_opened (h : openedWith d path options = some start) :
    d.openDestWriter path options.append options.overwrite =
      (.opened path, (d.access (.openWriter path)).2.put path start) := by
  rw [openedWith] at h
  split_ifs at h with hskip hsucceeds happend <;> cases h
  · simp only [Disk.openDestWriter, if_neg hskip, Disk.openFile, Disk.access, hsucceeds,
      if_pos happend]
  · simp only [Disk.openDestWriter, if_neg hskip, Disk.openFile, Disk.access, hsucceeds,
      if_neg happend]

/-- A file that is not opened stays as it is. -/
theorem openDestWriter_unopened (h : openedWith d path options = none) :
    ∃ disk : Disk, disk.read = d.read ∧
      (d.openDestWriter path options.append options.overwrite = (.failed, disk) ∨
        d.openDestWriter path options.append options.overwrite = (.skipped, disk)) := by
  rw [openedWith] at h
  rw [Disk.openDestWriter]
  split_ifs at h ⊢ with hskip hsucceeds
  · exact ⟨d, rfl, .inr rfl⟩
  · refine ⟨(d.access (.openWriter path)).2, rfl, .inl ?_⟩
    simp only [Disk.openFile, Disk.access, Bool.eq_false_iff.mpr hsucceeds]

theorem writeVinylBytes_opened (h : openedWith w.disk path options = some start)
    (contents : Bytes) :
    writeVinylBytes path contents options w = (.ok true,
      { w with disk := (w.disk.access (.openWriter path)).2.put path (start ++ contents) }) := by
  rw [writeVinylBytes, openDestWriter_opened h]
  simp [Disk.writerWrite, Disk.writerClose]

theorem writeVinylStream_opened {i n : Nat} {cs : List Bytes} (hi : w.store.Delivers i cs)
    (hn : w.store.streams.length + cs.length ≤ n)
    (h : openedWith w.disk path options = some start) :
    ∃ store, writeVinylStream n path i options w = (some (.ok true),
        ⟨store, (w.disk.access (.openWriter path)).2.put path (start ++ cs.flatten)⟩) ∧
      store.Consumed i := by
  have hlt := hi.lt
  obtain ⟨store, hloop, hconsumed, -⟩ := @Store.writeTurn_writes w.store i n n cs
    (w.disk.access (.openWriter path)).2 path hi (by omega) (by omega) start
  refine ⟨store, ?_, hconsumed⟩
  rw [writeVinylStream, openDestWriter_opened h]
  simp only [hloop]

theorem writeVinylBytes_unopened (h : openedWith w.disk path options = none) (contents : Bytes) :
    (writeVinylBytes path contents options w).2.disk.read = w.disk.read := by
  obtain ⟨disk, hread, hopen | hopen⟩ := openDestWriter_unopened h <;>
    simp only [writeVinylBytes, hopen, Disk.writerClose, hread]

theorem writeVinylStream_unopened (h : openedWith w.disk path options = none) (n i : Nat) :
    ∃ r w', writeVinylStream n path i options w = (some r, w') ∧ w'.disk.read = w.disk.read := by
  obtain ⟨disk, hread, hopen | hopen⟩ := openDestWriter_unopened h <;>
    simp only [writeVinylStream, hopen, Disk.writerClose, Prod.mk.injEq, Option.some.injEq] <;>
    exact ⟨_, _, ⟨rfl, rfl⟩, hread⟩

end Writers

/-! ## The file to write -/

/-- The path `dest` writes a file at. -/
def destPath (outDir : String) (options : DestOptions) (input : VinylFile Nat Nat) : String :=
  normalizePath (joinDestPath (resolveDestDir outDir options.cwd) input.relative)

/-- The footer of `inline_source_map_file`. -/
def sourceMapFooter : Option String → Bytes
  | some sourceMap => utf8Encode (inlineSourceMapComment sourceMap)
  | none => []

/-- What `dest` adds to the contents. -/
def inlinedFooter (options : DestOptions) (input : VinylFile Nat Nat) : Bytes :=
  if options.inlineSourcemaps then sourceMapFooter input.sourceMap else []

def isBuffered : VinylContents Nat → Bool
  | .buffer _ => true
  | _ => false

/-- Only buffered contents are encoded. What a stream delivers is written as it comes, and the
inlined map is added to either. -/
def writtenBytes (encoding : DestEncoding) (contents : VinylContents Nat) (bytes : Bytes) : Bytes :=
  if isBuffered contents then encodeDestBytes bytes encoding else bytes

section Prepared

variable {input file : VinylFile Nat Nat} {outDir : String} {options : DestOptions} {st : Store}
  {cs : List Bytes}

theorem isBuffered_prepareContents (st : Store) (contents : VinylContents Nat) :
    isBuffered (st.prepareContents contents).1.1 = isBuffered contents := by
  cases contents <;> rfl

/-- An inline source map comes after the contents. -/
theorem yields_inlineSourceMapFile (h : Yields st file.contents cs) :
    isBuffered (inlineSourceMapFile file st).1.contents = isBuffered file.contents ∧
      ∃ cs', Yields (inlineSourceMapFile file st).2 (inlineSourceMapFile file st).1.contents cs' ∧
        cs'.flatten = cs.flatten ++ sourceMapFooter file.sourceMap := by
  rw [inlineSourceMapFile]
  cases hmap : file.sourceMap with
  | none => exact ⟨rfl, cs, h, by simp [sourceMapFooter]⟩
  | some sourceMap =>
      cases hcontents : file.contents with
      | null => exact absurd hcontents h.ne_null
      | buffer bytes =>
          rw [hcontents] at h
          cases h
          exact ⟨rfl, _, .buffer _, by simp [sourceMapFooter]⟩
      | stream stream =>
          rw [hcontents] at h
          cases h with
          | stream h =>
              refine ⟨rfl, cs ++ [sourceMapFooter (some sourceMap)], ?_, by simp⟩
              have hnew : (appendStreamFooter stream
                  (sourceMapFooter (some sourceMap)) st).2.Delivers
                  st.streams.length (cs ++ [sourceMapFooter (some sourceMap)]) :=
                .footer (Store.addStream_self st _) h.lt
                  (h.extend (List.prefix_append _ _) (List.prefix_refl _))
              exact (Yields.stream hnew).prepareContents

theorem store_sourceMapFile (file : VinylFile Nat Nat) (location : String) (st : Store) :
    (sourceMapFile file location st).2 = st := by
  rw [sourceMapFile]
  cases file.sourceMap with
  | none => rfl
  | some sourceMap => cases sourceMapPath file location <;> rfl

/-- The first file that `dest` writes has the contents of its input. -/
theorem destFiles_head (h : Yields st input.contents cs) :
    ∃ file rest, (destFiles outDir options input st).1 = file :: rest ∧
      pathText file = destPath outDir options input ∧
      isBuffered file.contents = isBuffered input.contents ∧
      ∃ cs', Yields (destFiles outDir options input st).2 file.contents cs' ∧
        cs'.flatten = cs.flatten ++ inlinedFooter options input := by
  have hprepared : Yields (withDestFile input options (resolveDestDir outDir options.cwd) st).2
      (withDestFile input options (resolveDestDir outDir options.cwd) st).1.contents cs :=
    h.prepareContents
  have hbuffered : isBuffered
      (withDestFile input options (resolveDestDir outDir options.cwd) st).1.contents =
        isBuffered input.contents := isBuffered_prepareContents st input.contents
  have hpath : pathText (withDestFile input options (resolveDestDir outDir options.cwd) st).1 =
      destPath outDir options input := pathText_vinylFile st rfl rfl
  have hmap : (withDestFile input options (resolveDestDir outDir options.cwd) st).1.sourceMap =
      input.sourceMap := rfl
  rw [destFiles]
  generalize withDestFile input options (resolveDestDir outDir options.cwd) st = prepared at *
  obtain ⟨prepared, st'⟩ := prepared
  dsimp only at *
  rw [destOutputFiles, inlinedFooter]
  split_ifs
  -- an inlined map is a footer after the contents
  · obtain ⟨hsame, cs', hyields, hflatten⟩ := yields_inlineSourceMapFile hprepared
    refine ⟨_, [], rfl, ?_, hsame.trans hbuffered, cs', hyields, by rw [hflatten, hmap]⟩
    rw [← hpath, inlineSourceMapFile]
    cases prepared.sourceMap with
    | none => rfl
    | some sourceMap => cases prepared.contents <;> rfl
  · cases options.sourcemaps with
    | none => exact ⟨prepared, [], rfl, hpath, hbuffered, cs, hprepared, by simp⟩
    | some location =>
        have hstore := store_sourceMapFile prepared location st'
        dsimp only
        rcases hfile : sourceMapFile prepared location st' with ⟨_ | map, st''⟩ <;>
          rw [hfile] at hstore <;> cases hstore <;>
          exact ⟨prepared, _, rfl, hpath, hbuffered, cs, hprepared, by simp⟩

end Prepared

/-! ## Writing it -/

section Write

variable {file : VinylFile Nat Nat} {options : DestOptions} {w : World} {n : Nat} {cs : List Bytes}
  {start : Bytes}

theorem writeVinylFile_contents (h : file.contents ≠ .null) (n : Nat) (options : DestOptions)
    (w : World) :
    writeVinylFile n file options w =
      match file.contents with
      | .buffer bytes =>
          (writeVinylBytes (pathText file) (encodeDestBytes bytes options.encoding) options w).map
          some id
      | .stream stream => writeVinylStream n (pathText file) stream options w
      | .null => (some (.ok false), w) := by
  have hnull : file.isNull = false := Bool.eq_false_iff.mpr (mt isNull_iff.mp h)
  have hdirectory : file.isDirectory = false := by rw [VinylFile.isDirectory, hnull, Bool.false_and]
  have hsymbolic : file.isSymbolic = false := by rw [VinylFile.isSymbolic, hnull, Bool.false_and]
  cases hcontents : file.contents with
  | null => exact absurd hcontents h
  | buffer bytes =>
      simp only [writeVinylFile, hnull, hdirectory, hsymbolic, hcontents, Bool.false_and,
        Bool.not_false, Bool.and_self, Bool.false_eq_true, if_false, if_true]
  | stream stream =>
      simp only [writeVinylFile, hnull, hdirectory, hsymbolic, hcontents, Bool.false_and,
        Bool.not_false, Bool.and_self, Bool.false_eq_true, if_false, if_true]

theorem writeVinylFile_opened (h : Yields w.store file.contents cs)
    (hn : isBuffered file.contents = true ∨ w.store.streams.length + cs.length ≤ n)
    (hopen : openedWith w.disk (pathText file) options = some start) :
    ∃ store, writeVinylFile n file options w = (some (.ok true),
        ⟨store, (w.disk.access (.openWriter (pathText file))).2.put (pathText file)
          (start ++ writtenBytes options.encoding file.contents cs.flatten)⟩) ∧
      ∀ i, file.contents = .stream i → store.Consumed i := by
  rw [writeVinylFile_contents h.ne_null]
  cases hcontents : file.contents with
  | null => exact absurd hcontents h.ne_null
  | buffer bytes =>
      rw [hcontents] at h
      cases h
      refine ⟨w.store, ?_, by simp⟩
      dsimp only
      rw [writeVinylBytes_opened hopen]
      simp [writtenBytes, isBuffered]
  | stream i =>
      rw [hcontents] at h
      cases h with
      | stream h =>
          rw [hcontents] at hn
          have hn : w.store.streams.length + cs.length ≤ n := hn.resolve_left (by simp [isBuffered])
          obtain ⟨store, hwrite, hconsumed⟩ := writeVinylStream_opened h hn hopen
          refine ⟨store, hwrite, ?_⟩
          rintro _ ⟨⟩
          exact hconsumed

theorem writeVinylFile_unopened (h : file.contents ≠ .null) (n : Nat)
    (hopen : openedWith w.disk (pathText file) options = none) :
    ∃ r w', writeVinylFile n file options w = (some r, w') ∧ w'.disk.read = w.disk.read := by
  rw [writeVinylFile_contents h]
  cases hcontents : file.contents with
  | null => exact absurd hcontents h
  | buffer bytes => exact ⟨_, _, rfl, writeVinylBytes_unopened hopen _⟩
  | stream i => exact writeVinylStream_unopened hopen n i

/-- The metadata calls are recorded and change nothing else. -/
theorem applyWrittenMetadata_world (file : VinylFile Nat Nat) (wrote : Bool) (w : World) :
    ∃ accesses, (applyWrittenMetadata file wrote w).2 =
      { w with disk := { w.disk with accesses } } := by
  refine applyWrittenMetadata_rule
    (fun w' => ∃ accesses, w' = { w with disk := { w.disk with accesses } }) wrote
    ⟨w.disk.accesses, rfl⟩ ?_
  rintro _ a err - ⟨accesses, rfl⟩
  refine ⟨accesses ++ [a], ?_⟩
  simp only [World.onDisk, Disk.access]
  generalize Disk.grants _ a = granted
  cases granted <;> rfl

/-- The first pull of `dest` ends with the disk as the write has left it. -/
theorem read_destPull {rest : List (VinylFile Nat Nat)} {r : Except MulpError Bool} {w' : World}
    (h : writeVinylFile n file options w = (some r, w')) :
    (destPull n options (file :: rest) 0 (some w)).2.map (fun w => w.disk.read) =
      some w'.disk.read := by
  cases r with
  | error err => simp [destPull, destFile, h]
  | ok wrote =>
      obtain ⟨accesses, hmetadata⟩ := applyWrittenMetadata_world file wrote w'
      rcases happly : applyWrittenMetadata file wrote w' with ⟨_ | _, w''⟩ <;>
        rw [happly] at hmetadata <;> cases hmetadata <;> simp [destPull, destFile, h, happly]

/-- A call on a stream of `dest` does to the world what its pull does. -/
theorem world_next_destStream (n : Nat) (options : DestOptions) (files : List (VinylFile Nat Nat))
    (w : Option World) :
    ((destStream n options files).next 1 w).2.2 = (destPull n options files 0 w).2 := by
  rw [destStream, FileStream.fromPull_eq]
  rcases hpull : destPull n options files 0 w with ⟨_ | _ | file, w'⟩
  · obtain ⟨s, hnext, -⟩ := FileStream.next_pulled_end hpull rfl
    rw [hnext]
  · obtain ⟨s, hnext, -⟩ := FileStream.next_pulled_end hpull rfl
    rw [hnext]
  · rw [FileStream.next_pulled_item hpull]

end Write

/-! ## Buffered and streamed contents -/

section SameBytes

variable {outDir : String} {options : DestOptions} {input : VinylFile Nat Nat} {w : World}
  {cs : List Bytes} {start : Bytes}

/-- What is at the destination path after the stream of `dest` has been pulled
once, if the pull has returned. -/
def destWrites (n : Nat) (outDir : String) (options : DestOptions) (input : VinylFile Nat Nat)
    (w : World) : Option (Option Bytes) :=
  let (stream, w) := destWithOptions n outDir options input (some w)
  (stream.next 1 w).2.2.map fun w => w.disk.read (destPath outDir options input)

theorem destWrites_eq {n : Nat} {file : VinylFile Nat Nat} {rest : List (VinylFile Nat Nat)}
    {r : Except MulpError Bool} {w' : World}
    (hfiles : (destFiles outDir options input w.store).1 = file :: rest)
    (hwrite : writeVinylFile n file options
      { w with store := (destFiles outDir options input w.store).2 } = (some r, w')) :
    destWrites n outDir options input w = some (w'.disk.read (destPath outDir options input)) := by
  have hread := @read_destPull file options _ n rest r w' hwrite
  rw [destWrites, destWithOptions]
  dsimp only
  rw [world_next_destStream, hfiles]
  rcases hpull : (destPull n options (file :: rest) 0
    (some { w with store := (destFiles outDir options input w.store).2 })).2 with _ | w''
  · rw [hpull] at hread
    cases hread
  · rw [hpull] at hread
    exact congrArg (fun read => some (read (destPath outDir options input))) (Option.some.inj hread)

theorem destWrites_opened (h : Yields w.store input.contents cs)
    (hopen : openedWith w.disk (destPath outDir options input) options = some start) :
    ∃ N, ∀ n, N ≤ n → destWrites n outDir options input w = some (some (start ++
      writtenBytes options.encoding input.contents
        (cs.flatten ++ inlinedFooter options input))) := by
  obtain ⟨file, rest, hfiles, hpath, hbuffered, cs', hyields, hflatten⟩ :=
    @destFiles_head input outDir options w.store cs h
  refine ⟨(destFiles outDir options input w.store).2.streams.length + cs'.length, fun n hn => ?_⟩
  rw [← hpath] at hopen
  obtain ⟨store, hwrite, -⟩ := @writeVinylFile_opened file options
    { w with store := (destFiles outDir options input w.store).2 } n cs' start hyields (.inr hn) hopen
  rw [destWrites_eq hfiles hwrite, ← hpath, Disk.put_read_self, writtenBytes, writtenBytes,
    hbuffered, hflatten]

theorem destWrites_unopened (h : Yields w.store input.contents cs)
    (hopen : openedWith w.disk (destPath outDir options input) options = none) (n : Nat) :
    destWrites n outDir options input w = some (w.disk.read (destPath outDir options input)) := by
  obtain ⟨file, rest, hfiles, hpath, -, cs', hyields, -⟩ :=
    @destFiles_head input outDir options w.store cs h
  rw [← hpath] at hopen
  obtain ⟨r, w', hwrite, hread⟩ := @writeVinylFile_unopened file options
    { w with store := (destFiles outDir options input w.store).2 } hyields.ne_null n hopen
  rw [destWrites_eq hfiles hwrite, hread]

/-- With these contents the file and the one with the other contents come to the same bytes at the
destination path. If the file is not written, they come to the bytes that are there already, or to
none. -/
def SameBytes (outDir : String) (options : DestOptions) (input : VinylFile Nat Nat) (w : World)
    (bytes : Bytes) (i : Nat) : Prop :=
  ∃ N, ∀ n, N ≤ n → ∃ found,
    destWrites n outDir options { input with contents := .buffer bytes } w = some found ∧
    destWrites n outDir options { input with contents := .stream i } w = some found

theorem sameBytes_opened {i : Nat} (h : w.store.Delivers i cs)
    (hopen : openedWith w.disk (destPath outDir options input) options = some start) :
    SameBytes outDir options input w cs.flatten i ↔
      encodeDestBytes (cs.flatten ++ inlinedFooter options input) options.encoding =
        cs.flatten ++ inlinedFooter options input := by
  have hbuffer := @destWrites_opened outDir options { input with contents := .buffer cs.flatten } w
    _ start (.buffer cs.flatten) hopen
  have hstream := @destWrites_opened outDir options { input with contents := .stream i } w
    _ start (.stream h) hopen
  rw [List.flatten_singleton] at hbuffer
  obtain ⟨N, hN⟩ := hbuffer
  obtain ⟨M, hM⟩ := hstream
  constructor
  · rintro ⟨K, hK⟩
    obtain ⟨found, hbuffer, hstream⟩ := hK (N + M + K) (by omega)
    have heq := ((hN _ (by omega)).symm.trans hbuffer).trans (hstream.symm.trans (hM _ (by omega)))
    exact List.append_cancel_left (Option.some.inj (Option.some.inj heq))
  · intro heq
    refine ⟨N + M, fun n hn => ⟨_, hN n (by omega), (hM n (by omega)).trans ?_⟩⟩
    exact congrArg (fun written => some (some (start ++ written))) heq.symm

/-- `dest` writes the same bytes for buffered and for streamed contents exactly
when the encoding keeps them, or the file is not written. -/
theorem sameBytes_iff {i : Nat} (h : w.store.Delivers i cs) :
    SameBytes outDir options input w cs.flatten i ↔
      openedWith w.disk (destPath outDir options input) options = none ∨
        EncodingKeeps options.encoding (cs.flatten ++ inlinedFooter options input) := by
  cases hopen : openedWith w.disk (destPath outDir options input) options with
  | some start =>
      rw [sameBytes_opened h hopen, encodeDestBytes_eq_iff]
      simp
  | none =>
      have hbuffer := @destWrites_unopened outDir options
        { input with contents := .buffer cs.flatten } w
        _ (.buffer cs.flatten) hopen
      have hstream := @destWrites_unopened outDir options { input with contents := .stream i } w
        _ (.stream h) hopen
      exact iff_of_true ⟨0, fun n _ => ⟨_, hbuffer n, hstream n⟩⟩ (.inl rfl)

/-- A world with nothing but a stream of these chunks. -/
def streamWorld (chunks : List Bytes) : World := ⟨(Store.empty.addStream (.chunks chunks none 0)).2, newDisk⟩

theorem delivers_streamWorld (chunks : List Bytes) : (streamWorld chunks).store.Delivers 0 chunks :=
  Store.delivers_chunks .empty chunks

/-- A file with no contents yet. -/
def namedFile : VinylFile Nat Nat := (vinylFile { cwd := "/src", path := some "/src/a.txt" } .empty).1

theorem sameBytes_utf8 :
    SameBytes "/out" {} namedFile (streamWorld [[0x61], [0x62]]) [0x61, 0x62] 0 :=
  (sameBytes_iff (delivers_streamWorld [[0x61], [0x62]])).mpr (.inr trivial)

/-- An `a` is written as two bytes from a buffer, and as one from a stream. -/
theorem not_sameBytes_utf16 :
    ¬ SameBytes "/out" { encoding := .charset "utf16le" } namedFile (streamWorld [[0x61]]) [0x61] 0 := by
  have hopen : openedWith newDisk (destPath "/out" { encoding := .charset "utf16le" } namedFile)
      { encoding := .charset "utf16le" } = some [] := rfl
  intro h
  have heq := (sameBytes_opened (delivers_streamWorld [[0x61]]) hopen).mp h
  exact absurd heq (by decide +kernel)

end SameBytes

end Mulp.VinylFs
