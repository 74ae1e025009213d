import Mulp.VinylFs.Dest
import Mulp.Stream.Pipeline
import Mulp.Stream.Placement

/-! Where `dest` and `symlink` write a file, and where they say they did
(`vinyl_fs/dest.mbt`, `stream/file.mbt`).

The path that is written to is made of texts, and the path of the emitted file is
normalized. The two are compared as places; texts are taken apart by characters, so what
is said is of runs in which no slice aborts. -/
namespace Mulp.VinylFs

open Mulp.Core Mulp.Stream Mulp.Text Mulp.Vinyl Pull Lexical

/-! ## Joins -/

theorem location_hasSuffix {dir : String} (h : hasSuffix dir "/" = true) (rel : String) :
    location (dir ++ rel) = ⟨(location dir).rooted,
      (location dir).pos.walk (location dir).rooted ((splitSlash rel).map stepOf)⟩ := by
  obtain ⟨start, rfl⟩ := hasSuffix_iff.mp h
  by_cases hstart : start = ""
  · rw [hstart, String.empty_append, location, hasPrefix_slash, splitSlash_slash]
    rfl
  · rw [location_append hstart, location_trailing hstart]

theorem location_joinDestPath {dir : String} (h : dir ≠ "") (rel : String) :
    location (joinDestPath dir rel) = ⟨(location dir).rooted,
      (location dir).pos.walk (location dir).rooted ((splitSlash rel).map stepOf)⟩ := by
  rw [joinDestPath]
  split_ifs with hrel hsuffix
  · rw [hrel]
    rfl
  · exact location_hasSuffix hsuffix rel
  · exact location_append h rel

theorem location_joinRealDestPath {dir : String} (h : dir ≠ "") (rel : String) :
    location (joinRealDestPath dir rel) = ⟨(location dir).rooted,
      (location dir).pos.walk (location dir).rooted ((splitSlash rel).map stepOf)⟩ := by
  rw [joinRealDestPath]
  split_ifs with hsuffix
  · exact location_hasSuffix hsuffix rel
  · exact location_append h rel

/-! ## The location of an entry below the base -/

section Entry

variable {d l : Location}

/-- A place with more parts has the path of the other before its own. -/
theorem text_of_parts (hl : l.rooted = d.rooted) {rest : List String}
    (hparts : Location.parts l.pos = Location.parts d.pos ++ rest)
    (hd : Location.parts d.pos ≠ []) :
    l.text = d.text ∨ ∃ rest, l.text = d.text ++ "/" ++ rest := by
  have hne : Location.parts d.pos ++ rest ≠ [] := by simp [hd]
  by_cases hnil : rest = []
  · left
    rw [Location.text, Location.text, hl, hparts, hnil, List.append_nil]
  · right
    refine ⟨joinSlash rest, ?_⟩
    rw [Location.text, Location.text, hl, hparts, if_neg hne, if_neg hd, joinSlash_append hd hnil]
    split_ifs <;> simp only [String.append_assoc]

/-- Below a place, and above one without names, there are more parts. -/
theorem parts_of_below (h : d.pos.Below l.pos ∨ d.pos.names = [] ∧ d.pos.ups ≤ l.pos.ups) :
    ∃ rest, Location.parts l.pos = Location.parts d.pos ++ rest := by
  rcases h with ⟨hups, rest, hrest⟩ | ⟨hnames, hups⟩
  · exact ⟨rest, by rw [Location.parts, Location.parts, hups, ← hrest, List.append_assoc]⟩
  · refine ⟨List.replicate (l.pos.ups - d.pos.ups) ".." ++ l.pos.names, ?_⟩
    rw [Location.parts, Location.parts, hnames, List.append_nil, ← List.append_assoc,
      ← List.replicate_add]
    congr 2
    omega

/-- A path that goes on from that of a place with names stays below it. -/
theorem below_of_text (hd : d.Proper) (hlp : l.Proper) (hl : l.rooted = d.rooted)
    (hnames : d.pos.names ≠ []) {rest : String} (h : l.text = d.text ++ "/" ++ rest) :
    d.pos.Below l.pos := by
  have hdparts : Location.parts d.pos ≠ [] := by simp [Location.parts, hnames]
  have hsegments : splitSlash l.text = splitSlash d.text ++ splitSlash rest := by
    rw [h, splitSlash_append]
  rw [splitSlash_text hd hdparts] at hsegments
  have hlparts : Location.parts l.pos ≠ [] := by
    -- otherwise the text is `/` or `.`, which has too few segments
    intro hnil
    have hlength := congrArg List.length hsegments
    have hdlength := List.length_pos_iff.mpr hdparts
    have hrlength := List.length_pos_iff.mpr (splitSlash_ne_nil rest)
    obtain ⟨_ | _, lpos⟩ := l
    · simp only [Location.text, hnil, Bool.false_eq_true, if_false, if_true] at hlength
      have hone : (splitSlash ".").length = 1 := rfl
      simp only [hone, List.length_append] at hlength
      omega
    · simp only [Location.text, hnil, if_true, joinSlash_nil, ← hl] at hlength
      have htwo : (splitSlash ("/" ++ "")).length = 2 := rfl
      simp only [htwo, List.length_append, List.length_singleton] at hlength
      omega
  rw [splitSlash_text hlp hlparts, hl, List.append_assoc] at hsegments
  have hparts := List.append_cancel_left hsegments
  simp only [Location.parts, List.append_assoc] at hparts
  have hhead {names : List String} (hproper : ∀ name ∈ names, IsName name) :
      ∀ name ∈ names.head?, name ≠ ".." :=
    fun name hname => (hproper name (List.mem_of_head? hname)).ne_dots
  have hdhead : ∀ name ∈ (d.pos.names ++ splitSlash rest).head?, name ≠ ".." := by
    rw [List.head?_append_of_ne_nil _ hnames]
    exact hhead hd.names
  obtain ⟨hups, hl⟩ := replicate_append_inj (hhead hlp.names) hdhead hparts
  exact ⟨hups, splitSlash rest, hl.symm⟩

/-- The path that `file_dest` makes below `d` for a file in `l` leads to `l` if
`l` is below `d`, or `d` has no names of its own, or by chance. -/
theorem location_entry {β : Type} {file : File β} (hd : d.Proper) (hlp : l.Proper)
    (hl : l.rooted = d.rooted) (hups : d.pos.ups ≤ l.pos.ups) (hbase : file.base = d.text)
    (hpath : file.path = l.text) :
    location (joinRealDestPath file.base file.relativePath) = l ↔
      d.pos.names = [] ∨ d.rooted = false ∧ d.pos.ups = d.pos.names.length ∨ d.pos.Below l.pos := by
  have hjoin (rel : String) : location (joinRealDestPath file.base rel) =
      ⟨d.rooted, d.pos.walk d.rooted ((splitSlash rel).map stepOf)⟩ := by
    rw [hbase, location_joinRealDestPath (text_ne_empty hd), location_text hd]
  -- `relative_path` has three branches: the base itself, below it, and anything else
  by_cases hsame : file.path = file.base
  · have hld : l = d := by rw [← location_text hlp, ← hpath, hsame, hbase, location_text hd]
    rw [relativePath_base hsame, hjoin, hld]
    exact iff_of_true rfl (.inr (.inr ⟨rfl, List.prefix_refl _⟩))
  by_cases hinside : ∃ rest, file.path = file.base ++ "/" ++ rest
  · obtain ⟨rest, hrest⟩ := hinside
    have htext : l.text = d.text ++ "/" ++ rest := by rw [← hpath, hrest, hbase]
    have hrestlocation : location (joinRealDestPath file.base rest) = l := by
      rw [hjoin, ← location_text hlp, htext, location_append (text_ne_empty hd), location_text hd]
    rw [relativePath_below hrest, hrestlocation]
    refine iff_of_true rfl ?_
    by_cases hnames : d.pos.names = []
    · exact .inl hnames
    · exact .inr (.inr (below_of_text hd hlp hl hnames htext))
  · have hdparts (h : d.pos.Below l.pos ∨ d.pos.names = [] ∧ d.pos.ups ≤ l.pos.ups) :
        Location.parts d.pos = [] := by
      by_contra hdparts
      obtain ⟨rest, hrest⟩ := parts_of_below h
      rcases text_of_parts hl hrest hdparts with htext | ⟨rest, htext⟩
      · exact hsame (by rw [hpath, hbase, htext])
      · exact hinside ⟨rest, by rw [hpath, hbase, htext]⟩
    have hnone (h : Location.parts d.pos = []) : d.pos.names = [] ∧ d.pos.ups = 0 := by
      simpa [Location.parts, and_comm] using h
    have hmk : (⟨d.rooted, d.pos.walk d.rooted l.pos.steps⟩ : Location) = l ↔
        d.pos.walk d.rooted l.pos.steps = l.pos := by
      rw [← hl]
      exact ⟨fun h => congrArg Location.pos h, fun h => by rw [h]⟩
    rw [relativePath_outside hsame fun rest hrest => hinside ⟨rest, hrest⟩, hjoin, hpath,
      walk_text hlp, hmk]
    cases hrooted : d.rooted with
    | true =>
        rw [Pos.walk_true_steps_eq_iff (hd.rooted hrooted) (hlp.rooted (hl.trans hrooted))]
        constructor
        · exact .inl
        · rintro (hnames | ⟨hfalse, -⟩ | hbelow)
          · exact hnames
          · cases hfalse
          · exact (hnone (hdparts (.inl hbelow))).1
    | false =>
        rw [Pos.walk_steps_eq_iff hups]
        constructor
        · exact fun h => .inr (.inl ⟨rfl, h⟩)
        · rintro (hnames | ⟨-, h⟩ | hbelow)
          · rw [(hnone (hdparts (.inr ⟨hnames, hups⟩))).2, hnames]
            rfl
          · exact h
          · obtain ⟨hnames, hzero⟩ := hnone (hdparts (.inl hbelow))
            rw [hzero, hnames]
            rfl

end Entry

/-! ## Accesses -/

/-- The file time, set where there is one. -/
theorem setMtime_rule {path : String} {w : World} (P : World → Prop) (mtimeMs : Option Int)
    (h : P w)
    (hcall : ∀ w a err, a.path = path → P w → P (w.onDisk (·.access a) err).2) :
    P (match mtimeMs with
      | some mtimeMs => w.onDisk (·.access (.setMtime path mtimeMs))
          (.fileSystemError ("cannot update file time: " ++ path))
      | none => (.ok (), w)).2 := by
  cases mtimeMs with
  | none => exact h
  | some mtimeMs => exact hcall w _ _ rfl h

/-- What the calls of `apply_written_metadata` preserve, it preserves. -/
theorem applyWrittenMetadata_rule {file : VinylFile Nat Nat} {w : World} (P : World → Prop)
    (wrote : Bool) (h : P w)
    (hcall : ∀ w a err, a.path = pathText file → P w → P (w.onDisk (·.access a) err).2) :
    P (applyWrittenMetadata file wrote w).2 := by
  rw [applyWrittenMetadata]
  split_ifs
  · exact h
  · cases file.stat with
    | none => exact h
    | some stat =>
        have htime {w : World} (h : P w) := setMtime_rule P stat.mtimeMs h hcall
        dsimp only
        cases stat.mode with
        | none => exact htime h
        | some mode =>
            have hmode := hcall w (.chmod (pathText file) mode)
              (.fileSystemError ("cannot chmod file: " ++ pathText file)) rfl h
            dsimp only
            rcases hchmod : w.onDisk (·.access (.chmod (pathText file) mode))
              (.fileSystemError ("cannot chmod file: " ++ pathText file)) with ⟨_ | _, w₁⟩ <;>
              rw [hchmod] at hmode
            · exact hmode
            · exact htime hmode

/-- What has been accessed between two worlds is at the place of the path. An access is a call with
a path, whatever it does there, so this also is about a call that fails. -/
def Accessed (path : String) (w w' : World) : Prop :=
  ∃ new, w'.disk.accesses = w.disk.accesses ++ new ∧ ∀ a ∈ new, location a.path = location path

namespace Accessed

variable {path : String} {w w₁ w₂ : World}

theorem refl (path : String) (w : World) : Accessed path w w := ⟨[], by simp, by simp⟩

theorem of_eq (h : w₁.disk.accesses = w.disk.accesses) : Accessed path w w₁ :=
  ⟨[], by simp [h], by simp⟩

theorem trans (h₁ : Accessed path w w₁) (h₂ : Accessed path w₁ w₂) : Accessed path w w₂ := by
  obtain ⟨new₁, heq₁, hnew₁⟩ := h₁
  obtain ⟨new₂, heq₂, hnew₂⟩ := h₂
  refine ⟨new₁ ++ new₂, by rw [heq₂, heq₁, List.append_assoc], fun a ha => ?_⟩
  rcases List.mem_append.mp ha with ha | ha
  · exact hnew₁ a ha
  · exact hnew₂ a ha

/-- A call on the disk makes its access. -/
theorem onDisk (w : World) (a : Access) (err : MulpError) (h : location a.path = location path) :
    Accessed path w (w.onDisk (·.access a) err).2 := by
  refine ⟨[a], ?_, by simpa using h⟩
  simp only [World.onDisk, Disk.access]
  cases w.disk.grants a <;> rfl

theorem applyWrittenMetadata (file : VinylFile Nat Nat) (wrote : Bool) (w : World) :
    Accessed (pathText file) w (VinylFs.applyWrittenMetadata file wrote w).2 := by
  refine applyWrittenMetadata_rule (Accessed (pathText file) w) wrote (refl _ w) ?_
  intro w' a err ha h
  exact h.trans (onDisk w' a err (by rw [ha]))

theorem openDestWriter (path : String) (append overwrite : Bool) (w : World) :
    Accessed path w { w with disk := (w.disk.openDestWriter path append overwrite).2 } := by
  rw [Disk.openDestWriter]
  split_ifs
  · exact refl _ w
  · refine ⟨[.openWriter path], ?_, by simp [Access.path]⟩
    simp only [Disk.openFile, Disk.access]
    cases w.disk.grants (.openWriter path) <;> rfl

theorem writerWrite_accesses (d : Disk) (writer : Writer) (chunk : Bytes) :
    (d.writerWrite writer chunk).2.accesses = d.accesses := by
  cases writer <;> rfl

theorem writeVinylBytes (path : String) (contents : Bytes) (options : DestOptions) (w : World) :
    Accessed path w (VinylFs.writeVinylBytes path contents options w).2 := by
  have hopen := openDestWriter path options.append options.overwrite w
  simp only [VinylFs.writeVinylBytes]
  rcases hwriter : w.disk.openDestWriter path options.append options.overwrite with ⟨writer, disk⟩
  rw [hwriter] at hopen
  cases writer with
  | failed => exact hopen
  | skipped => exact hopen
  | opened file => exact hopen.trans (of_eq rfl)

/-- The loop of the two stream writers accesses nothing. -/
theorem writeTurn_loop (n m i : Nat) (path : String) (writer : Writer) (w : World) :
    (loop (writeTurn m i path writer) n () w).2.2.disk.accesses = w.disk.accesses := by
  refine @loop_rule TaskResult Unit World (writeTurn m i path writer) () w
    (fun _ w' => w'.disk.accesses = w.disk.accesses)
    (fun _ _ w' => w'.disk.accesses = w.disk.accesses) (fun _ _ h => h) ?_ n rfl
  rintro ⟨⟩ w' h
  have hwrite := fun chunk => writerWrite_accesses w'.disk writer chunk
  simp only [writeTurn]
  rcases w'.store.readNext m i with ⟨_ | (err | _ | chunk), store⟩
  · exact h
  · exact h
  · exact h
  · have hchunk := hwrite chunk
    dsimp only
    rcases hcall : w'.disk.writerWrite writer chunk with ⟨_ | _, disk⟩
    · rw [hcall] at hchunk
      exact hchunk.trans h
    · rw [hcall] at hchunk
      exact hchunk.trans h

theorem writeVinylStream (n : Nat) (path : String) (stream : Nat) (options : DestOptions)
    (w : World) :
    Accessed path w (VinylFs.writeVinylStream n path stream options w).2 := by
  have hopen := openDestWriter path options.append options.overwrite w
  simp only [VinylFs.writeVinylStream]
  rcases hwriter : w.disk.openDestWriter path options.append options.overwrite with ⟨writer, disk⟩
  rw [hwriter] at hopen
  cases writer with
  | failed => exact hopen
  | skipped => exact hopen
  | opened file =>
      have hloop := writeTurn_loop n n stream path (.opened file) { w with disk }
      dsimp only
      rcases hcall : loop (writeTurn n stream path (.opened file)) n () { w with disk } with
        ⟨_ | (_ | _), _, w'⟩ <;> rw [hcall] at hloop <;> exact hopen.trans (of_eq hloop)

end Accessed

/-! ## Directories and links -/

/-- The file is written as a directory or as a link. -/
def makesEntry (file : VinylFile Nat Nat) : Bool :=
  file.isDirectory || file.isSymbolic && file.symlink.isSome

/-- Other files are accessed at their paths only. -/
theorem accessed_of_not_makesEntry {file : VinylFile Nat Nat} (h : makesEntry file = false)
    (n : Nat) (options : DestOptions) (w : World) :
    Accessed (pathText file) w (destFile n options file w).2 := by
  have hwrite : Accessed (pathText file) w (writeVinylFile n file options w).2 := by
    obtain ⟨hdirectory, hlink⟩ := (Bool.or_eq_false_iff).mp h
    rw [writeVinylFile]
    split_ifs with h₁ h₂ h₃ h₄
    · exact .refl _ w
    · exact .refl _ w
    · exact .refl _ w
    · cases file.contents with
      | null => exact .refl _ w
      | buffer bytes => exact .writeVinylBytes ..
      | stream stream => exact .writeVinylStream ..
    · simp_all
  rw [destFile]
  rcases hcall : writeVinylFile n file options w with ⟨_ | (err | wrote), w'⟩ <;> rw [hcall] at hwrite
  · exact hwrite
  · exact hwrite
  · exact hwrite.trans (.applyWrittenMetadata file wrote w')

/-- The path at which a directory or a link is made. -/
def entryPath (file : VinylFile Nat Nat) : String :=
  joinRealDestPath file.base (streamFileFromVinyl file).relativePath

/-- The access that makes a directory or a link. -/
def entryAccess (file : VinylFile Nat Nat) : Access :=
  match streamContentsFromVinyl file with
  | .symlink target => .makeSymlink target (entryPath file)
  | _ => .makeDirectory (entryPath file)

theorem entryAccess_path (file : VinylFile Nat Nat) : (entryAccess file).path = entryPath file := by
  rw [entryAccess]
  split <;> rfl

/-- The world with the access made, whatever has come of it: the log of accesses is what the claim
about places is read off. -/
def entered (file : VinylFile Nat Nat) (w : World) : World :=
  { w with disk := (w.disk.access (entryAccess file)).2 }

/-- A link is left alone if there is something and nothing may be overwritten. -/
def skipsLink (file : VinylFile Nat Nat) (options : DestOptions) (w : World) : Bool :=
  file.isSymbolic && !options.overwrite && w.disk.lstat (pathText file)

variable {file : VinylFile Nat Nat}

theorem fileDestPull_entry (h : makesEntry file = true) (n : Nat) (w : World) :
    ∃ output err,
      fileDestWithOptions n file.base none (streamFileFromVinyl file) =
        .fromPull (fileDestPull n output) ∧
      fileDestPull n output 0 (some w) =
        if w.disk.grants (entryAccess file) then (.ok (some output), some (entered file w))
        else (.error err, some (entered file w)) := by
  have hdir : resolveRealDestDir file.base none = file.base := by
    rw [resolveRealDestDir]
    split_ifs <;> rfl
  have hcontents : streamContentsFromVinyl file = .directory ∨
      ∃ target, streamContentsFromVinyl file = .symlink target := by
    rw [streamContentsFromVinyl]
    split_ifs with hdirectory hsymbolic
    · exact .inl rfl
    · cases hsymlink : file.symlink with
      | none => simp [makesEntry, hdirectory, hsymlink] at h
      | some target => exact .inr ⟨target, rfl⟩
    · simp [makesEntry, hdirectory, hsymbolic] at h
  have hfile : fileDestWithOptions n file.base none (streamFileFromVinyl file) =
      .fromPull (fileDestPull n (withRealDestPath (streamFileFromVinyl file) (entryPath file))) := by
    rw [fileDestWithOptions, hdir]
    rfl
  -- a directory or a link, and either may fail on the disk
  rcases hcontents with hcontents | ⟨target, hcontents⟩
  · refine ⟨_, .fileSystemError ("cannot create directory: " ++ entryPath file), hfile, ?_⟩
    simp only [fileDestPull, writeFileContents, withRealDestPath, streamFileFromVinyl, hcontents,
      World.onDisk, Disk.access, entered, entryAccess]
    cases w.disk.grants (.makeDirectory (entryPath file)) <;> rfl
  · refine ⟨_, .fileSystemError ("cannot create symlink: " ++ entryPath file), hfile, ?_⟩
    simp only [fileDestPull, writeFileContents, withRealDestPath, streamFileFromVinyl, hcontents,
      World.onDisk, Disk.access, entered, entryAccess]
    cases w.disk.grants (.makeSymlink target (entryPath file)) <;> rfl

/-- The stream that makes the directory or the link. -/
def entryStream (n : Nat) (file : VinylFile Nat Nat) : FileStream (Option World) (File Nat) :=
  (FileStream.fileStream [streamFileFromVinyl file]).piped (fileDest n file.base)

theorem next_entryStream (h : makesEntry file = true) (n : Nat) (w : World) :
    (w.disk.grants (entryAccess file) = true ∧ ∃ x s,
      (entryStream n file).next 5 (some w) = (some (.ok (some x)), s, some (entered file w))) ∨
    w.disk.grants (entryAccess file) = false ∧ ∃ err s w',
      (entryStream n file).next 5 (some w) = (some (.error err), s, w') := by
  obtain ⟨output, err, hdest, hpull⟩ := fileDestPull_entry h n w
  have hup := FileStream.next_fileStream (streamFileFromVinyl file) (some w)
  have htransform : fileDest n file.base (streamFileFromVinyl file) (some w) =
      (.fromPull (fileDestPull n output), some w) := by
    rw [fileDest, hdest]
  by_cases hsucceeds : w.disk.grants (entryAccess file) = true
  · rw [if_pos hsucceeds] at hpull
    obtain ⟨calls, hnext⟩ := FileStream.next_pipe_item hup htransform hpull
    exact .inl ⟨hsucceeds, _, _, hnext⟩
  · rw [if_neg hsucceeds] at hpull
    obtain ⟨s, w', hnext⟩ := FileStream.next_pipe_error hup htransform hpull
    exact .inr ⟨Bool.eq_false_iff.mpr hsucceeds, err, s, w', hnext⟩

theorem isSymbolic_eq_false (h : file.isDirectory = true) : file.isSymbolic = false := by
  simp only [VinylFile.isDirectory, VinylFile.isSymbolic, VinylFile.hasKind] at h ⊢
  cases hstat : file.stat with
  | none => simp
  | some stat =>
      rw [hstat] at h
      have hkind : stat.kind = .directory := by simpa using ((Bool.and_eq_true _ _).mp h).2
      simp [hkind]

theorem writeVinylFile_makesEntry (h : makesEntry file = true) (n : Nat) (options : DestOptions)
    (w : World) :
    writeVinylFile n file options w =
      if skipsLink file options w then (some (.ok false), w)
      else
        match (entryStream n file).next n (some w) with
        | (some (.ok (some _)), _, some w) => (some (.ok true), w)
        | (some (.ok none), _, some w) => (some (.ok false), w)
        | (some (.error err), _, some w) => (some (.error err), w)
        | _ => (none, w) := by
  have hentry : file.isDirectory = true ∨ file.isSymbolic = true ∧ file.symlink.isNone = false := by
    simpa [makesEntry] using h
  have hnull : ¬ (file.isNull && !file.isDirectory && !file.isSymbolic) = true := by
    rcases hentry with hdirectory | ⟨hsymbolic, -⟩ <;> simp [*]
  have hregular : ¬ (!file.isDirectory && !file.isSymbolic) = true := by
    rcases hentry with hdirectory | ⟨hsymbolic, -⟩ <;> simp [*]
  have htarget : ¬ (file.isSymbolic && file.symlink.isNone) = true := by
    rcases hentry with hdirectory | ⟨-, hsymlink⟩
    · simp [isSymbolic_eq_false hdirectory]
    · simp [hsymlink]
  rw [writeVinylFile, if_neg hnull, if_neg htarget, if_neg hregular]
  rfl

/-- What writing a directory or a link comes to, if it is written. -/
theorem writeVinylFile_entry (h : makesEntry file = true) {n : Nat} {options : DestOptions}
    {w w' : World} {wrote : Bool}
    (hw : writeVinylFile n file options w = (some (.ok wrote), w')) :
    w' = w ∨ w' = entered file w := by
  rw [writeVinylFile_makesEntry h] at hw
  split_ifs at hw
  · cases hw
    exact .inl rfl
  · right
    -- the answer is that of the stream with enough fuel
    rcases hnext : (entryStream n file).next n (some w) with ⟨_ | r, s, w₁⟩
    · rw [hnext] at hw
      cases hw
    · have hmore := FileStream.next_eq hnext (Nat.le_max_left n 5)
      rcases next_entryStream h n w with ⟨-, x, s', hfive⟩ | ⟨-, err, s', w₂, hfive⟩
      · cases hmore.symm.trans (FileStream.next_eq hfive (Nat.le_max_right n 5))
        rw [hnext] at hw
        cases hw
        rfl
      · cases hmore.symm.trans (FileStream.next_eq hfive (Nat.le_max_right n 5))
        rw [hnext] at hw
        cases w₁ <;> cases hw

/-- It is written where it can be, unless there is a link to leave alone. -/
theorem writeVinylFile_entry_ok (h : makesEntry file = true) {options : DestOptions} {w : World}
    (hskips : skipsLink file options w = false)
    (hsucceeds : w.disk.grants (entryAccess file) = true) :
    writeVinylFile 5 file options w = (some (.ok true), entered file w) := by
  rw [writeVinylFile_makesEntry h, hskips]
  rcases next_entryStream h 5 w with ⟨-, x, s, hnext⟩ | ⟨hfails, -⟩
  · rw [hnext]
    rfl
  · rw [hsucceeds] at hfails
    cases hfails

/-! ## The file that is emitted -/

/-- Every pull that emits a file has accessed the place of the file's path and no other. A pull that
fails emits nothing, and there is nothing then to compare with. -/
def EmitsInPlace (pull : Nat → Option World → FileReply (VinylFile Nat Nat) × Option World) : Prop :=
  ∀ index w file w', pull index (some w) = (.ok (some file), some w') → Accessed (pathText file) w w'

theorem destPull_emits {n : Nat} {options : DestOptions} {files : List (VinylFile Nat Nat)}
    {index : Nat} {w w' : World} {file : VinylFile Nat Nat} :
    destPull n options files index (some w) = (.ok (some file), some w') ↔
      files[index]? = some file ∧ destFile n options file w = (some (.ok ()), w') := by
  constructor
  · intro h
    cases hfile : files[index]? with
    | none => simp [destPull, hfile] at h
    | some file' =>
        rcases hcall : destFile n options file' w with ⟨_ | (err | ⟨⟩), w₁⟩
        · simp [destPull, hfile, hcall] at h
        · simp [destPull, hfile, hcall] at h
        · simp only [destPull, hfile, hcall, Prod.mk.injEq, Except.ok.injEq, Option.some.injEq] at h
          obtain ⟨rfl, rfl⟩ := h
          exact ⟨rfl, hcall⟩
  · rintro ⟨hfile, hcall⟩
    simp only [destPull, hfile, hcall]

theorem destFile_ok {n : Nat} {options : DestOptions} {w w' : World}
    (h : destFile n options file w = (some (.ok ()), w')) :
    ∃ wrote w₁, writeVinylFile n file options w = (some (.ok wrote), w₁) ∧
      (applyWrittenMetadata file wrote w₁).2 = w' := by
  rw [destFile] at h
  rcases hcall : writeVinylFile n file options w with ⟨_ | (err | wrote), w₁⟩
  · simp [hcall] at h
  · simp [hcall] at h
  · rw [hcall] at h
    exact ⟨wrote, w₁, rfl, congrArg Prod.snd h⟩

/-- A file is emitted in place if it is no directory and no link, or its entry is
made at its path. -/
theorem accessed_of_destFile {n : Nat} {options : DestOptions} {w w' : World}
    (hplace : makesEntry file = true → location (entryPath file) = location (pathText file))
    (h : destFile n options file w = (some (.ok ()), w')) : Accessed (pathText file) w w' := by
  cases hentry : makesEntry file with
  | false =>
      have haccessed := accessed_of_not_makesEntry hentry n options w
      rw [h] at haccessed
      exact haccessed
  | true =>
      obtain ⟨wrote, w₁, hwrite, rfl⟩ := destFile_ok h
      refine Accessed.trans ?_ (.applyWrittenMetadata file wrote w₁)
      rcases writeVinylFile_entry hentry hwrite with rfl | rfl
      · exact .refl _ _
      · exact ⟨[entryAccess file], rfl, by simpa [entryAccess_path] using hplace hentry⟩

/-- A disk on which everything can be made, and nothing is yet. -/
def newDisk : Disk :=
  ⟨fun _ => none, fun _ => false, fun _ => false, fun _ _ => true, [], fun path => (location path).text⟩

theorem applyWrittenMetadata_ok (file : VinylFile Nat Nat) (wrote : Bool) {w : World}
    (h : ∀ before a, w.disk.succeeds before a = true) : (applyWrittenMetadata file wrote w).1 = .ok () := by
  rw [applyWrittenMetadata]
  split_ifs
  · rfl
  · cases file.stat with
    | none => rfl
    | some stat =>
        obtain ⟨kind, _ | mode, _ | mtimeMs⟩ := stat <;> simp [World.onDisk, Disk.access, Disk.grants, h]

/-- There is a world in which the entry of a directory or a link is made first. -/
theorem exists_entry (h : makesEntry file = true) (options : DestOptions) :
    ∃ w w' more, destFile 5 options file w = (some (.ok ()), w') ∧
      w'.disk.accesses = w.disk.accesses ++ entryAccess file :: more := by
  let w : World := ⟨.empty, newDisk⟩
  have hwrite : writeVinylFile 5 file options w = (some (.ok true), entered file w) :=
    writeVinylFile_entry_ok h (by simp [skipsLink, w, newDisk]) rfl
  have hok : (applyWrittenMetadata file true (entered file w)).1 = .ok () :=
    applyWrittenMetadata_ok file true fun _ _ => rfl
  obtain ⟨more, hmore, -⟩ := Accessed.applyWrittenMetadata file true (entered file w)
  refine ⟨w, (applyWrittenMetadata file true (entered file w)).2, more, ?_, ?_⟩
  · rw [destFile, hwrite]
    exact Prod.ext (congrArg some hok) rfl
  · rw [hmore]
    rfl

/-- When a file of the two transforms is emitted in place. -/
theorem emitsInPlace_iff (options : DestOptions) (files : List (VinylFile Nat Nat)) :
    (∀ n, EmitsInPlace (destPull n options files)) ↔
      ∀ file ∈ files, makesEntry file = true →
        location (entryPath file) = location (pathText file) := by
  constructor
  · intro h file hfile hentry
    obtain ⟨index, hindex⟩ := List.mem_iff_getElem?.mp hfile
    obtain ⟨w, w', more, hcall, haccesses⟩ := exists_entry hentry options
    obtain ⟨new, hnew, hplace⟩ := h 5 index w file w' (destPull_emits.mpr ⟨hindex, hcall⟩)
    have hmem : entryAccess file ∈ new := by
      rw [haccesses] at hnew
      rw [← List.append_cancel_left hnew]
      exact List.mem_cons_self
    rw [← entryAccess_path]
    exact hplace _ hmem
  · intro h n index w file w' hpull
    obtain ⟨hindex, hcall⟩ := destPull_emits.mp hpull
    exact accessed_of_destFile (h file (List.mem_of_getElem? hindex)) hcall

/-! ## The condition on the input -/

/-- The place that `rel` denotes from the destination directory is in it or below, or the directory
has no name, or as many names as levels above its start. -/
def InPlace (base rel : String) : Prop :=
  if base = "" then rel ≠ ""
  else
    (location base).pos.names = [] ∨
      (location base).rooted = false ∧ (location base).pos.ups = (location base).pos.names.length ∨
      (location base).pos.Below
        ((location base).pos.walk (location base).rooted ((splitSlash rel).map stepOf))

instance (base rel : String) : Decidable (InPlace base rel) :=
  inferInstanceAs (Decidable (ite _ _ _))

theorem joinDestPath_ne_empty {base : String} (h : base ≠ "") (rel : String) :
    joinDestPath base rel ≠ "" := by
  rw [joinDestPath]
  split_ifs <;> simp [h]

theorem location_entry_iff {β : Type} {file : File β} {base rel : String}
    (hbase : file.base = normalizePath base)
    (hpath : file.path = normalizePath (joinDestPath base rel)) :
    location (joinRealDestPath file.base file.relativePath) = location file.path ↔
      InPlace base rel := by
  rw [InPlace]
  split_ifs with hempty
  · rw [hempty, normalizePath_empty] at hbase
    -- the empty base is no directory: what is joined to it starts at the root
    by_cases hrel : rel = ""
    · rw [hempty, hrel] at hpath
      have hroot : ¬ location (joinRealDestPath "" "") = location "" := by decide
      have hsame : file.path = "" := hpath
      rw [relativePath_base (hsame.trans hbase.symm), hsame, hbase]
      simpa [hrel] using hroot
    · have hjoin : joinDestPath "" rel = "/" ++ rel := by
        rw [joinDestPath, if_neg hrel]
        rfl
      rw [hempty, hjoin, normalizePath_eq (by simp), Location.text,
        show (location ("/" ++ rel)).rooted = true from hasPrefix_slash rel, if_pos rfl] at hpath
      rw [relativePath_below (by rw [hbase]; simpa using hpath), hbase, hpath]
      simp [joinRealDestPath, hasSuffix, hrel]
  · have hjoin := joinDestPath_ne_empty hempty rel
    rw [normalizePath_eq hempty] at hbase
    rw [normalizePath_eq hjoin] at hpath
    have hplace := location_joinDestPath hempty rel
    have hrooted : (location (joinDestPath base rel)).rooted = (location base).rooted := by
      rw [hplace]
    have hpos : (location (joinDestPath base rel)).pos =
        (location base).pos.walk (location base).rooted ((splitSlash rel).map stepOf) := by
          rw [hplace]
    rw [hpath, location_text (location_proper _), ← hpos]
    exact location_entry (location_proper base) (location_proper _) hrooted
      (by rw [hpos]; exact Pos.ups_le_walk ..) hbase hpath

section Prepared

variable (input : VinylFile Nat Nat) (options : DestOptions) (base : String) (st : Store)

theorem isNull_withDestFile : (withDestFile input options base st).1.isNull = input.isNull := by
  rw [Bool.eq_iff_iff, isNull_iff, isNull_iff]
  exact prepareContents_null st input.contents

theorem isDirectory_withDestFile :
    (withDestFile input options base st).1.isDirectory = input.isDirectory := by
  have hkind : (withDestFile input options base st).1.hasKind .directory = input.isDirectory := by
    show decide ((if input.isDirectory = true then VinylKind.directory
      else if input.isSymbolic = true then .symbolicLink else .file) = .directory) = _
    split_ifs <;> simp_all
  rw [VinylFile.isDirectory, isNull_withDestFile, hkind, VinylFile.isDirectory]
  cases input.isNull <;> simp

theorem isSymbolic_withDestFile :
    (withDestFile input options base st).1.isSymbolic = input.isSymbolic := by
  have hkind : (withDestFile input options base st).1.hasKind .symbolicLink = input.isSymbolic := by
    show decide ((if input.isDirectory = true then VinylKind.directory
      else if input.isSymbolic = true then .symbolicLink else .file) = .symbolicLink) = _
    split_ifs with hdirectory hsymbolic
    · simp [isSymbolic_eq_false hdirectory]
    · simp [hsymbolic]
    · simp [hsymbolic]
  rw [VinylFile.isSymbolic, isNull_withDestFile, hkind, VinylFile.isSymbolic]
  cases input.isNull <;> simp

/-- The file to write is a directory or a link if the input is. -/
theorem makesEntry_withDestFile :
    makesEntry (withDestFile input options base st).1 = makesEntry input := by
  have hsymlink : (withDestFile input options base st).1.symlink =
      input.symlink.map normalizePath :=
    rfl
  rw [makesEntry, isDirectory_withDestFile, isSymbolic_withDestFile, hsymlink, Option.isSome_map,
    makesEntry]

theorem makesEntry_symlinkFile (outDir : String) :
    makesEntry (symlinkFile outDir options input st).1 = true := rfl

/-- The path of a file made without a history. -/
theorem pathText_vinylFile {args : VinylFileArgs} {path : String} (hpath : args.path = some path)
    (hhistory : args.history = []) : pathText (vinylFile args st).1 = normalizePath path := by
  have hfinal : (vinylFile args st).1.history = finalHistory (some path) [] := by
    rw [← hpath, ← hhistory]
    rfl
  rw [pathText, VinylFile.path, hfinal, finalHistory]
  by_cases h : normalizePath path = "" <;> simp [h]

theorem entry_withDestFile :
    location (entryPath (withDestFile input options base st).1) =
        location (pathText (withDestFile input options base st).1) ↔
      InPlace base input.relative :=
  @location_entry_iff Nat (streamFileFromVinyl (withDestFile input options base st).1) base _ rfl
    (pathText_vinylFile st rfl rfl)

theorem entry_symlinkFile (outDir : String) :
    location (entryPath (symlinkFile outDir options input st).1) =
        location (pathText (symlinkFile outDir options input st).1) ↔
      InPlace (resolveDestDir outDir options.cwd) input.relative :=
  @location_entry_iff Nat (streamFileFromVinyl (symlinkFile outDir options input st).1) _ _ rfl
    (pathText_vinylFile st rfl rfl)

theorem makesEntry_eq_false {file : VinylFile Nat Nat} (h : file.contents ≠ .null) :
    makesEntry file = false := by
  have hnull : file.isNull = false := Bool.eq_false_iff.mpr (mt isNull_iff.mp h)
  simp [makesEntry, VinylFile.isDirectory, VinylFile.isSymbolic, hnull]

/-- An inline source map is put into files that are no entries. -/
theorem inlineSourceMapFile_cases (file : VinylFile Nat Nat) :
    (inlineSourceMapFile file st).1 = file ∨
      makesEntry file = false ∧ makesEntry (inlineSourceMapFile file st).1 = false := by
  rw [inlineSourceMapFile]
  cases file.sourceMap with
  | none => exact .inl rfl
  | some sourceMap =>
      cases hcontents : file.contents with
      | null => exact .inl rfl
      | buffer bytes =>
          exact .inr ⟨makesEntry_eq_false (by simp [hcontents]),
            makesEntry_eq_false (by simp [VinylFile.withContents, Store.prepareContents])⟩
      | stream stream =>
          exact .inr ⟨makesEntry_eq_false (by simp [hcontents]),
            makesEntry_eq_false (by simp [VinylFile.withContents, Store.prepareContents])⟩

theorem makesEntry_sourceMapFile {file map : VinylFile Nat Nat} {location : String}
    (h : (sourceMapFile file location st).1 = some map) : makesEntry map = false := by
  rw [sourceMapFile] at h
  cases hmap : file.sourceMap with
  | none => simp [hmap] at h
  | some sourceMap =>
      cases hpath : sourceMapPath file location with
      | none => simp [hmap, hpath] at h
      | some path =>
          simp only [hmap, hpath, Prod.map_fst, Option.some.injEq] at h
          rw [← h]
          exact makesEntry_eq_false (by simp [vinylFile, Store.prepareContents])

/-- Of the files that are written for one, only that one may be an entry. -/
theorem forall_destOutputFiles (file : VinylFile Nat Nat) (P : VinylFile Nat Nat → Prop) :
    (∀ output ∈ (destOutputFiles file options st).1, makesEntry output = true → P output) ↔
      (makesEntry file = true → P file) := by
  rw [destOutputFiles]
  split_ifs
  · rcases inlineSourceMapFile_cases st file with h | ⟨hfile, houtput⟩
    · simp [h]
    · simp [hfile, houtput]
  · cases options.sourcemaps with
    | none => simp
    | some location =>
        rcases hmap : sourceMapFile file location st with ⟨_ | map, st'⟩
        · simp [hmap]
        · have hentry := makesEntry_sourceMapFile st (congrArg Prod.fst hmap)
          simp [hmap, hentry]

end Prepared

/-- The stream of a transform emits the file, and those that go with it, in place. -/
def TransformInPlace
    (transform : Nat → VinylFile Nat Nat → Option World →
      FileStream (Option World) (VinylFile Nat Nat) × Option World)
    (input : VinylFile Nat Nat) : Prop :=
  ∀ n w, ∃ pull, (transform n input (some w)).1 = .fromPull pull ∧ EmitsInPlace pull

theorem transformInPlace_pulls {input : VinylFile Nat Nat}
    {transform : Nat → VinylFile Nat Nat → Option World →
      FileStream (Option World) (VinylFile Nat Nat) × Option World}
    {options : DestOptions} {files : Store → List (VinylFile Nat Nat)}
    (h : ∀ n w, (transform n input (some w)).1 = destStream n options (files w.store)) :
    TransformInPlace transform input ↔ ∀ st, ∀ file ∈ files st, makesEntry file = true →
      location (entryPath file) = location (pathText file) := by
  simp only [← emitsInPlace_iff options]
  constructor
  · intro hplace st n
    obtain ⟨pull, hpull, hemits⟩ := hplace n ⟨st, newDisk⟩
    rw [h n ⟨st, newDisk⟩, destStream] at hpull
    have heq : destPull n options (files st) = pull := by injection hpull
    rw [heq]
    exact hemits
  · exact fun hemits n w => ⟨_, h n w, hemits w.store n⟩

/-- `dest` and `symlink` write at the path of the file they emit exactly when it
is no directory and no link, or its path stays in the destination directory. -/
theorem transformInPlace_iff (outDir : String) (options : DestOptions) (input : VinylFile Nat Nat) :
    (TransformInPlace (fun n => destWithOptions n outDir options) input ↔
      (makesEntry input = true → InPlace (resolveDestDir outDir options.cwd) input.relative)) ∧
    (TransformInPlace (fun n => symlinkWithOptions n outDir options) input ↔
      InPlace (resolveDestDir outDir options.cwd) input.relative) := by
  constructor
  · have hpulls := @transformInPlace_pulls input (fun n => destWithOptions n outDir options) options
      (fun st => (destFiles outDir options input st).1) fun n w => rfl
    rw [hpulls]
    simp only [destFiles, forall_destOutputFiles, makesEntry_withDestFile, entry_withDestFile]
    exact ⟨fun h => h .empty, fun h _ => h⟩
  · have hpulls :=
      @transformInPlace_pulls input (fun n => symlinkWithOptions n outDir options) options
        (fun st => [(symlinkFile outDir options input st).1]) fun n w => rfl
    rw [hpulls]
    simp only [List.mem_singleton, forall_eq, makesEntry_symlinkFile, forall_true_left,
      entry_symlinkFile]
    exact ⟨fun h => h .empty, fun h _ => h⟩

/-- A directory next to its base. -/
def besideBase : VinylFile Nat Nat :=
  (vinylFile { cwd := "/src", base := "/src/app", path := some "/src/shared"
               stat := some ⟨.directory, none, none⟩ } .empty).1

/-- The directory is emitted with the path `/shared` and made at `/out//shared`. -/
theorem not_transformInPlace_besideBase :
    ¬ TransformInPlace (fun n => destWithOptions n "/out" {}) besideBase := by
  have hpulls := @transformInPlace_pulls besideBase (fun n => destWithOptions n "/out" {}) {}
    (fun st => [(withDestFile besideBase {} (resolveDestDir "/out" ".") st).1]) fun n w => rfl
  rw [hpulls]
  intro h
  have hentry := (makesEntry_withDestFile besideBase {} (resolveDestDir "/out" ".") .empty).trans
    rfl
  have hplace := (entry_withDestFile besideBase {} (resolveDestDir "/out" ".") .empty).mp
    (h .empty _ List.mem_cons_self hentry)
  exact absurd hplace (by decide +kernel)

end Mulp.VinylFs
