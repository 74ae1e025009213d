import Mulp.Stream.FileDest
import Mulp.Stream.ReadAll

/-! What the stream writers leave open (`vinyl_fs/dest.mbt`, `stream/file_dest.mbt`).

Both copy a stream into a native writer, chunk by chunk. The writer is closed on every
way out, and the stream on some of them only; which of its calls fail is given with the
writer. -/
namespace Mulp.VinylFs.Release

open Mulp.Core Mulp.Stream Pull

/-! ## Native writers -/

/-- A native writer: whether it is `skipped` and has a `file` that is not `NULL`, which
writes of chunks will succeed and whether the `fclose` will. The chunks that were
written are recorded, with the numbers of the calls. -/
structure NativeWriter where
  skipped : Bool
  file : Bool
  accepts : Nat → Bool
  closes : Bool
  written : List Bytes
  writeCalls : Nat
  closeCalls : Nat

/-- How a writer comes out of `mulp_vinyl_fs_open_dest_writer` or `mulp_open_file_writer`. -/
inductive Opening where
  | failed
  | skipped
  | opened
  deriving DecidableEq

def Opening.writer (opening : Opening) (accepts : Nat → Bool) (closes : Bool) : NativeWriter :=
  ⟨opening = .skipped, opening = .opened, accepts, closes, [], 0, 0⟩

namespace NativeWriter

/-- `mulp_vinyl_fs_dest_writer_is_ready`. -/
def isReady (self : NativeWriter) : Bool := self.skipped || self.file

/-- `mulp_vinyl_fs_dest_writer_write`, and `mulp_file_writer_write` for writers that are
not skipped. -/
def write (self : NativeWriter) (chunk : Bytes) : Bool × NativeWriter :=
  if self.skipped then (true, self)
  else if !self.file then (false, self)
  else if self.accepts self.writeCalls then
    (true, { self with written := self.written ++ [chunk], writeCalls := self.writeCalls + 1 })
  else (false, { self with writeCalls := self.writeCalls + 1 })

/-- `mulp_vinyl_fs_dest_writer_close` and `mulp_file_writer_close`. -/
def close (self : NativeWriter) : Bool × NativeWriter :=
  if !self.file then (true, { self with closeCalls := self.closeCalls + 1 })
  else (self.closes, { self with file := false, closeCalls := self.closeCalls + 1 })

end NativeWriter

/-! ## The stream writers -/

variable {ω α : Type}

/-- The loop body of `write_vinyl_stream` and `write_real_file_stream`: a chunk is read and written;
at the end, and when either fails, the writer is closed. -/
def copyTurn (path : String) (done : α) (n : Nat) (p : ByteStream ω × NativeWriter) (w : ω) :
    Turn (Except MulpError α) × (ByteStream ω × NativeWriter) × ω :=
  match p.1.readNext n w with
  | (none, stream, w) => (.stuck, (stream, p.2), w)
  | (some (.ok (some chunk)), stream, w) =>
      match p.2.write chunk with
      | (true, writer) => (.again, (stream, writer), w)
      | (false, writer) => (.reply (.error (cannotWrite path)), (stream, writer.close.2), w)
  | (some (.ok none), stream, w) =>
      match p.2.close with
      | (true, writer) => (.reply (.ok done), (stream, writer), w)
      | (false, writer) => (.reply (.error (cannotWrite path)), (stream, writer), w)
  | (some (.error err), stream, w) => (.reply (.error err), (stream, p.2.close.2), w)

/-- `write_vinyl_stream`, with a writer that has been opened in one of three ways. -/
def writeVinylStream (n : Nat) (path : String) (stream : ByteStream ω) (writer : NativeWriter)
    (w : ω) : Outcome (Except MulpError Bool) (ByteStream ω × NativeWriter) ω :=
  if !writer.isReady then (some (.error (cannotWrite path)), (stream, writer), w)
  else if writer.skipped then (some (.ok false), (stream, writer.close.2), w)
  else loop (copyTurn path true n) n (stream, writer) w

def writeRealFileStream (n : Nat) (path : String) (stream : ByteStream ω) (writer : NativeWriter)
    (w : ω) : Outcome (Except MulpError Unit) (ByteStream ω × NativeWriter) ω :=
  if !writer.file then (some (.error (cannotWrite path)), (stream, writer), w)
  else loop (copyTurn path () n) n (stream, writer) w

theorem copyTurn_agrees (path : String) (done : α) {n m : Nat} (hle : n ≤ m) :
    BodyAgrees (copyTurn path done n : ByteStream ω × NativeWriter → ω → _)
      (copyTurn path done m) := by
  rintro ⟨stream, writer⟩ w hturn
  simp only [copyTurn] at hturn ⊢
  rcases hread : stream.readNext n w with ⟨_ | r, stream', w'⟩
  · simp [hread] at hturn
  · rw [ByteStream.readNext_agrees hle stream w r (by rw [hread]), hread]

/-- A stream that gives a chunk is not consumed. -/
theorem consumed_of_item {n : Nat} {s s' : ByteStream ω} {w w' : ω} {chunk : Bytes}
    (h : s.readNext n w = (some (.ok (some chunk)), s', w')) :
    s.consumed = false ∧ s'.consumed = false := by
  have hpull (next : ByteStream ω → ω → Outcome (Reply MulpError Bytes) (ByteStream ω) ω)
      (n : Nat) : (s.pull next n w).2.1.consumed = s.consumed := by
    cases s <;> rfl
  cases n with
  | zero => cases h
  | succ n =>
      rw [ByteStream.readNext] at h
      cases hconsumed : s.consumed with
      | true =>
          rw [latched_closed w hconsumed] at h
          cases h
      | false =>
          have hkeeps := hpull (ByteStream.readNext n) n
          rw [latched_open w hconsumed] at h
          rcases hcall : s.pull (ByteStream.readNext n) n w with
            ⟨_ | (err | _ | found), s'', w''⟩ <;>
            rw [hcall] at h hkeeps <;> cases h
          exact ⟨rfl, hkeeps.trans hconsumed⟩

/-! ## What a copy comes to -/

/-- The writer after a write that succeeds. -/
def NativeWriter.took (self : NativeWriter) (chunk : Bytes) : NativeWriter :=
  { self with written := self.written ++ [chunk], writeCalls := self.writeCalls + 1 }

/-- The writer takes these chunks. -/
def NativeWriter.Accepts (self : NativeWriter) (chunks : List Bytes) : Prop :=
  ∀ k < chunks.length, self.accepts (self.writeCalls + k) = true

theorem NativeWriter.accepts_cons {self : NativeWriter} {chunk : Bytes} {rest : List Bytes} :
    self.Accepts (chunk :: rest) ↔
      self.accepts self.writeCalls = true ∧ (self.took chunk).Accepts rest := by
  constructor
  · intro h
    refine ⟨h 0 (Nat.zero_lt_succ _), fun k hk => ?_⟩
    have hnext := h (k + 1) (Nat.succ_lt_succ hk)
    rwa [Nat.add_comm k 1, ← Nat.add_assoc] at hnext
  · rintro ⟨hfirst, hrest⟩ k hk
    cases k with
    | zero => exact hfirst
    | succ k =>
        have hnext : self.accepts (self.writeCalls + 1 + k) = true :=
          hrest k (Nat.lt_of_succ_lt_succ hk)
        rwa [Nat.add_comm k 1, ← Nat.add_assoc]

/-- What the loop comes to, from the stream and the writer before it: what it answers, what has been
written, and whether the stream is closed. Whether a stream has been read to its end decides on the
last one. -/
structure Copied (sc : Script MulpError Bytes) (s s' : ByteStream ω) (writer writer' : NativeWriter)
    (r : Except MulpError α) : Prop where
  sound : s'.Sound
  closeCalls : writer'.closeCalls = writer.closeCalls + 1
  ok : (∃ done, r = .ok done) ↔
    sc.ending = .ok () ∧ writer'.written = writer.written ++ sc.items ∧ writer.closes = true
  consumed : s'.consumed = true ↔ s.consumed = true ∨ writer.Accepts sc.items

theorem sound_of_read {n : Nat} {s s' : ByteStream ω} {w w' : ω}
    {r : Option (Reply MulpError Bytes)} (hs : s.Sound) (h : s.readNext n w = (r, s', w')) :
    s'.Sound := by
  have hsound := hs.readNext n w
  rwa [h] at hsound

section Turns

variable {n : Nat} {s s' : ByteStream ω} {writer : NativeWriter} {w w' : ω} {chunk : Bytes}
  (path : String) (done : α)

theorem copyTurn_end (h : s.readNext n w = (some (.ok none), s', w')) (hfile : writer.file = true) :
    copyTurn path done n (s, writer) w =
      (.reply (if writer.closes then .ok done else .error (cannotWrite path)),
        (s', writer.close.2), w') := by
  cases hcloses : writer.closes <;> simp [copyTurn, h, NativeWriter.close, hfile, hcloses]

theorem copyTurn_error {err : MulpError} (h : s.readNext n w = (some (.error err), s', w')) :
    copyTurn path done n (s, writer) w = (.reply (.error err), (s', writer.close.2), w') := by
  simp [copyTurn, h]

theorem copyTurn_taken (h : s.readNext n w = (some (.ok (some chunk)), s', w'))
    (hskipped : writer.skipped = false) (hfile : writer.file = true)
    (haccepts : writer.accepts writer.writeCalls = true) :
    copyTurn path done n (s, writer) w = (.again, (s', writer.took chunk), w') := by
  simp [copyTurn, h, NativeWriter.write, NativeWriter.took, hskipped, hfile, haccepts]

theorem copyTurn_refused (h : s.readNext n w = (some (.ok (some chunk)), s', w'))
    (hskipped : writer.skipped = false) (hfile : writer.file = true)
    (haccepts : writer.accepts writer.writeCalls = false) :
    copyTurn path done n (s, writer) w = (.reply (.error (cannotWrite path)),
      (s', { writer with file := false, writeCalls := writer.writeCalls + 1,
                         closeCalls := writer.closeCalls + 1 }), w') := by
  simp [copyTurn, h, NativeWriter.write, NativeWriter.close, hskipped, hfile, haccepts]

end Turns

theorem NativeWriter.accepts_nil (self : NativeWriter) : self.Accepts [] :=
  fun k hk => absurd hk (Nat.not_lt_zero k)

theorem NativeWriter.close_closeCalls (self : NativeWriter) :
    self.close.2.closeCalls = self.closeCalls + 1 := by
  rw [NativeWriter.close]
  split_ifs <;> rfl

theorem NativeWriter.close_written (self : NativeWriter) : self.close.2.written = self.written := by
  rw [NativeWriter.close]
  split_ifs <;> rfl

theorem copy_loop (path : String) (done : α) {sc : Script MulpError Bytes} {s : ByteStream ω}
    (hs : s.Sound) (hplays : (ByteStream.machine ω).Plays sc s) {writer : NativeWriter}
    (hskipped : writer.skipped = false) (hfile : writer.file = true) (w : ω) :
    ∃ n r s' writer' w', loop (copyTurn path done n) n (s, writer) w = (some r, (s', writer'), w') ∧
      Copied sc s s' writer writer' r := by
  have hagrees {n m : Nat} (hle : n ≤ m) :
      BodyAgrees (copyTurn path done n : ByteStream ω × NativeWriter → ω → _)
        (copyTurn path done m) :=
    copyTurn_agrees path done hle
  induction sc generalizing s writer w with
  | done =>
      obtain ⟨n, s', w', hn⟩ := hplays w
      have hn : s.readNext n w = (some (.ok none), s', w') := hn
      refine ⟨n + 1, _, _, _, _, loop_now hagrees (copyTurn_end path done hn hfile),
        sound_of_read hs hn, writer.close_closeCalls, ?_, ?_⟩
      · rw [writer.close_written, Script.items, List.append_nil]
        cases writer.closes <;> simp [Script.ending]
      · exact iff_of_true (ByteStream.consumed_of_end hn rfl) (.inr writer.accepts_nil)
  | fail err =>
      obtain ⟨n, s', w', hn⟩ := hplays w
      have hn : s.readNext n w = (some (.error err), s', w') := hn
      refine ⟨n + 1, _, _, _, _, loop_now hagrees (copyTurn_error path done hn),
        sound_of_read hs hn, writer.close_closeCalls, ?_, ?_⟩
      · simp [Script.ending]
      · exact iff_of_true (ByteStream.consumed_of_end hn rfl) (.inr writer.accepts_nil)
  | item chunk rest ih =>
      obtain ⟨n, s₁, w₁, hn, hrest⟩ := hplays w
      have hn : s.readNext n w = (some (.ok (some chunk)), s₁, w₁) := hn
      obtain ⟨hopen, hopen₁⟩ := consumed_of_item hn
      cases haccepts : writer.accepts writer.writeCalls with
      | true =>
          have hturn := copyTurn_taken path done hn hskipped hfile haccepts
          obtain ⟨m, r, s', writer', w', hloop, hcopied⟩ :=
            @ih s₁ (sound_of_read hs hn) hrest (writer.took chunk) hskipped hfile w₁
          refine ⟨_, r, s', writer', w', loop_after hagrees hturn hloop, hcopied.sound,
            hcopied.closeCalls, ?_, ?_⟩
          · have hwritten : (writer.took chunk).written ++ rest.items =
                writer.written ++ chunk :: rest.items :=
              (List.append_cons ..).symm
            rw [hcopied.ok, hwritten]
            rfl
          · rw [hcopied.consumed, Script.items, NativeWriter.accepts_cons, hopen, hopen₁, haccepts]
            simp
      | false =>
          -- the stream is left as it is
          have hturn := copyTurn_refused path done hn hskipped hfile haccepts
          refine ⟨n + 1, _, _, _, _, loop_now hagrees hturn, sound_of_read hs hn, rfl, ?_, ?_⟩
          · simp [Script.items]
          · rw [Script.items, NativeWriter.accepts_cons, hopen, hopen₁, haccepts]
            simp

/-! ## The exits -/

/-- A call that returns, given enough fuel, with this result. -/
def Returns (call : Nat → Outcome (Except MulpError α) (ByteStream ω × NativeWriter) ω)
    (post : Except MulpError α → ByteStream ω → NativeWriter → Prop) : Prop :=
  ∃ n₀ r s' writer' w', (∀ n, n₀ ≤ n → call n = (some r, (s', writer'), w')) ∧ post r s' writer'

/-- The answer says whether everything was written, and the writer is closed once if it was opened.
A write that is skipped is answered with `Ok` too. -/
structure Reports (opening : Opening) (closes : Bool) (sc : Script MulpError Bytes)
    (r : Except MulpError α) (writer' : NativeWriter) : Prop where
  ok : (∃ done, r = .ok done) ↔ opening = .skipped ∨
    opening = .opened ∧ sc.ending = .ok () ∧ writer'.written = sc.items ∧ closes = true
  closeCalls : opening = .opened → writer'.closeCalls = 1

/-- The script is read to its end: the writer is opened, and takes all chunks. -/
def ReadsOn (opening : Opening) (accepts : Nat → Bool) (sc : Script MulpError Bytes) : Prop :=
  opening = .opened ∧ ∀ k < sc.items.length, accepts k = true

section Exits

variable {sc : Script MulpError Bytes} {s : ByteStream ω} (hs : s.Sound)
  (hplays : (ByteStream.machine ω).Plays sc s) (path : String) (accepts : Nat → Bool)
  (closes : Bool) (w : ω)

include hs hplays

/-- The loop on an open writer. -/
theorem copy_opened (done : α) :
    Returns (fun n => loop (copyTurn path done n) n (s, Opening.opened.writer accepts closes) w)
      fun r s' writer' => Reports .opened closes sc r writer' ∧
        (s'.closeRuns = 1 ↔ s.consumed = true ∨ ReadsOn .opened accepts sc) := by
  obtain ⟨n₀, r, s', writer', w', hloop, hcopied⟩ :=
    @copy_loop ω α path done sc s hs hplays (Opening.opened.writer accepts closes) rfl rfl w
  refine ⟨n₀, r, s', writer', w', fun n hle => ?_, ⟨?_, fun _ => hcopied.closeCalls⟩, ?_⟩
  · have hmore := loop_agrees (copyTurn_agrees path done hle) hle
      (s, Opening.opened.writer accepts closes) w r (by rw [hloop])
    exact hmore.trans hloop
  · rw [hcopied.ok]
    simp [Opening.writer]
  · have hruns : s'.closeRuns = 1 ↔ s'.consumed = true := by
      rw [hcopied.sound.closeRuns_eq]
      cases s'.consumed <;> simp
    rw [hruns, hcopied.consumed]
    simp [ReadsOn, NativeWriter.Accepts, Opening.writer]

omit hplays in
/-- A stream that is not touched. -/
theorem closeRuns_untouched {opening : Opening} (hopening : opening ≠ .opened) :
    s.closeRuns = 1 ↔ s.consumed = true ∨ ReadsOn opening accepts sc := by
  have hreads : ¬ReadsOn opening accepts sc := fun h => hopening h.1
  rw [hs.closeRuns_eq]
  cases s.consumed <;> simp [hreads]

/-- Both writers answer as they should, and close the writer once. The stream is closed
once exactly if it is read to its end, or was closed before. -/
theorem streamWriters_close_iff (opening : Opening) :
    Returns (fun n => writeVinylStream n path s (opening.writer accepts closes) w)
        (fun r s' writer' => Reports opening closes sc r writer' ∧
          (s'.closeRuns = 1 ↔ s.consumed = true ∨ ReadsOn opening accepts sc)) ∧
      (opening ≠ .skipped →
        Returns (fun n => writeRealFileStream n path s (opening.writer accepts closes) w)
          fun r s' writer' => Reports opening closes sc r writer' ∧
            (s'.closeRuns = 1 ↔ s.consumed = true ∨ ReadsOn opening accepts sc)) := by
  cases opening with
  | failed =>
      have huntouched := @closeRuns_untouched ω sc s hs accepts .failed nofun
      have hreports {α : Type} (err : MulpError) : Reports .failed closes sc
          (.error err : Except MulpError α) (Opening.failed.writer accepts closes) :=
        ⟨by simp, nofun⟩
      constructor
      · exact ⟨0, _, _, _, _, fun _ _ => rfl, hreports _, huntouched⟩
      · exact fun _ => ⟨0, _, _, _, _, fun _ _ => rfl, hreports _, huntouched⟩
  | skipped =>
      have huntouched := @closeRuns_untouched ω sc s hs accepts .skipped nofun
      constructor
      · exact ⟨0, .ok false, _, _, _, fun _ _ => rfl, ⟨by simp, nofun⟩, huntouched⟩
      · exact fun hskipped => absurd rfl hskipped
  | opened =>
      constructor
      · exact copy_opened hs hplays path accepts closes w true
      · exact fun _ => copy_opened hs hplays path accepts closes w ()

end Exits

/-- A source of two chunks. -/
def twoChunks : ByteStream Unit := .fromBytes [[0x61], [0x62]]

/-- How often the source has been closed when a call has returned. -/
def closings (o : Outcome (Except MulpError α) (ByteStream Unit × NativeWriter) Unit) :
    Option Nat :=
  o.1.map fun _ => o.2.1.1.closeRuns

/-- The source is left open by a writer that cannot be opened, that is skipped or that
does not take a chunk. -/
theorem source_left_open :
    closings (writeVinylStream 4 "a.txt" twoChunks
        (Opening.failed.writer (fun _ => true) true) ()) = some 0 ∧
      closings (writeVinylStream 4 "a.txt" twoChunks
        (Opening.skipped.writer (fun _ => true) true) ()) = some 0 ∧
      closings (writeVinylStream 4 "a.txt" twoChunks
        (Opening.opened.writer (· = 0) true) ()) = some 0 ∧
      closings (writeRealFileStream 4 "a.txt" twoChunks
        (Opening.failed.writer (fun _ => true) true) ()) = some 0 ∧
      closings (writeRealFileStream 4 "a.txt" twoChunks
        (Opening.opened.writer (· = 0) true) ()) = some 0 := by
  decide

/-- It is closed once if both chunks are taken, even if the writer fails to close. -/
theorem source_closed : ∃ n r s' writer', writeVinylStream n "a.txt" twoChunks
      (Opening.opened.writer (fun _ => true) false) () = (some r, (s', writer'), ()) ∧
    s'.closeRuns = 1 := by
  obtain ⟨⟨n, r, s', writer', w', hcall, -, hclosed⟩, -⟩ :=
    streamWriters_close_iff (ByteStream.Built.source _ _).sound
      (ByteStream.fromBytes_plays [[0x61], [0x62]]) "a.txt" (fun _ => true) false () .opened
  exact ⟨n, r, s', writer', hcall n (Nat.le_refl n), hclosed.mpr (.inr ⟨rfl, fun _ _ => rfl⟩)⟩

end Mulp.VinylFs.Release
