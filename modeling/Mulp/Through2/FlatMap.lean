import Mulp.Lib.Bisim
import Mulp.Stream.OnceEach
import Mulp.Through2.Vinyl

/-! A transform of each file beside one of the whole stream (`through2/file.mbt`,
`through2/vinyl.mbt`, `through2/facade.mbt`).

The one opens an array stream for the outputs of every file, the other keeps them
in a buffer. Both are the flat map of the upstream. -/
namespace Mulp.Through2

open Mulp.Core Mulp.Stream Mulp.Stream.FileStream Mulp.Vinyl Mulp.VinylFs Pull

variable {ω α : Type}

/-! ## The transforms -/

/-- `through_files_flat` and `through_vinyl_flat`. -/
def throughFlat (flatMap : α → ω → Except MulpError (List α) × ω) (file : α) (w : ω) :
    FileStream ω α × ω :=
  match flatMap file w with
  | (.ok files, w) => (fileStream files, w)
  | (.error err, w) => (errorStream err, w)

/-- `empty_file_flush` and `empty_vinyl_flush`. -/
def emptyFlush (w : ω) : Except MulpError (List α) × ω := (.ok [], w)

def throughFilesFlat
    (flatMap : File (ByteStream ω) → ω → Except MulpError (List (File (ByteStream ω))) × ω) :
    File (ByteStream ω) → ω → FileStream ω (File (ByteStream ω)) × ω :=
  throughFlat flatMap

def objectTransformFilesFlat
    (flatMap : File (ByteStream ω) → ω → Except MulpError (List (File (ByteStream ω))) × ω)
    (flush : Option (ω → Except MulpError (List (File (ByteStream ω))) × ω)) :
    FileStream ω (File (ByteStream ω)) → FileStream ω (File (ByteStream ω)) :=
  match flush with
  | some flush => throughFileStreamFlatWithFlush flatMap flush
  | none => throughFileStreamFlatWithFlush flatMap emptyFlush

def throughVinylFlat
    (flatMap : VinylFile (ByteStream ω) (ReplayableStream ω) → ω →
      Except MulpError (List (VinylFile (ByteStream ω) (ReplayableStream ω))) × ω) :
    VinylFile (ByteStream ω) (ReplayableStream ω) → ω → VinylFileStream ω × ω :=
  throughFlat flatMap

def objectTransformVinylFlat
    (flatMap : VinylFile (ByteStream ω) (ReplayableStream ω) → ω →
      Except MulpError (List (VinylFile (ByteStream ω) (ReplayableStream ω))) × ω)
    (flush : Option (ω →
      Except MulpError (List (VinylFile (ByteStream ω) (ReplayableStream ω))) × ω)) :
    VinylFileStream ω → VinylFileStream ω :=
  match flush with
  | some flush => throughVinylStreamFlatWithFlush flatMap flush
  | none => throughVinylStreamFlatWithFlush flatMap emptyFlush

/-- `FileStream::pipe_stream` and `VinylFileStream::pipe_stream`. -/
def pipeStream (self : FileStream ω α) (transform : FileStream ω α → FileStream ω α) :
    FileStream ω α :=
  transform self

/-! ## What is seen of them -/

/-- The answers of the upstream to the calls that a pipe made. -/
def PipeCall.answer : PipeCall α → List (FileReply α)
  | .upstream (some r) => [r]
  | _ => []

/-- The file that `flat_map` is called on after an answer. -/
def mappedFile : FileReply α → List α
  | .ok (some file) => [file]
  | _ => []

def upstreamOf : FileStream ω α → Option (FileStream ω α)
  | .pipe st _ _ => some st.upstream
  | .through st _ => some st.upstream
  | _ => none

/-- The answers of the upstream so far, one for each pull of it. -/
def upstreamAnswers : FileStream ω α → List (FileReply α)
  | .pipe st _ _ => st.calls.flatMap PipeCall.answer
  | .through st _ => answered st.events
  | _ => []

/-- The files that `flat_map` was called on: a pipe calls its transform on every
file of the upstream. -/
def mappedFiles : FileStream ω α → List α
  | .pipe st _ _ => (st.calls.flatMap PipeCall.answer).flatMap mappedFile
  | .through st _ => st.events.flatMap fun
      | .mapped file _ => [file]
      | _ => []
  | _ => []

/-! ## The flat map of an upstream -/

section Abstract

variable (flatMap : α → ω → Except MulpError (List α) × ω)

/-- A call on the flat map of an upstream, with outputs that are still to be handed
out: the reply, what the upstream answered, and the upstream, the outputs and the
world after it. -/
inductive Gives : FileStream ω α → List α → ω → FileReply α → List (FileReply α) →
    FileStream ω α → List α → ω → Prop
  | pending {u x rest w} : Gives u (x :: rest) w (.ok (some x)) [] u rest w
  | outputs {n u w x u' w' xs w'' r answers v rest w₁}
      (hnext : u.next n w = (some (.ok (some x)), u', w')) (hmap : flatMap x w' = (.ok xs, w''))
      (hrest : Gives u' xs w'' r answers v rest w₁) :
      Gives u [] w r (.ok (some x) :: answers) v rest w₁
  | refused {n u w x u' w' err w''} (hnext : u.next n w = (some (.ok (some x)), u', w'))
      (hmap : flatMap x w' = (.error err, w'')) :
      Gives u [] w (.error err) [.ok (some x)] u' [] w''
  | ended {n u w u' w'} (hnext : u.next n w = (some (.ok none), u', w')) :
      Gives u [] w (.ok none) [.ok none] u' [] w'
  | failed {n u w err u' w'} (hnext : u.next n w = (some (.error err), u', w')) :
      Gives u [] w (.error err) [.error err] u' [] w'

/-- A flat map as an object: its upstream, what that has answered, and the outputs
to be handed out, while it is open. -/
structure FlatMapped (ω α : Type) where
  upstream : FileStream ω α
  answers : List (FileReply α)
  pending : Option (List α)

/-- A call of `next`. -/
inductive FlatMapped.Next : FlatMapped ω α → ω → FileReply α → FlatMapped ω α → ω → Prop
  | closed {u log w} : Next ⟨u, log, none⟩ w (.ok none) ⟨u, log, none⟩ w
  | goesOn {u log pending w r answers u' pending' w'}
      (h : Gives flatMap u pending w r answers u' pending' w') (hend : r.isEnd = false) :
      Next ⟨u, log, some pending⟩ w r ⟨u', log ++ answers, some pending'⟩ w'
  | ends {u log pending w r answers u' pending' w'}
      (h : Gives flatMap u pending w r answers u' pending' w') (hend : r.isEnd = true) :
      Next ⟨u, log, some pending⟩ w r ⟨(u'.close w').1, log ++ answers, none⟩ (u'.close w').2

/-- A call of `close`. -/
def FlatMapped.close (m : FlatMapped ω α) (w : ω) : FlatMapped ω α × ω :=
  match m.pending with
  | some _ => (⟨(m.upstream.close w).1, m.answers, none⟩, (m.upstream.close w).2)
  | none => (m, w)

/-- Streams that stand for flat maps: their calls are those of what they stand for. A call of the
stream may return with enough fuel only, and a call of the flat map is a relation; so it is said in
both directions which calls return. -/
structure Implements (stands : FileStream ω α → FlatMapped ω α → Prop) : Prop where
  returns : ∀ {s m n w r s' w'}, stands s m → s.next n w = (some r, s', w') →
    ∃ r' m' w'', m.Next flatMap w r' m' w''
  next : ∀ {s m w r m' w'}, stands s m → m.Next flatMap w r m' w' →
    ∃ n s', s.next n w = (some r, s', w') ∧ stands s' m'
  close : ∀ {s m} w, stands s m →
    stands (s.close w).1 (m.close w).1 ∧ (s.close w).2 = (m.close w).2

variable {flatMap}

theorem Implements.forth {stands : FileStream ω α → FlatMapped ω α → Prop}
    (h : Implements flatMap stands) {s s' : FileStream ω α} {m : FlatMapped ω α} {n : Nat}
    {w w' : ω} {r : FileReply α} (hs : stands s m) (hnext : s.next n w = (some r, s', w')) :
    ∃ m', m.Next flatMap w r m' w' ∧ stands s' m' := by
  obtain ⟨r', m', w'', hstep⟩ := h.returns hs hnext
  obtain ⟨k, s'', hnext', hs'⟩ := h.next hs hstep
  obtain ⟨rfl, rfl, rfl⟩ := Machine.next_unique (M := machine ω α) hnext hnext'
  exact ⟨m', hstep, hs'⟩

/-- Two kinds of streams that stand for the same flat maps. -/
theorem Implements.bisimulation {stands stands' : FileStream ω α → FlatMapped ω α → Prop}
    (h : Implements flatMap stands) (h' : Implements flatMap stands') :
    (machine ω α).Bisimulation (machine ω α) fun s t => ∃ m, stands s m ∧ stands' t m := by
  constructor
  · rintro s t n w r s' w' ⟨m, hs, ht⟩ hnext
    obtain ⟨m', hstep, hs'⟩ := h.forth hs hnext
    obtain ⟨k, t', hnext', ht'⟩ := h'.next ht hstep
    exact ⟨k, t', hnext', m', hs', ht'⟩
  · rintro s t n w r t' w' ⟨m, hs, ht⟩ hnext
    obtain ⟨m', hstep, ht'⟩ := h'.forth ht hnext
    obtain ⟨k, s', hnext', hs'⟩ := h.next hs hstep
    exact ⟨k, s', hnext', m', hs', ht'⟩
  · rintro s t w ⟨m, hs, ht⟩
    obtain ⟨hs', hworld⟩ := h.close w hs
    obtain ⟨ht', hworld'⟩ := h'.close w ht
    exact ⟨⟨_, hs', ht'⟩, hworld.trans hworld'.symm⟩

end Abstract

/-! ## The pipe -/

/-- What the inner stream of a pipe is still to hand out. There may be an inner stream with nothing
left, which is dropped at the next pull only. -/
def Remaining (current : Option (FileStream ω α)) (pending : List α) : Prop :=
  (current = none ∧ pending = []) ∨
    ∃ files j, current = some (pulled (filesPull files) j) ∧ files.drop j = pending

/-- A pipe stands for the flat map of its upstream. -/
inductive PipeStands (flatMap : α → ω → Except MulpError (List α) × ω) :
    FileStream ω α → FlatMapped ω α → Prop
  | opened {u current dropped calls pending} (h : Remaining current pending) :
      PipeStands flatMap (.pipe ⟨u, current, dropped, calls⟩ (throughFlat flatMap) .unused)
        ⟨u, calls.flatMap PipeCall.answer, some pending⟩
  | closed {u current dropped calls latch} (h : latch.closed = true) :
      PipeStands flatMap (.pipe ⟨u, current, dropped, calls⟩ (throughFlat flatMap) latch)
        ⟨u, calls.flatMap PipeCall.answer, none⟩

section Pipe

variable {flatMap : α → ω → Except MulpError (List α) × ω} {u v current : FileStream ω α}
  {pending rest files : List α} {dropped : List (FileStream ω α)} {calls : List (PipeCall α)}
  {r : FileReply α} {answers : List (FileReply α)} {w w' w'' : ω} {n j : Nat} {x : α}
  {err : MulpError}

theorem throughFlat_ok (h : flatMap x w = (.ok files, w')) :
    throughFlat flatMap x w = (pulled (filesPull files) 0, w') := by
  rw [throughFlat, h]
  rfl

theorem throughFlat_error (h : flatMap x w = (.error err, w')) :
    throughFlat flatMap x w = (errorStream err, w') := by
  rw [throughFlat, h]

theorem next_errorStream (err : MulpError) (w : ω) :
    ∃ s : FileStream ω α, (errorStream err).next 1 w = (some (.error err), s, w) ∧
      ∀ w, s.close w = (s, w) := by
  exact @next_pulled_end ω α (fun _ w => (.error err, w)) 0 w w (.error err) rfl rfl

/-- Closing the inner stream does nothing to the world. -/
def Quiet (current : Option (FileStream ω α)) : Prop := ∀ w, (closeCurrent current w).2 = w

theorem Remaining.quiet {current : Option (FileStream ω α)} (h : Remaining current pending) :
    Quiet current := by
  rcases h with ⟨rfl, -⟩ | ⟨files, j, rfl, -⟩ <;> intro w <;> rfl

theorem quiet_of_closed (h : ∀ w, v.close w = (v, w)) : Quiet (some v) := by
  intro w
  rw [closeCurrent, h]

theorem remaining_files (files : List α) :
    Remaining (some (pulled (filesPull files) 0 : FileStream ω α)) files :=
  .inr ⟨files, 0, rfl, rfl⟩

/-- The loop of a pipe comes to this reply, and what it has left behind stands for the same flat map
again: what the inner stream hands out is what is pending there. -/
def PipeReaches (flatMap : α → ω → Except MulpError (List α) × ω) (u : FileStream ω α)
    (current : Option (FileStream ω α)) (dropped : List (FileStream ω α))
    (calls : List (PipeCall α)) (w : ω) (r : FileReply α) (answers : List (FileReply α)) (v : FileStream ω α) (rest : List α)
    (w' : ω) : Prop :=
  ∃ n current' dropped' calls',
    loop (pipeTurn (next n) close (throughFlat flatMap)) n ⟨u, current, dropped, calls⟩ w =
      (some r, ⟨v, current', dropped', calls'⟩, w') ∧
    (r.isEnd = false → Remaining current' rest) ∧ Quiet current' ∧
    calls'.flatMap PipeCall.answer = calls.flatMap PipeCall.answer ++ answers

theorem pipeTurn_mono {n m : Nat} (hle : n ≤ m) :
    BodyAgrees (pipeTurn (next n) close (throughFlat flatMap))
      (pipeTurn (next m) close (throughFlat flatMap)) := pipeTurn_agrees (next_agrees hle)

/-- A turn after which the loop goes on. -/
theorem PipeReaches.after {u' : FileStream ω α} {current current' : Option (FileStream ω α)}
    {dropped' : List (FileStream ω α)} {calls' : List (PipeCall α)}
    {first answers' : List (FileReply α)}
    (hturn : pipeTurn (next n) close (throughFlat flatMap) ⟨u, current, dropped, calls⟩ w =
      (.again, ⟨u', current', dropped', calls'⟩, w'))
    (hcalls : calls'.flatMap PipeCall.answer = calls.flatMap PipeCall.answer ++ first)
    (h : PipeReaches flatMap u' current' dropped' calls' w' r answers v rest w'')
    (hanswers : answers' = first ++ answers) :
    PipeReaches flatMap u current dropped calls w r answers' v rest w'' := by
  obtain ⟨k, current₁, dropped₁, calls₁, hloop, hremaining, hquiet, hlog⟩ := h
  refine ⟨_, current₁, dropped₁, calls₁, loop_after pipeTurn_mono hturn hloop, hremaining,
    hquiet, ?_⟩
  rw [hlog, hcalls, hanswers, List.append_assoc]

/-- A turn that replies. -/
theorem PipeReaches.now {current current' : Option (FileStream ω α)}
    {dropped' : List (FileStream ω α)} {calls' : List (PipeCall α)}
    (hturn : pipeTurn (next n) close (throughFlat flatMap) ⟨u, current, dropped, calls⟩ w =
      (.reply r, ⟨v, current', dropped', calls'⟩, w'))
    (hremaining : r.isEnd = false → Remaining current' rest) (hquiet : Quiet current')
    (hcalls : calls'.flatMap PipeCall.answer = calls.flatMap PipeCall.answer ++ answers) :
    PipeReaches flatMap u current dropped calls w r answers v rest w' :=
  ⟨_, current', dropped', calls', loop_now pipeTurn_mono hturn, hremaining, hquiet, hcalls⟩

/-- An inner stream that has nothing left is dropped first. -/
theorem PipeReaches.of_none {current : Option (FileStream ω α)} (hcurrent : Remaining current [])
    (h : ∀ dropped calls, PipeReaches flatMap u none dropped calls w r answers v rest w') :
    PipeReaches flatMap u current dropped calls w r answers v rest w' := by
  rcases hcurrent with ⟨rfl, -⟩ | ⟨files, j, rfl, hdrop⟩
  · exact h dropped calls
  · obtain ⟨s, hnext, hclose⟩ := next_pulled_end (filesPull_over hdrop w) rfl
    have hturn : pipeTurn (next 1) close (throughFlat flatMap)
        ⟨u, some (pulled (filesPull files) j), dropped, calls⟩ w = _ := pipeTurn_drop hnext
    rw [hclose] at hturn
    refine .after hturn ?_ (h _ _) (List.nil_append answers).symm
    simp [PipeCall.answer]

theorem PipeReaches.of_gives (h : Gives flatMap u pending w r answers v rest w')
    {current : Option (FileStream ω α)} (hcurrent : Remaining current pending) :
    PipeReaches flatMap u current dropped calls w r answers v rest w' := by
  induction h generalizing current dropped calls with
  | pending =>
      rcases hcurrent with ⟨-, hnil⟩ | ⟨files, j, rfl, hdrop⟩
      · cases hnil
      · obtain ⟨hpull, hrest⟩ := filesPull_drop hdrop _
        refine .now (pipeTurn_deliver (next_pulled_item hpull)) (fun _ => ?_) (fun _ => rfl) ?_
        · exact .inr ⟨files, j + 1, rfl, hrest⟩
        · simp [PipeCall.answer]
  | @outputs n u w _ _ _ _ _ _ _ _ _ _ hnext hmap hrest ih =>
      refine .of_none hcurrent fun dropped calls => ?_
      have hturn : pipeTurn (next n) close (throughFlat flatMap) ⟨u, none, dropped, calls⟩ w = _ :=
        pipeTurn_open hnext
      rw [throughFlat_ok hmap] at hturn
      refine .after hturn ?_ (ih (remaining_files _)) (List.singleton_append).symm
      simp [PipeCall.answer]
  | @refused n u w _ _ _ err w'' hnext hmap =>
      refine .of_none hcurrent fun dropped calls => ?_
      have hturn : pipeTurn (next n) close (throughFlat flatMap) ⟨u, none, dropped, calls⟩ w = _ :=
        pipeTurn_open hnext
      rw [throughFlat_error hmap] at hturn
      -- the error is the first reply of the stream that was opened for the file
      obtain ⟨s, herror, hclose⟩ := @next_errorStream ω α err w''
      refine .after hturn ?_ (.now (pipeTurn_inner_error herror) nofun (quiet_of_closed hclose) ?_)
        (List.append_nil _).symm
      · simp [PipeCall.answer]
      · simp [PipeCall.answer]
  | ended hnext =>
      refine .of_none hcurrent fun dropped calls => ?_
      refine .now (pipeTurn_over hnext) nofun (fun _ => rfl) ?_
      simp [PipeCall.answer]
  | failed hnext =>
      refine .of_none hcurrent fun dropped calls => ?_
      refine .now (pipeTurn_upstream_error hnext) nofun (fun _ => rfl) ?_
      simp [PipeCall.answer]

/-- A loop of a pipe that replies is a call on the flat map. -/
theorem gives_of_pipe_loop {k : Nat} {st : PipeState (FileStream ω α) α} {w w' : ω}
    {current : Option (FileStream ω α)} {dropped : List (FileStream ω α)}
    {calls : List (PipeCall α)}
    (h : loop (pipeTurn (next k) close (throughFlat flatMap)) n ⟨u, current, dropped, calls⟩ w =
      (some r, st, w')) (hcurrent : Remaining current pending) :
    ∃ r' answers v rest w'', Gives flatMap u pending w r' answers v rest w'' := by
  induction n generalizing u current dropped calls pending w with
  | zero => cases h
  | succ n ih =>
      cases pending with
      | cons x rest => exact ⟨_, _, _, _, _, .pending⟩
      | nil =>
          rcases hcurrent with ⟨rfl, -⟩ | ⟨files, j, rfl, hdrop⟩
          · rcases hn : u.next k w with ⟨_ | (err | _ | x), u', w₁⟩
            · rw [loop, pipeTurn, hn] at h
              cases h
            · exact ⟨_, _, _, _, _, .failed hn⟩
            · exact ⟨_, _, _, _, _, .ended hn⟩
            · rcases hmap : flatMap x w₁ with ⟨err | xs, w₂⟩
              · exact ⟨_, _, _, _, _, .refused hn hmap⟩
              · rw [loop_again (pipeTurn_open hn), throughFlat_ok hmap] at h
                obtain ⟨r', answers, v, rest, w'', hgives⟩ := ih h (remaining_files xs)
                exact ⟨_, _, _, _, _, .outputs hn hmap hgives⟩
          · cases k with
            | zero =>
                rw [loop, pipeTurn, next] at h
                cases h
            | succ k =>
                obtain ⟨s, hnext, hclose⟩ := next_pulled_end (filesPull_over hdrop w) rfl
                have hturn := next_eq hnext (Nat.succ_le_succ (Nat.zero_le k))
                rw [loop_again (pipeTurn_drop hturn), hclose] at h
                exact ih h (.inl ⟨rfl, rfl⟩)

theorem piped_stands (s : FileStream ω α) :
    PipeStands flatMap (s.piped (throughFlat flatMap)) ⟨s, [], some []⟩ := by
  exact .opened (.inl ⟨rfl, rfl⟩)

theorem close_pipe_quiet {current : Option (FileStream ω α)} (hquiet : Quiet current) (w : ω) :
    (pipe ⟨u, current, dropped, calls⟩ (throughFlat flatMap) .unused).close w =
      (.pipe ⟨(u.close w).1, (closeCurrent current w).1, dropped, calls⟩ (throughFlat flatMap)
        Latch.unused.close, (u.close w).2) := by
  rw [close_pipe rfl]
  simp only [hquiet w]

/-- A pipe whose log is given as that of the flat map. -/
theorem PipeStands.opened_of {log : List (FileReply α)} {current : Option (FileStream ω α)}
    (hlog : calls.flatMap PipeCall.answer = log) (h : Remaining current pending) :
    PipeStands flatMap (.pipe ⟨u, current, dropped, calls⟩ (throughFlat flatMap) .unused)
      ⟨u, log, some pending⟩ := by
  rw [← hlog]
  exact .opened h

theorem PipeStands.closed_of {log : List (FileReply α)} {current : Option (FileStream ω α)}
    (hlog : calls.flatMap PipeCall.answer = log) :
    PipeStands flatMap (.pipe ⟨u, current, dropped, calls⟩ (throughFlat flatMap) Latch.unused.close)
      ⟨u, log, none⟩ := by
  rw [← hlog]
  exact .closed rfl

theorem pipe_implements (flatMap : α → ω → Except MulpError (List α) × ω) :
    Implements flatMap (PipeStands flatMap) := by
  constructor
  · intro s m n w r s' w' hs hnext
    cases hs with
    | closed => exact ⟨_, _, _, .closed⟩
    | @opened u current dropped calls pending hcurrent =>
        cases n with
        | zero => cases hnext
        | succ n =>
            have hreply := congrArg Prod.fst hnext
            rw [next_pipe, settled_fst] at hreply
            have hloop : loop (pipeTurn (next n) close (throughFlat flatMap)) n
                ⟨u, current, dropped, calls⟩ w = (some r, _, _) := Prod.ext hreply rfl
            obtain ⟨r', answers, v, rest, w'', hgives⟩ := gives_of_pipe_loop hloop hcurrent
            cases hend : r'.isEnd with
            | true => exact ⟨_, _, _, .ends hgives hend⟩
            | false => exact ⟨_, _, _, .goesOn hgives hend⟩
  · intro s m w r m' w' hs hstep
    cases hs with
    | @closed u current dropped calls latch hlatch =>
        cases hstep
        have hclosed :
            (pipe ⟨u, current, dropped, calls⟩ (throughFlat flatMap) latch).closed = true := hlatch
        exact ⟨1, _, next_of_closed hclosed 0 w, .closed hlatch⟩
    | @opened u current dropped calls pending hcurrent =>
        have hreaches {r answers v rest w'}
            (hgives : Gives flatMap u pending w r answers v rest w') :
            PipeReaches flatMap u current dropped calls w r answers v rest w' :=
          .of_gives hgives hcurrent
        cases hstep with
        | goesOn hgives hend =>
            obtain ⟨n, current', dropped', calls', hloop, hremaining, -, hlog⟩ := hreaches hgives
            refine ⟨n + 1, .pipe ⟨_, current', dropped', calls'⟩ (throughFlat flatMap) .unused, ?_,
              .opened_of hlog (hremaining hend)⟩
            rw [next_pipe, hloop]
            exact settled_of_not_end (by rintro _ ⟨⟩; exact hend)
        | @ends _ _ _ _ _ _ v _ w' hgives hend =>
            obtain ⟨n, current', dropped', calls', hloop, -, hquiet, hlog⟩ := hreaches hgives
            refine ⟨n + 1, .pipe ⟨(v.close w').1, (closeCurrent current' w').1, dropped', calls'⟩
              (throughFlat flatMap) Latch.unused.close, ?_, .closed_of hlog⟩
            rw [next_pipe, hloop, Outcome.map, settled_end hend, close_pipe_quiet hquiet]
  · intro s m w hs
    cases hs with
    | @closed u current dropped calls latch hlatch =>
        have hclosed :
            (pipe ⟨u, current, dropped, calls⟩ (throughFlat flatMap) latch).closed = true := hlatch
        rw [close_of_closed hclosed]
        exact ⟨.closed hlatch, rfl⟩
    | opened hcurrent =>
        rw [close_pipe_quiet hcurrent.quiet]
        exact ⟨.closed rfl, rfl⟩

end Pipe

/-! ## The adapter -/

/-- An adapter without a flush stands for the flat map of its upstream. -/
inductive ThroughStands (flatMap : α → ω → Except MulpError (List α) × ω) :
    FileStream ω α → FlatMapped ω α → Prop
  | opened {u buffer index events} :
      ThroughStands flatMap
        (.through ⟨u, flatMap, emptyFlush, buffer, index, false, false, events⟩ .unused)
        ⟨u, answered events, some (buffer.drop index)⟩
  | closed {u buffer index ended flushed events latch} (h : latch.closed = true) :
      ThroughStands flatMap
        (.through ⟨u, flatMap, emptyFlush, buffer, index, ended, flushed, events⟩ latch)
        ⟨u, answered events, none⟩

section Through

variable {flatMap : α → ω → Except MulpError (List α) × ω} {u v : FileStream ω α}
  {pending rest buffer : List α} {events : List (Event α)} {r : FileReply α}
  {answers : List (FileReply α)} {w w' w'' : ω} {n index : Nat} {x : α} {err : MulpError}

theorem turn_mono {n m : Nat} (hle : n ≤ m) :
    BodyAgrees (ThroughState.turn (next n) close : ThroughState (FileStream ω α) ω α → ω → _)
      (ThroughState.turn (next m) close) := ThroughState.turn_agrees (next_agrees hle)

section Turns

variable {next : FileStream ω α → ω → Outcome (FileReply α) (FileStream ω α) ω}
  {close : FileStream ω α → ω → FileStream ω α × ω} {ended flushed : Bool}

theorem turn_pending (hdrop : buffer.drop index = x :: rest) :
    ThroughState.turn next close
      ⟨u, flatMap, emptyFlush, buffer, index, ended, flushed, events⟩ w =
      (.reply (.ok (some x)), ⟨u, flatMap, emptyFlush, buffer, index + 1, ended, flushed,
        events ++ [.delivered x]⟩, w) := by
  have hget : buffer[index]? = some x := by
    rw [← List.head?_drop, hdrop]
    rfl
  simp only [ThroughState.turn, ThroughState.nextPending, hget]

variable (hdrop : buffer.drop index = [])

include hdrop

theorem turn_outputs {xs : List α} (hnext : next u w = (some (.ok (some x)), v, w'))
    (hmap : flatMap x w' = (.ok xs, w'')) :
    ThroughState.turn next close
      ⟨u, flatMap, emptyFlush, buffer, index, false, false, events⟩ w =
      (.again, ⟨v, flatMap, emptyFlush, xs, 0, false, false,
        events ++ [.pull, .mapped x (.ok xs)]⟩, w'') := by
  have hget : buffer[index]? = none := List.getElem?_eq_none (List.drop_eq_nil_iff.mp hdrop)
  simp [ThroughState.turn, ThroughState.nextPending, hget, hnext, hmap]

theorem turn_refused (hnext : next u w = (some (.ok (some x)), v, w'))
    (hmap : flatMap x w' = (.error err, w'')) :
    ThroughState.turn next close
      ⟨u, flatMap, emptyFlush, buffer, index, false, false, events⟩ w =
      (.reply (.error err), ⟨(close v w'').1, flatMap, emptyFlush, [], 0, false, false,
        events ++ [.pull, .mapped x (.error err)]⟩, (close v w'').2) := by
  have hget : buffer[index]? = none := List.getElem?_eq_none (List.drop_eq_nil_iff.mp hdrop)
  simp [ThroughState.turn, ThroughState.nextPending, hget, hnext, hmap]

theorem turn_ended (hnext : next u w = (some (.ok none), v, w')) :
    ThroughState.turn next close
      ⟨u, flatMap, emptyFlush, buffer, index, false, false, events⟩ w =
      (.again, ⟨v, flatMap, emptyFlush, [], 0, true, false, events ++ [.pull, .ended]⟩, w') := by
  have hget : buffer[index]? = none := List.getElem?_eq_none (List.drop_eq_nil_iff.mp hdrop)
  simp [ThroughState.turn, ThroughState.nextPending, hget, hnext]

theorem turn_failed (hnext : next u w = (some (.error err), v, w')) :
    ThroughState.turn next close
      ⟨u, flatMap, emptyFlush, buffer, index, false, false, events⟩ w =
      (.reply (.error err), ⟨v, flatMap, emptyFlush, [], 0, false, false,
        events ++ [.pull, .failed err]⟩, w') := by
  have hget : buffer[index]? = none := List.getElem?_eq_none (List.drop_eq_nil_iff.mp hdrop)
  simp [ThroughState.turn, ThroughState.nextPending, hget, hnext]

theorem turn_stuck (hnext : next u w = (none, v, w')) :
    ThroughState.turn next close
      ⟨u, flatMap, emptyFlush, buffer, index, false, false, events⟩ w =
      (.stuck, ⟨v, flatMap, emptyFlush, [], 0, false, false, events ++ [.pull]⟩, w') := by
  have hget : buffer[index]? = none := List.getElem?_eq_none (List.drop_eq_nil_iff.mp hdrop)
  simp [ThroughState.turn, ThroughState.nextPending, hget, hnext]

end Turns

/-- The end of the upstream is told after the flush, which has nothing to add. -/
theorem loop_finished (u : FileStream ω α) (events : List (Event α)) (w : ω) :
    loop (ThroughState.turn (next 2) close) 2
      ⟨u, flatMap, emptyFlush, [], 0, true, false, events⟩ w =
      (some (.ok none), ⟨u, flatMap, emptyFlush, [], 0, true, true,
        events ++ [.flushed (.ok [])] ++ [.finished]⟩, w) := by
  have hflush : ThroughState.turn (next 2) close
      ⟨u, flatMap, emptyFlush, [], 0, true, false, events⟩ w =
      (.again, ⟨u, flatMap, emptyFlush, [], 0, true, true, events ++ [.flushed (.ok [])]⟩, w) := rfl
  rw [loop_again hflush]
  exact loop_reply rfl

/-- The loop of an adapter comes to this reply. An error of `flat_map` has closed the upstream
already, where the flat map closes it with the reply; so of that case it is said that closing comes
to the same. -/
def ThroughReaches (flatMap : α → ω → Except MulpError (List α) × ω) (u : FileStream ω α)
    (buffer : List α) (index : Nat) (events : List (Event α)) (w : ω) (r : FileReply α)
    (answers : List (FileReply α)) (v : FileStream ω α) (rest : List α) (w' : ω) : Prop :=
  ∃ n u₁ buffer₁ index₁ ended flushed events₁ w₁,
    loop (ThroughState.turn (next n) close) n
      ⟨u, flatMap, emptyFlush, buffer, index, false, false, events⟩ w =
      (some r, ⟨u₁, flatMap, emptyFlush, buffer₁, index₁, ended, flushed, events₁⟩, w₁) ∧
    (r.isEnd = false → u₁ = v ∧ w₁ = w' ∧ ended = false ∧ flushed = false ∧
      buffer₁.drop index₁ = rest) ∧
    (r.isEnd = true → u₁.close w₁ = v.close w') ∧
    answered events₁ = answered events ++ answers

theorem ThroughReaches.of_gives (h : Gives flatMap u pending w r answers v rest w')
    (hdrop : buffer.drop index = pending) :
    ThroughReaches flatMap u buffer index events w r answers v rest w' := by
  induction h generalizing buffer index events with
  | @pending u x rest w =>
      have hrest : buffer.drop (index + 1) = rest := by
        rw [← List.drop_drop, hdrop]
        rfl
      refine ⟨_, _, _, _, _, _, _, _, loop_now turn_mono (n := 0) (turn_pending hdrop), ?_, ?_,
        ?_⟩
      · exact fun _ => ⟨rfl, rfl, rfl, rfl, hrest⟩
      · intro hended
        cases hended
      · simp [answered, Event.answer]
  | @outputs _ _ _ x _ _ xs _ _ _ _ _ _ hnext hmap hrest ih =>
      obtain ⟨k, u₁, buffer₁, index₁, ended, flushed, events₁, w₁, hloop, hgoesOn, hends, hlog⟩ :=
        @ih xs (events ++ [.pull, .mapped x (.ok xs)]) 0 List.drop_zero
      refine ⟨_, _, _, _, _, _, _, _, loop_after turn_mono (turn_outputs hdrop hnext hmap) hloop,
        hgoesOn, hends, ?_⟩
      rw [hlog]
      simp [answered, Event.answer]
  | refused hnext hmap =>
      refine ⟨_, _, _, _, _, _, _, _, loop_now turn_mono (turn_refused hdrop hnext hmap), ?_,
        fun _ => ?_, ?_⟩
      · intro hopen
        cases hopen
      · exact close_of_closed (closed_close _ _) _
      · simp [answered, Event.answer]
  | @ended n u w v w' hnext =>
      refine ⟨_, _, _, _, _, _, _, _,
        loop_after turn_mono (turn_ended hdrop hnext) (loop_finished v _ w'), ?_,
        fun _ => rfl, ?_⟩
      · intro hopen
        cases hopen
      · simp [answered, Event.answer]
  | failed hnext =>
      refine ⟨_, _, _, _, _, _, _, _, loop_now turn_mono (turn_failed hdrop hnext), ?_,
        fun _ => rfl, ?_⟩
      · intro hopen
        cases hopen
      · simp [answered, Event.answer]

/-- A loop of an adapter that replies is a call on the flat map. -/
theorem gives_of_through_loop {k : Nat} {st : ThroughState (FileStream ω α) ω α}
    (h : loop (ThroughState.turn (next k) close) n
      ⟨u, flatMap, emptyFlush, buffer, index, false, false, events⟩ w = (some r, st, w')) :
    ∃ r' answers v rest w'', Gives flatMap u (buffer.drop index) w r' answers v rest w'' := by
  induction n generalizing u buffer index events w with
  | zero => cases h
  | succ n ih =>
      cases hdrop : buffer.drop index with
      | cons x rest => exact ⟨_, _, _, _, _, .pending⟩
      | nil =>
          rcases hn : u.next k w with ⟨_ | (err | _ | x), u', w₁⟩
          · rw [loop, turn_stuck hdrop hn] at h
            cases h
          · exact ⟨_, _, _, _, _, .failed hn⟩
          · exact ⟨_, _, _, _, _, .ended hn⟩
          · rcases hmap : flatMap x w₁ with ⟨err | xs, w₂⟩
            · exact ⟨_, _, _, _, _, .refused hn hmap⟩
            · rw [loop_again (turn_outputs hdrop hn hmap)] at h
              obtain ⟨r', answers, v, rest, w'', hgives⟩ := ih h
              exact ⟨_, _, _, _, _, .outputs hn hmap hgives⟩

theorem next_through (st : ThroughState (FileStream ω α) ω α) (n : Nat) (w : ω) :
    (through st .unused).next (n + 1) w =
      settled close ((loop (ThroughState.turn (next n) close) n st w).map
        fun st => through st .unused) := rfl

theorem ThroughStands.opened_of {log : List (FileReply α)} (hlog : answered events = log)
    (hdrop : buffer.drop index = pending) :
    ThroughStands flatMap
      (.through ⟨u, flatMap, emptyFlush, buffer, index, false, false, events⟩ .unused)
      ⟨u, log, some pending⟩ := by
  rw [← hlog, ← hdrop]
  exact .opened

theorem close_through_eq {ended flushed : Bool} (w : ω) :
    (through ⟨u, flatMap, emptyFlush, buffer, index, ended, flushed, events⟩ .unused).close w =
      (.through ⟨(u.close w).1, flatMap, emptyFlush, [], index, ended, flushed, events ++ [.closed]⟩
        Latch.unused.close, (u.close w).2) := close_through rfl w _

theorem ThroughStands.closed_of {log : List (FileReply α)} (hlog : answered events = log)
    {ended flushed : Bool} :
    ThroughStands flatMap
      (.through ⟨u, flatMap, emptyFlush, [], index, ended, flushed, events ++ [.closed]⟩
        Latch.unused.close) ⟨u, log, none⟩ := by
  have hclosed : answered (events ++ [.closed]) = log := by
    rw [← hlog]
    simp [answered, Event.answer]
  rw [← hclosed]
  exact .closed rfl

theorem through_implements (flatMap : α → ω → Except MulpError (List α) × ω) :
    Implements flatMap (ThroughStands flatMap) := by
  constructor
  · intro s m n w r s' w' hs hnext
    cases hs with
    | closed => exact ⟨_, _, _, .closed⟩
    | @opened u buffer index events =>
        cases n with
        | zero => cases hnext
        | succ n =>
            have hreply := congrArg Prod.fst hnext
            rw [next_through, settled_fst] at hreply
            have hloop : loop (ThroughState.turn (next n) close) n
                ⟨u, flatMap, emptyFlush, buffer, index, false, false, events⟩ w = (some r, _, _) :=
              Prod.ext hreply rfl
            obtain ⟨r', answers, v, rest, w'', hgives⟩ := gives_of_through_loop hloop
            cases hend : r'.isEnd with
            | true => exact ⟨_, _, _, .ends hgives hend⟩
            | false => exact ⟨_, _, _, .goesOn hgives hend⟩
  · intro s m w r m' w' hs hstep
    cases hs with
    | @closed u buffer index ended flushed events latch hlatch =>
        cases hstep
        have hclosed : (through ⟨u, flatMap, emptyFlush, buffer, index, ended, flushed, events⟩
            latch).closed = true := hlatch
        exact ⟨1, _, next_of_closed hclosed 0 w, .closed hlatch⟩
    | @opened u buffer index events =>
        have hreaches {r answers v rest w'}
            (hgives : Gives flatMap u (buffer.drop index) w r answers v rest w') :
            ThroughReaches flatMap u buffer index events w r answers v rest w' :=
          .of_gives hgives rfl
        cases hstep with
        | goesOn hgives hend =>
            obtain ⟨n, u₁, buffer₁, index₁, ended, flushed, events₁, w₁, hloop, hgoesOn, -, hlog⟩ :=
              hreaches hgives
            obtain ⟨rfl, rfl, rfl, rfl, hrest⟩ := hgoesOn hend
            refine ⟨n + 1, _, ?_, .opened_of hlog hrest⟩
            rw [next_through, hloop]
            exact settled_of_not_end (by rintro _ ⟨⟩; exact hend)
        | ends hgives hend =>
            obtain ⟨n, u₁, buffer₁, index₁, ended, flushed, events₁, w₁, hloop, -, hends, hlog⟩ :=
              hreaches hgives
            have hclose := hends hend
            refine ⟨n + 1, .through ⟨(u₁.close w₁).1, flatMap, emptyFlush, [], index₁, ended,
              flushed, events₁ ++ [.closed]⟩ Latch.unused.close, ?_, ?_⟩
            · rw [next_through, hloop, Outcome.map, settled_end hend, close_through_eq, hclose]
            · rw [hclose]
              exact .closed_of hlog
  · intro s m w hs
    cases hs with
    | @closed u buffer index ended flushed events latch hlatch =>
        have hclosed : (through ⟨u, flatMap, emptyFlush, buffer, index, ended, flushed, events⟩
            latch).closed = true := hlatch
        rw [close_of_closed hclosed]
        exact ⟨.closed hlatch, rfl⟩
    | opened =>
        rw [close_through_eq]
        exact ⟨.closed_of rfl, rfl⟩

end Through

/-! ## Both together -/

section Together

variable {flatMap : α → ω → Except MulpError (List α) × ω} {s : FileStream ω α} {m : FlatMapped ω α}

theorem PipeStands.seen (h : PipeStands flatMap s m) : upstreamOf s = some m.upstream ∧
    upstreamAnswers s = m.answers ∧ mappedFiles s = m.answers.flatMap mappedFile := by
  cases h <;> exact ⟨rfl, rfl, rfl⟩

/-- An adapter calls `flat_map` on every file of the upstream. -/
theorem flatMap_mapped (events : List (Event α)) :
    (events.flatMap fun
      | .mapped file _ => [file]
      | _ => []) = (answered events).flatMap mappedFile := by
  rw [answered, List.flatMap_assoc]
  refine List.flatMap_congr fun e _ => ?_
  cases e <;> rfl

theorem ThroughStands.seen (h : ThroughStands flatMap s m) : upstreamOf s = some m.upstream ∧
    upstreamAnswers s = m.answers ∧ mappedFiles s = m.answers.flatMap mappedFile := by
  cases h <;> exact ⟨rfl, rfl, flatMap_mapped _⟩

/-- The flat map is closed, or its upstream plays a script. -/
def Playing (m : FlatMapped ω α) : Prop := m.pending = none ∨ ∃ sc, Plays sc m.upstream

theorem exists_gives {sc : Script MulpError α} {u : FileStream ω α} (h : Plays sc u)
    (pending : List α) (w : ω) :
    ∃ r answers v rest w', Gives flatMap u pending w r answers v rest w' ∧
      (r.isEnd = false → ∃ left, Plays left v) := by
  -- on the script; a file without outputs leaves the call to the rest of it
  induction sc generalizing u pending w with
  | done =>
      cases pending with
      | cons x rest => exact ⟨_, _, _, _, _, .pending, fun _ => ⟨_, h⟩⟩
      | nil =>
          obtain ⟨n, u', w', hn⟩ := h w
          exact ⟨_, _, _, _, _, .ended hn, nofun⟩
  | fail err =>
      cases pending with
      | cons x rest => exact ⟨_, _, _, _, _, .pending, fun _ => ⟨_, h⟩⟩
      | nil =>
          obtain ⟨n, u', w', hn⟩ := h w
          exact ⟨_, _, _, _, _, .failed hn, nofun⟩
  | item x left ih =>
      cases pending with
      | cons x rest => exact ⟨_, _, _, _, _, .pending, fun _ => ⟨_, h⟩⟩
      | nil =>
          obtain ⟨n, u', w', hn, hleft⟩ := h w
          rcases hmap : flatMap x w' with ⟨err | xs, w''⟩
          · exact ⟨_, _, _, _, _, .refused hn hmap, nofun⟩
          · obtain ⟨r, answers, v, rest, w₁, hgives, hgoesOn⟩ := ih hleft xs w''
            exact ⟨r, _, v, rest, w₁, .outputs hn hmap hgives, hgoesOn⟩

theorem Playing.exists_next (h : Playing m) (w : ω) :
    ∃ r m' w', m.Next flatMap w r m' w' ∧ Playing m' := by
  obtain ⟨u, log, _ | pending⟩ := m
  · exact ⟨_, _, _, .closed, .inl rfl⟩
  · rcases h with hclosed | ⟨sc, hplays⟩
    · cases hclosed
    · obtain ⟨r, answers, v, rest, w', hgives, hgoesOn⟩ := exists_gives hplays pending w
      cases hend : r.isEnd with
      | true => exact ⟨_, _, _, .ends hgives hend, .inl rfl⟩
      | false => exact ⟨_, _, _, .goesOn hgives hend, .inr (hgoesOn hend)⟩

theorem Playing.close (h : Playing m) (w : ω) : Playing (m.close w).1 := by
  obtain ⟨u, log, _ | pending⟩ := m
  · exact h
  · exact .inl rfl

/-- Over an upstream that plays a script every sequence of calls returns. -/
theorem Implements.exists_run {stands : FileStream ω α → FlatMapped ω α → Prop}
    (h : Implements flatMap stands) (hs : stands s m) (hplaying : Playing m) (ops : List Op)
    (w : ω) : ∃ n rs s' w', (machine ω α).run n ops s w = (some rs, s', w') := by
  refine Machine.exists_run (P := fun s => ∃ m, stands s m ∧ Playing m) ?_ ?_ ops w
    ⟨m, hs, hplaying⟩
  · rintro s w ⟨m, hs, hplaying⟩
    obtain ⟨r, m', w', hstep, hplaying'⟩ := hplaying.exists_next w
    obtain ⟨n, s', hnext, hs'⟩ := h.next hs hstep
    exact ⟨n, r, s', w', hnext, m', hs', hplaying'⟩
  · rintro s w ⟨m, hs, hplaying⟩
    exact ⟨_, (h.close w hs).1, hplaying.close w⟩

/-- No sequence of calls tells two streams over the upstream `s` apart. -/
structure Interchangeable (s first second : FileStream ω α) : Prop where
  /-- The same calls return, with the same replies and in the same world. -/
  replies : ∀ ops w rs w', (∃ n s', (machine ω α).run n ops first w = (some rs, s', w')) ↔
    ∃ n s', (machine ω α).run n ops second w = (some rs, s', w')
  /-- After the calls the upstream is the same, closed or not; it was pulled as often
  with the same answers, and `flat_map` was called on the same files. -/
  effects : ∀ ops w n n' rs rs' s₁ s₂ w₁ w₂,
    (machine ω α).run n ops first w = (some rs, s₁, w₁) →
    (machine ω α).run n' ops second w = (some rs', s₂, w₂) →
    (∃ u, upstreamOf s₁ = some u ∧ upstreamOf s₂ = some u) ∧
      upstreamAnswers s₁ = upstreamAnswers s₂ ∧ mappedFiles s₁ = mappedFiles s₂
  /-- If the upstream plays a script, every sequence of calls returns. -/
  returns : ∀ sc, Plays sc s → ∀ ops w,
    ∃ n rs s' w', (machine ω α).run n ops first w = (some rs, s', w')

theorem piped_interchangeable (s : FileStream ω α)
    (flatMap : α → ω → Except MulpError (List α) × ω) :
    Interchangeable s (s.piped (throughFlat flatMap))
      (throughFlatWithFlush flatMap emptyFlush s) := by
  have hbisim := (pipe_implements flatMap).bisimulation (through_implements flatMap)
  have hpipe : PipeStands flatMap (s.piped (throughFlat flatMap)) ⟨s, [], some []⟩ :=
    piped_stands s
  have hthrough : ThroughStands flatMap (throughFlatWithFlush flatMap emptyFlush s)
      ⟨s, [], some []⟩ := .opened
  constructor
  · intro ops w rs w'
    constructor
    · rintro ⟨n, s', hrun⟩
      obtain ⟨k, t', hrun', -⟩ := hbisim.run ⟨_, hpipe, hthrough⟩ hrun
      exact ⟨k, t', hrun'⟩
    · rintro ⟨n, s', hrun⟩
      obtain ⟨k, t', hrun', -⟩ := hbisim.symm.run ⟨_, hpipe, hthrough⟩ hrun
      exact ⟨k, t', hrun'⟩
  · intro ops w n n' rs rs' s₁ s₂ w₁ w₂ hrun hrun'
    obtain ⟨k, t, hrun'', m, hs, ht⟩ := hbisim.run ⟨_, hpipe, hthrough⟩ hrun
    obtain ⟨-, rfl, -⟩ := Machine.run_unique hrun' hrun''
    obtain ⟨hupstream, hanswers, hmapped⟩ := hs.seen
    obtain ⟨hupstream', hanswers', hmapped'⟩ := ht.seen
    exact ⟨⟨_, hupstream, hupstream'⟩, hanswers.trans hanswers'.symm, hmapped.trans hmapped'.symm⟩
  · intro sc hplays ops w
    exact (pipe_implements flatMap).exists_run hpipe (.inr ⟨sc, hplays⟩) ops w

end Together

/-- The transform of each file and that of the stream, for files and for vinyl files. -/
theorem transforms_interchangeable (ω : Type) :
    (∀ (s : FileStream ω (File (ByteStream ω))) flatMap,
      Interchangeable s (s.piped (throughFilesFlat flatMap))
        (pipeStream s (objectTransformFilesFlat flatMap none))) ∧
    ∀ (s : VinylFileStream ω) flatMap,
      Interchangeable s (s.piped (throughVinylFlat flatMap))
        (pipeStream s (objectTransformVinylFlat flatMap none)) := by
  constructor
  · intro s flatMap
    exact piped_interchangeable s flatMap
  · intro s flatMap
    exact piped_interchangeable s flatMap

end Mulp.Through2
