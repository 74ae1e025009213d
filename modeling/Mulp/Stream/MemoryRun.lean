import Mulp.Stream.MemoryFold
import Mulp.Stream.ReadAll

/-! Runs of pipelines into a sink in memory (`stream/memory_io.mbt`,
`stream/file_stream.mbt`).

The files of a pipeline are written when they are pulled, one by each call of
`next`, until a write fails. The pipelines are numbered by a type `ι`; their
calls may come in any order. -/
namespace Mulp.Stream.Memory

open Mulp.Core Pull

variable {υ ι : Type}

/-! ## Pipelines -/

/-- The files of a stream, and the transform each of them goes through. -/
structure Pipeline where
  files : List (File Nat)
  choose : File Nat → MemoryTransform

/-- The argument of `pipe`. -/
def memoryTransform (n : Nat) (choose : File Nat → MemoryTransform) (input : File Nat)
    (w : Option (MemoryWorld υ)) :
    FileStream (Option (MemoryWorld υ)) (File Nat) × Option (MemoryWorld υ) :=
  ((choose input).stream n input, w)

/-- `file_stream(files).pipe(transform)`. -/
def Pipeline.stream (n : Nat) (pipeline : Pipeline) :
    FileStream (Option (MemoryWorld υ)) (File Nat) :=
  (FileStream.fileStream pipeline.files).piped (memoryTransform n pipeline.choose)

/-- A sequence of calls on pipelines, and the replies to its `next` calls. A call
that has not returned is the last one. -/
def runCalls [DecidableEq ι] (m : Nat) : List (ι × Op) →
    (ι → FileStream (Option (MemoryWorld υ)) (File Nat)) → Option (MemoryWorld υ) →
    Option (List (FileReply (File Nat))) × Option (MemoryWorld υ)
  | [], _, w => (some [], w)
  | (i, .close) :: ops, streams, w =>
      runCalls m ops (Function.update streams i ((streams i).close w).1) ((streams i).close w).2
  | (i, .next) :: ops, streams, w =>
      match (streams i).next m w with
      | (none, _, w) => (none, w)
      | (some r, stream, w) =>
          ((runCalls m ops (Function.update streams i stream) w).1.map (r :: ·),
            (runCalls m ops (Function.update streams i stream) w).2)

/-! ## What the calls are to do -/

/-- What a call has come to: a file that was written or failed, the end, or a close. The log is that
of all pipelines together. -/
inductive Event where
  | attempted (a : Attempt)
  | ended
  | closed

def Event.attempt : Event → Option Attempt
  | .attempted a => some a
  | _ => none

def Event.reply : Event → Option (FileReply (File Nat))
  | .attempted a => some a.reply
  | .ended => some (.ok none)
  | .closed => none

/-- What is left of a pipeline: its transform, the files that it has not attempted, and whether it
is over. -/
structure Job where
  files : List (File Nat)
  choose : File Nat → MemoryTransform
  finished : Bool

def Pipeline.job (pipeline : Pipeline) : Job := ⟨pipeline.files, pipeline.choose, false⟩

/-- A call of `next` attempts the next file, if there is one. -/
def Job.next (n : Nat) (job : Job) (w : MemoryWorld υ) : Option (Event × Job × MemoryWorld υ) :=
  if job.finished then some (.ended, job, w)
  else
    match job.files with
    | [] => some (.ended, { job with finished := true }, w)
    | input :: files =>
        (attempt n (job.choose input) input w).map fun (a, w) =>
          (.attempted a, ⟨files, job.choose, a.failed⟩, w)

/-- The events of a sequence of calls; there are none if a read has not returned. -/
def expected [DecidableEq ι] (n : Nat) : List (ι × Op) → (ι → Job) → MemoryWorld υ →
    Option (List (ι × Event) × MemoryWorld υ)
  | [], _, w => some ([], w)
  | (i, .close) :: ops, jobs, w =>
      (expected n ops (Function.update jobs i { jobs i with finished := true }) w).map fun (log, w) =>
        ((i, .closed) :: log, w)
  | (i, .next) :: ops, jobs, w =>
      match (jobs i).next n w with
      | none => none
      | some (event, job, w) =>
          (expected n ops (Function.update jobs i job) w).map fun (log, w) => ((i, event) :: log, w)

/-! ## The streams do what is expected -/

/-- The stream of a job: closed, or with the files of the job left to pull. Between two calls a pipe
may still have the inner stream of its last file, which has nothing left to give. -/
def Follows (n : Nat) (job : Job) (stream : FileStream (Option (MemoryWorld υ)) (File Nat)) : Prop :=
  if job.finished then stream.closed = true
  else ∃ files, FileStream.Stage files (memoryTransform n job.choose) job.files stream

theorem follows_start (n : Nat) (pipeline : Pipeline) :
    Follows n pipeline.job (pipeline.stream n : FileStream (Option (MemoryWorld υ)) (File Nat)) :=
  ⟨pipeline.files, FileStream.stage_start _ _⟩

section Follows

variable {n : Nat} {job job' : Job} {stream : FileStream (Option (MemoryWorld υ)) (File Nat)}
  {w w' : MemoryWorld υ} {event : Event}

theorem Follows.finished (hfinished : job.finished = true) :
    Follows n job stream ↔ stream.closed = true := by
  rw [Follows, if_pos hfinished]

theorem Follows.running (hfinished : job.finished = false) :
    Follows n job stream ↔
      ∃ files, FileStream.Stage files (memoryTransform n job.choose) job.files stream := by
  rw [Follows, if_neg (by simp [hfinished])]

theorem memoryTransform_eq (n : Nat) (choose : File Nat → MemoryTransform) (input : File Nat)
    (w : Option (MemoryWorld υ)) :
    memoryTransform n choose input w =
      (.fromPull (oncePull (memoryDestWork n ((choose input).output input) (choose input).mode
        (choose input).sourcemaps)), w) := by
  rw [memoryTransform, MemoryTransform.stream_eq]

/-- A call of `next` on the stream of a job. -/
theorem Follows.next (h : Follows n job stream) (hnext : job.next n w = some (event, job', w')) :
    ∃ r stream', event.reply = some r ∧ stream.Answers (some w) r stream' (some w') ∧
      Follows n job' stream' := by
  by_cases hfinished : job.finished = true
  · rw [Job.next, if_pos hfinished] at hnext
    cases hnext
    exact ⟨_, stream, rfl, FileStream.answers_of_closed ((Follows.finished hfinished).mp h) _, h⟩
  · rw [Job.next, if_neg hfinished] at hnext
    -- the pipe still has its files to pull
    have hrunning : job.finished = false := Bool.eq_false_iff.mpr hfinished
    obtain ⟨files, hstage⟩ := (Follows.running hrunning).mp h
    cases hleft : job.files with
    | nil =>
        rw [hleft] at hnext hstage
        cases hnext
        obtain ⟨stream', hanswers, hclosed⟩ := hstage.ended (some w)
        exact ⟨_, stream', rfl, hanswers, (Follows.finished rfl).mpr hclosed⟩
    | cons input rest =>
        rw [hleft] at hnext hstage
        obtain ⟨⟨a, w₁⟩, hattempt, heq⟩ := Option.map_eq_some_iff.mp hnext
        cases heq
        have hwork := memoryDestWork_eq n (job.choose input) input w
        rw [hattempt] at hwork
        dsimp only at hwork
        cases hresult : a.result with
        | error err =>
            have hreply : a.reply = .error err := by rw [Attempt.reply, hresult]
            have hfailed : a.failed = true := by rw [Attempt.failed, hresult]
            rw [hreply] at hwork
            obtain ⟨stream', hanswers, hclosed⟩ :=
              hstage.error (memoryTransform_eq n job.choose) hwork
            exact ⟨_, stream', congrArg some hreply, hanswers,
              (Follows.finished hfailed).mpr hclosed⟩
        | ok bytes =>
            have hreply : a.reply = .ok (some a.output) := by rw [Attempt.reply, hresult]
            have hfailed : a.failed = false := by rw [Attempt.failed, hresult]
            rw [hreply] at hwork
            obtain ⟨stream', hanswers, hstage'⟩ :=
              hstage.item (memoryTransform_eq n job.choose) hwork
            exact ⟨_, stream', congrArg some hreply, hanswers,
              (Follows.running hfailed).mpr ⟨files, hstage'⟩⟩

theorem Follows.close (h : Follows n job stream) (w : Option (MemoryWorld υ)) :
    (stream.close w).2 = w ∧ Follows n { job with finished := true } (stream.close w).1 := by
  refine ⟨?_, (Follows.finished rfl).mpr (FileStream.closed_close stream w)⟩
  by_cases hfinished : job.finished = true
  · rw [FileStream.close_of_closed ((Follows.finished hfinished).mp h)]
  · obtain ⟨files, hstage⟩ := (Follows.running (Bool.eq_false_iff.mpr hfinished)).mp h
    exact hstage.close_world w

end Follows

theorem follows_update [DecidableEq ι] {n : Nat} {jobs : ι → Job}
    {streams : ι → FileStream (Option (MemoryWorld υ)) (File Nat)}
    (h : ∀ i, Follows n (jobs i) (streams i)) {i : ι} {job : Job}
    {stream : FileStream (Option (MemoryWorld υ)) (File Nat)} (hi : Follows n job stream) (j : ι) :
    Follows n (Function.update jobs i job j) (Function.update streams i stream j) := by
  by_cases hj : j = i
  · subst hj
    simpa using hi
  · simpa [hj] using h j

/-- The calls come to the expected events. -/
theorem runCalls_eq [DecidableEq ι] {n m : Nat} (hm : 7 ≤ m) (ops : List (ι × Op)) {jobs : ι → Job}
    {streams : ι → FileStream (Option (MemoryWorld υ)) (File Nat)}
    (h : ∀ i, Follows n (jobs i) (streams i)) {w w' : MemoryWorld υ} {log : List (ι × Event)}
    (hexpected : expected n ops jobs w = some (log, w')) :
    runCalls m ops streams (some w) = (some (log.filterMap (·.2.reply)), some w') := by
  induction ops generalizing jobs streams w log with
  | nil =>
      cases hexpected
      rfl
  | cons op ops ih =>
      rcases op with ⟨i, _ | _⟩
      · -- `next`
        rw [expected] at hexpected
        rcases hnext : (jobs i).next n w with _ | ⟨event, job, w₁⟩
        · rw [hnext] at hexpected
          cases hexpected
        · rw [hnext] at hexpected
          obtain ⟨⟨log', w₂⟩, hrest, heq⟩ := Option.map_eq_some_iff.mp hexpected
          cases heq
          obtain ⟨r, stream', hreply, hanswers, hfollows⟩ := (h i).next hnext
          simp only [runCalls, hanswers m hm, ih (follows_update h hfollows) hrest, Option.map_some,
            List.filterMap_cons, hreply]
      · -- `close`
        rw [expected] at hexpected
        obtain ⟨⟨log', w₂⟩, hrest, heq⟩ := Option.map_eq_some_iff.mp hexpected
        cases heq
        obtain ⟨hworld, hfollows⟩ := (h i).close (some w)
        rw [runCalls, hworld, ih (follows_update h hfollows) hrest]
        rfl

/-! ## What a log says of a sink -/

def attempts (log : List (ι × Event)) : List Attempt := log.filterMap (·.2.attempt)

def attemptsOf [DecidableEq ι] (i : ι) (log : List (ι × Event)) : List Attempt :=
  attempts (log.filter (·.1 = i))

/-- Why a pipeline has no file to give: it has been closed, one of its writes has failed, or all its
files have been pulled. It is read off the log, so that it can be said of any moment of a run. -/
def Spent [DecidableEq ι] (pipelines : ι → Pipeline) (log : List (ι × Event)) (i : ι) : Prop :=
  (i, .closed) ∈ log ∨ (∃ a ∈ attemptsOf i log, a.failed = true) ∨
    (attemptsOf i log).length = (pipelines i).files.length

/-- The sink is a fold of the successful writes. Every pipeline attempts its files
in order and once; after a failed write it attempts none. -/
structure FoldsWrites [DecidableEq ι] (pipelines : ι → Pipeline) (log : List (ι × Event))
    (sink : MemoryDest) : Prop where
  contents : ∀ path, sink.contentsBytesFor path =
    Write.held path ((attempts log).flatMap Attempt.writes)
  files : sink.files = ((attempts log).filter (!·.failed)).map Attempt.output
  inputs : ∀ i, (attemptsOf i log).map Attempt.input <+: (pipelines i).files
  transforms : ∀ i, ∀ a ∈ attemptsOf i log, a.transform = (pipelines i).choose a.input
  failed_last : ∀ i, ∀ a ∈ (attemptsOf i log).dropLast, a.failed = false
  ended_spent : ∀ i before, before ++ [(i, .ended)] <+: log → Spent pipelines before i

section Log

theorem attempts_concat (log : List (ι × Event)) (i : ι) (event : Event) :
    attempts (log ++ [(i, event)]) = attempts log ++ event.attempt.toList := by
  rw [attempts, List.filterMap_append]
  cases event <;> rfl

/-- Nothing follows an `Ok(None)` that was not there before. -/
theorem prefix_ended {before log : List (ι × Event)} {i j : ι} {event : Event}
    (h : before ++ [(j, .ended)] <+: log ++ [(i, event)]) :
    before ++ [(j, .ended)] <+: log ∨ before = log ∧ j = i ∧ event = .ended := by
  rcases List.prefix_concat_iff.mp h with heq | hinit
  · obtain ⟨hbefore, hlast⟩ := List.append_inj' heq rfl
    cases hlast
    exact .inr ⟨hbefore, rfl, rfl⟩
  · exact .inl hinit

variable [DecidableEq ι] {pipelines : ι → Pipeline} {log : List (ι × Event)} {jobs : ι → Job}
  {sink : MemoryDest} {i j : ι} {event : Event}

theorem attemptsOf_self (log : List (ι × Event)) (i : ι) (event : Event) :
    attemptsOf i (log ++ [(i, event)]) = attemptsOf i log ++ event.attempt.toList := by
  rw [attemptsOf, List.filter_append, List.filter_cons_of_pos (by simp), List.filter_nil,
    attempts_concat]
  rfl

theorem attemptsOf_ne (log : List (ι × Event)) (h : i ≠ j) (event : Event) :
    attemptsOf j (log ++ [(i, event)]) = attemptsOf j log := by
  rw [attemptsOf, List.filter_append, List.filter_cons_of_neg (by simpa using h), List.filter_nil,
    List.append_nil]
  rfl

/-- The events so far, what is left of the pipelines, and the sink. The sink is the fold of all
attempts in the order of the log, whichever pipeline they are of; what is left of a pipeline is what
its attempts have not used. The last fields keep the order of events within a pipeline. -/
structure Kept (pipelines : ι → Pipeline) (log : List (ι × Event)) (jobs : ι → Job)
    (sink : MemoryDest) : Prop where
  sink : sink = (attempts log).foldl MemoryDest.record .empty
  choose : ∀ i, (jobs i).choose = (pipelines i).choose
  files : ∀ i, (attemptsOf i log).map Attempt.input ++ (jobs i).files = (pipelines i).files
  transforms : ∀ i, ∀ a ∈ attemptsOf i log, a.transform = (pipelines i).choose a.input
  running : ∀ i, (jobs i).finished = false → ∀ a ∈ attemptsOf i log, a.failed = false
  finished : ∀ i, (jobs i).finished = true → Spent pipelines log i
  failed_last : ∀ i, ∀ a ∈ (attemptsOf i log).dropLast, a.failed = false
  ended_spent : ∀ i before, before ++ [(i, .ended)] <+: log → Spent pipelines before i

theorem Kept.start (pipelines : ι → Pipeline) :
    Kept pipelines [] (fun i => (pipelines i).job) .empty where
  sink := rfl
  choose := fun _ => rfl
  files := fun _ => rfl
  transforms := fun _ _ ha => absurd ha List.not_mem_nil
  running := fun _ _ _ ha => absurd ha List.not_mem_nil
  finished := fun _ hfinished => absurd hfinished Bool.false_ne_true
  failed_last := fun _ _ ha => absurd ha List.not_mem_nil
  ended_spent := by
    intro i before h
    have hlength := h.length_le
    simp at hlength

theorem Kept.folds (h : Kept pipelines log jobs sink) : FoldsWrites pipelines log sink where
  contents := by
    intro path
    rw [h.sink, foldl_record, MemoryDest.contentsBytesFor, ← Write.foldl_apply]
    rfl
  files := by
    rw [h.sink, foldl_record]
    rfl
  inputs := fun i => ⟨_, h.files i⟩
  transforms := h.transforms
  failed_last := h.failed_last
  ended_spent := h.ended_spent

/-- What is spent stays so. -/
theorem Spent.concat (h : Spent pipelines log i) (hself : i = j → event.attempt = none) :
    Spent pipelines (log ++ [(j, event)]) i := by
  have hattempts : attemptsOf i (log ++ [(j, event)]) = attemptsOf i log := by
    by_cases hij : j = i
    · subst hij
      rw [attemptsOf_self, hself rfl]
      exact List.append_nil _
    · exact attemptsOf_ne log hij event
  rcases h with hclosed | hfailed | hall
  · exact .inl (List.mem_append_left _ hclosed)
  · exact .inr (.inl (hattempts ▸ hfailed))
  · exact .inr (.inr (hattempts ▸ hall))

theorem attemptsOf_quiet (log : List (ι × Event)) (i j : ι) (h : event.attempt = none) :
    attemptsOf j (log ++ [(i, event)]) = attemptsOf j log := by
  by_cases hij : i = j
  · subst hij
    rw [attemptsOf_self, h]
    exact List.append_nil _
  · exact attemptsOf_ne log hij event

/-- A call that attempts nothing leaves the pipeline without a file to give. -/
theorem Kept.quiet (h : Kept pipelines log jobs sink) (job : Job)
    (hfiles : job.files = (jobs i).files) (hchoose : job.choose = (jobs i).choose)
    (hfinished : job.finished = true) (hevent : event.attempt = none)
    (hspent : Spent pipelines (log ++ [(i, event)]) i)
    (hended : event = .ended → Spent pipelines log i) :
    Kept pipelines (log ++ [(i, event)]) (Function.update jobs i job) sink where
  sink := by
    rw [attempts_concat, hevent, h.sink]
    simp
  choose := by
    intro j
    by_cases hj : j = i
    · subst hj
      rw [Function.update_self, hchoose, h.choose]
    · rw [Function.update_of_ne hj, h.choose]
  files := by
    intro j
    rw [attemptsOf_quiet log i j hevent]
    by_cases hj : j = i
    · subst hj
      rw [Function.update_self, hfiles, h.files]
    · rw [Function.update_of_ne hj, h.files]
  transforms := by
    intro j
    rw [attemptsOf_quiet log i j hevent]
    exact h.transforms j
  running := by
    intro j hj
    rw [attemptsOf_quiet log i j hevent]
    by_cases hij : j = i
    · subst hij
      rw [Function.update_self, hfinished] at hj
      cases hj
    · rw [Function.update_of_ne hij] at hj
      exact h.running j hj
  finished := by
    intro j hj
    by_cases hij : j = i
    · subst hij
      exact hspent
    · rw [Function.update_of_ne hij] at hj
      exact (h.finished j hj).concat fun _ => hevent
  failed_last := by
    intro j
    rw [attemptsOf_quiet log i j hevent]
    exact h.failed_last j
  ended_spent := by
    intro j before hinit
    rcases prefix_ended hinit with hinit | ⟨rfl, rfl, hevent⟩
    · exact h.ended_spent j before hinit
    · exact hended hevent

/-- An attempt takes the next file of a pipeline that is running. -/
theorem Kept.attempted (h : Kept pipelines log jobs sink) {a : Attempt} {rest : List (File Nat)}
    (hrunning : (jobs i).finished = false) (hfiles : (jobs i).files = a.input :: rest)
    (htransform : a.transform = (jobs i).choose a.input) :
    Kept pipelines (log ++ [(i, .attempted a)])
      (Function.update jobs i ⟨rest, (jobs i).choose, a.failed⟩) (sink.record a) where
  sink := by
    rw [attempts_concat, h.sink]
    exact (List.foldl_concat ..).symm
  choose := by
    intro j
    by_cases hj : j = i
    · subst hj
      rw [Function.update_self, h.choose]
    · rw [Function.update_of_ne hj, h.choose]
  files := by
    intro j
    by_cases hj : j = i
    · subst hj
      rw [Function.update_self, attemptsOf_self, ← h.files j, hfiles]
      simp [Event.attempt]
    · rw [Function.update_of_ne hj, attemptsOf_ne log (Ne.symm hj), h.files]
  transforms := by
    intro j
    by_cases hj : j = i
    · subst hj
      rw [attemptsOf_self]
      intro b hb
      rcases List.mem_append.mp hb with hb | hb
      · exact h.transforms j b hb
      · rw [List.mem_singleton.mp hb, htransform, h.choose]
    · rw [attemptsOf_ne log (Ne.symm hj)]
      exact h.transforms j
  running := by
    intro j hj
    by_cases hij : j = i
    · subst hij
      rw [Function.update_self] at hj
      rw [attemptsOf_self]
      intro b hb
      rcases List.mem_append.mp hb with hb | hb
      · exact h.running j hrunning b hb
      · rw [List.mem_singleton.mp hb]
        exact hj
    · rw [Function.update_of_ne hij] at hj
      rw [attemptsOf_ne log (Ne.symm hij)]
      exact h.running j hj
  finished := by
    intro j hj
    by_cases hij : j = i
    · subst hij
      rw [Function.update_self] at hj
      -- only a failed attempt finishes the pipeline
      exact .inr (.inl ⟨a, by rw [attemptsOf_self]; simp [Event.attempt], hj⟩)
    · rw [Function.update_of_ne hij] at hj
      exact (h.finished j hj).concat fun heq => absurd heq hij
  failed_last := by
    intro j
    by_cases hj : j = i
    · subst hj
      rw [attemptsOf_self, Event.attempt, Option.toList_some, List.dropLast_concat]
      exact h.running j hrunning
    · rw [attemptsOf_ne log (Ne.symm hj)]
      exact h.failed_last j
  ended_spent := by
    intro j before hinit
    rcases prefix_ended hinit with hinit | ⟨-, -, hevent⟩
    · exact h.ended_spent j before hinit
    · cases hevent

theorem attempt_eq {n : Nat} {transform : MemoryTransform} {input : File Nat} {w w' : MemoryWorld υ}
    {a : Attempt} (h : attempt n transform input w = some (a, w')) :
    a.input = input ∧ a.transform = transform ∧ w'.sink = w.sink.record a := by
  unfold attempt at h
  have hsink : (contentsBytes n input.contents w).2.sink = w.sink := by
    cases input.contents with
    | bytes stream =>
        have hread : (w.readAllBytes n stream).2.sink = w.sink := by
          unfold MemoryWorld.readAllBytes
          cases w.streams[stream]? <;> rfl
        simp only [contentsBytes]
        rcases hr : w.readAllBytes n stream with ⟨_ | _ | bytes, w₁⟩
        all_goals rw [hr] at hread; exact hread
    | _ => rfl
  rcases hbytes : contentsBytes n input.contents w with ⟨_ | result, w₁⟩
  · rw [hbytes] at h
    cases h
  · rw [hbytes] at h hsink
    cases h
    exact ⟨rfl, rfl, congrArg (MemoryDest.record · _) hsink⟩

/-- A call of `next` keeps the invariant. -/
theorem Kept.next {n : Nat} {w w' : MemoryWorld υ} {job : Job}
    (h : Kept pipelines log jobs w.sink) (hnext : (jobs i).next n w = some (event, job, w')) :
    Kept pipelines (log ++ [(i, event)]) (Function.update jobs i job) w'.sink := by
  by_cases hfinished : (jobs i).finished = true
  · rw [Job.next, if_pos hfinished] at hnext
    cases hnext
    have hspent := h.finished i hfinished
    exact h.quiet (jobs i) rfl rfl hfinished rfl (hspent.concat fun _ => rfl) fun _ => hspent
  · rw [Job.next, if_neg hfinished] at hnext
    cases hleft : (jobs i).files with
    | nil =>
        rw [hleft] at hnext
        cases hnext
        have hspent : Spent pipelines log i := by
          have hfiles := h.files i
          rw [hleft, List.append_nil] at hfiles
          exact .inr (.inr (by rw [← hfiles, List.length_map]))
        exact h.quiet _ hleft.symm rfl rfl rfl (hspent.concat fun _ => rfl) fun _ => hspent
    | cons input rest =>
        rw [hleft] at hnext
        obtain ⟨⟨a, w₁⟩, hattempt, heq⟩ := Option.map_eq_some_iff.mp hnext
        cases heq
        obtain ⟨rfl, htransform, hsink⟩ := attempt_eq hattempt
        rw [hsink]
        exact h.attempted (Bool.eq_false_iff.mpr hfinished) hleft htransform

/-- So does closing a pipeline. -/
theorem Kept.close (h : Kept pipelines log jobs sink) (i : ι) :
    Kept pipelines (log ++ [(i, .closed)])
      (Function.update jobs i { jobs i with finished := true }) sink :=
  h.quiet _ rfl rfl rfl rfl (.inl (by simp)) nofun

/-- And so does a sequence of calls. -/
theorem Kept.run {n : Nat} (ops : List (ι × Op)) {w w' : MemoryWorld υ} {log' : List (ι × Event)}
    (h : Kept pipelines log jobs w.sink) (hexpected : expected n ops jobs w = some (log', w')) :
    ∃ jobs', Kept pipelines (log ++ log') jobs' w'.sink := by
  induction ops generalizing log jobs w log' with
  | nil =>
      cases hexpected
      exact ⟨jobs, by simpa using h⟩
  | cons op ops ih =>
      rcases op with ⟨i, _ | _⟩
      · -- `next`
        rw [expected] at hexpected
        rcases hnext : (jobs i).next n w with _ | ⟨event, job, w₁⟩
        · rw [hnext] at hexpected
          cases hexpected
        · rw [hnext] at hexpected
          obtain ⟨⟨log₁, w₂⟩, hrest, heq⟩ := Option.map_eq_some_iff.mp hexpected
          cases heq
          obtain ⟨jobs', hkept⟩ := ih (h.next hnext) hrest
          exact ⟨jobs', by simpa using hkept⟩
      · -- `close`
        rw [expected] at hexpected
        obtain ⟨⟨log₁, w₂⟩, hrest, heq⟩ := Option.map_eq_some_iff.mp hexpected
        cases heq
        obtain ⟨jobs', hkept⟩ := ih (h.close i) hrest
        exact ⟨jobs', by simpa using hkept⟩

end Log

/-! ## The calls return -/

/-- Reading the stream up to the limit comes to an end: with its bytes, or with an error, of the
stream or of the limit. It is asked of all streams that files refer to, or a call might never
return. -/
def Finishes (s : ByteStream υ) : Prop :=
  ∀ u, ∃ n r s' u', s.readAllBytes n maxBytes u = (some r, s', u')

theorem finishes_of_consumed {s : ByteStream υ} (h : s.consumed = true) : Finishes s :=
  fun u => ⟨1, _, s, u, ByteStream.readAllBytes_consumed h 0 maxBytes u⟩

/-- A stream that plays a script finishes. -/
theorem finishes_of_plays {sc : Script MulpError Bytes} {s : ByteStream υ}
    (hfits : ByteStream.Fits maxBytes sc) (h : (ByteStream.machine υ).Plays sc s) : Finishes s := by
  intro u
  obtain ⟨n, s', u', hn⟩ := ByteStream.readAllBytes_plays hfits h (by decide) u
  exact ⟨n, _, s', u', hn⟩

/-- Every stream finishes, and the files refer to streams that there are. Streams that have been
read already are among them: reading such a stream again fails at once. -/
structure Ready (jobs : ι → Job) (w : MemoryWorld υ) : Prop where
  finishes : ∀ s ∈ w.streams, Finishes s
  streams : ∀ i, ∀ file ∈ (jobs i).files, ∀ stream, file.contents = .bytes stream →
    stream < w.streams.length

section Returns

variable {jobs : ι → Job} {w : MemoryWorld υ}

theorem readAllBytes_returns (hfinishes : ∀ s ∈ w.streams, Finishes s) {i : Nat}
    (hi : i < w.streams.length) : ∃ n₀ r w', (∀ n, n₀ ≤ n → w.readAllBytes n i = (some r, w')) ∧
      (∀ s ∈ w'.streams, Finishes s) ∧ w'.streams.length = w.streams.length := by
  have hget : w.streams[i]? = some w.streams[i] := List.getElem?_eq_getElem hi
  obtain ⟨n₀, r, s', u', hread⟩ := hfinishes w.streams[i] (List.getElem_mem hi) w.user
  refine ⟨n₀, r, { w with streams := w.streams.set i s', user := u' }, ?_, ?_, ?_⟩
  · intro n hn
    have hmore := ByteStream.readAllBytes_agrees maxBytes hn w.streams[i] w.user r (by rw [hread])
    simp only [MemoryWorld.readAllBytes, hget, hmore, hread]
  · intro s hs
    rcases List.mem_or_eq_of_mem_set hs with hs | rfl
    · exact hfinishes s hs
    · exact finishes_of_consumed (ByteStream.consumed_of_readAllBytes hread)
  · exact List.length_set

theorem attempt_returns (hfinishes : ∀ s ∈ w.streams, Finishes s) (transform : MemoryTransform)
    (input : File Nat)
    (hinput : ∀ stream, input.contents = .bytes stream → stream < w.streams.length) :
    ∃ n₀ a w', (∀ n, n₀ ≤ n → attempt n transform input w = some (a, w')) ∧
      (∀ s ∈ w'.streams, Finishes s) ∧ w'.streams.length = w.streams.length := by
  have hbytes : ∃ n₀ r w', (∀ n, n₀ ≤ n → contentsBytes n input.contents w = (some r, w')) ∧
      (∀ s ∈ w'.streams, Finishes s) ∧ w'.streams.length = w.streams.length := by
    cases hcontents : input.contents with
    | bytes stream =>
        obtain ⟨n₀, r, w', hread, hrest⟩ := readAllBytes_returns hfinishes (hinput stream hcontents)
        refine ⟨n₀, r.map some, w', fun n hn => ?_, hrest⟩
        rw [contentsBytes, hread n hn]
        cases r <;> rfl
    | _ => exact ⟨0, _, w, fun _ _ => rfl, hfinishes, rfl⟩
  obtain ⟨n₀, r, w', hread, hrest⟩ := hbytes
  refine ⟨n₀, ⟨input, transform, r⟩, { w' with sink := w'.sink.record ⟨input, transform, r⟩ },
    fun n hn => ?_, hrest⟩
  rw [attempt, hread n hn]

theorem Ready.next [DecidableEq ι] (h : Ready jobs w) (i : ι) :
    ∃ n₀ event job w', (∀ n, n₀ ≤ n → (jobs i).next n w = some (event, job, w')) ∧
      Ready (Function.update jobs i job) w' := by
  -- the files of the job are among those it had
  have hready {job : Job} {w' : MemoryWorld υ} (hfinishes : ∀ s ∈ w'.streams, Finishes s)
      (hlength : w'.streams.length = w.streams.length)
      (hfiles : ∀ file ∈ job.files, file ∈ (jobs i).files) :
      Ready (Function.update jobs i job) w' := by
    refine ⟨hfinishes, fun j file hfile stream hcontents => ?_⟩
    rw [hlength]
    by_cases hj : j = i
    · subst hj
      rw [Function.update_self] at hfile
      exact h.streams j file (hfiles file hfile) stream hcontents
    · rw [Function.update_of_ne hj] at hfile
      exact h.streams j file hfile stream hcontents
  by_cases hfinished : (jobs i).finished = true
  · refine ⟨0, .ended, jobs i, w, fun n _ => ?_, hready h.finishes rfl fun _ hfile => hfile⟩
    rw [Job.next, if_pos hfinished]
  · cases hfiles : (jobs i).files with
    | nil =>
        refine ⟨0, .ended, ⟨[], (jobs i).choose, true⟩, w, fun n _ => ?_,
          hready h.finishes rfl nofun⟩
        rw [Job.next, if_neg hfinished, hfiles]
    | cons input rest =>
        obtain ⟨n₀, a, w', hattempt, hfinishes, hlength⟩ := attempt_returns h.finishes
          ((jobs i).choose input) input (h.streams i input (by rw [hfiles]; exact List.mem_cons_self))
        refine ⟨n₀, .attempted a, ⟨rest, (jobs i).choose, a.failed⟩, w', fun n hn => ?_,
          hready hfinishes hlength fun file hfile => ?_⟩
        · rw [Job.next, if_neg hfinished, hfiles]
          simp only [hattempt n hn, Option.map_some]
        · rw [hfiles]
          exact List.mem_cons_of_mem _ hfile

theorem Ready.run [DecidableEq ι] (h : Ready jobs w) (ops : List (ι × Op)) :
    ∃ n₀ log w', ∀ n, n₀ ≤ n → expected n ops jobs w = some (log, w') := by
  induction ops generalizing jobs w with
  | nil => exact ⟨0, [], w, fun _ _ => rfl⟩
  | cons op ops ih =>
      rcases op with ⟨i, _ | _⟩
      · -- `next`
        obtain ⟨n₁, event, job, w₁, hnext, hready⟩ := h.next i
        obtain ⟨n₂, log, w₂, hrest⟩ := ih hready
        refine ⟨max n₁ n₂, (i, event) :: log, w₂, fun n hn => ?_⟩
        rw [expected, hnext n (by omega)]
        simp only [hrest n (by omega), Option.map_some]
      · -- `close`
        have hready : Ready (Function.update jobs i { jobs i with finished := true }) w := by
          refine ⟨h.finishes, fun j file hfile => ?_⟩
          by_cases hj : j = i
          · subst hj
            rw [Function.update_self] at hfile
            exact h.streams j file hfile
          · rw [Function.update_of_ne hj] at hfile
            exact h.streams j file hfile
        obtain ⟨n₀, log, w', hrest⟩ := ih hready
        refine ⟨n₀, (i, .closed) :: log, w', fun n hn => ?_⟩
        rw [expected, hrest n hn]
        rfl

end Returns

/-! ## The result -/

/-- Whatever calls are made on pipelines into a new sink, they return, and the sink
is a fold of the successful writes of the log: a failed write changes nothing, is
answered with its error, and is the last one of its pipeline. -/
theorem memoryDest_folds [DecidableEq ι] (pipelines : ι → Pipeline) (ops : List (ι × Op))
    {w : MemoryWorld υ} (hsink : w.sink = .empty)
    (hready : Ready (fun i => (pipelines i).job) w) :
    ∃ n₀ log w', (∀ n, n₀ ≤ n → expected n ops (fun i => (pipelines i).job) w = some (log, w') ∧
      ∀ m, 7 ≤ m → runCalls m ops (fun i => (pipelines i).stream n) (some w) =
        (some (log.filterMap (·.2.reply)), some w')) ∧
      FoldsWrites pipelines log w'.sink := by
  obtain ⟨n₀, log, w', hexpected⟩ := hready.run ops
  refine ⟨n₀, log, w', fun n hn => ⟨hexpected n hn, fun m hm => ?_⟩, ?_⟩
  · exact runCalls_eq hm ops (fun i => follows_start n (pipelines i)) (hexpected n hn)
  · have hstart : Kept pipelines [] (fun i => (pipelines i).job) w.sink := by
      rw [hsink]
      exact .start pipelines
    obtain ⟨jobs', hkept⟩ := hstart.run ops (hexpected n₀ (Nat.le_refl n₀))
    exact hkept.folds

/-- Two pipelines of files that share a stream: the one that reads it first overwrites, the other
appends. -/
def twoPipelines : Bool → Pipeline
  | true =>
    { files := [⟨"/", "/src", "/src/a.txt", .bytes 0, [], none⟩,
        ⟨"/", "/src", "/src/a.txt", .text "b", [], none⟩, ⟨"/", "/src", "/src/d", .directory, [], none⟩]
      choose := fun _ => .writeMode "/out" .overwrite }
  | false =>
    { files := [⟨"/", "/src", "/src/a.txt", .buffer [0x63], [], none⟩,
        ⟨"/", "/src", "/src/b.txt", .bytes 0, [], none⟩, ⟨"/", "/src", "/src/c.txt", .empty, [], none⟩]
      choose := fun _ => .writeMode "/out" .append }

/-- The calls on them: the second file of the one that appends fails, for its stream has been read. -/
def twoOps : List (Bool × Op) :=
  [(true, .next), (false, .next), (false, .next), (false, .next), (true, .next), (true, .close)]

theorem twoPipelines_folds : ∃ n₀ log w', (∀ n, n₀ ≤ n →
    expected n twoOps (fun i => (twoPipelines i).job)
        ⟨[.fromBytes [[0x61], [0x62, 0x0A]]], (), .empty⟩ = some (log, w') ∧
      ∀ m, 7 ≤ m → runCalls m twoOps (fun i => (twoPipelines i).stream n)
        (some ⟨[.fromBytes [[0x61], [0x62, 0x0A]]], (), .empty⟩) =
          (some (log.filterMap (·.2.reply)), some w')) ∧
    FoldsWrites twoPipelines log w'.sink := by
  refine memoryDest_folds twoPipelines twoOps rfl ⟨?_, ?_⟩
  · intro s hs
    rw [List.mem_singleton.mp hs]
    have hfits : ByteStream.Fits maxBytes (.ofList [[0x61], [0x62, 0x0A]]) :=
      ⟨by decide, by decide, trivial⟩
    exact finishes_of_plays hfits (ByteStream.fromBytes_plays _)
  · intro i file hfile stream hcontents
    have hfirst : stream = 0 := by
      cases i <;>
      · simp only [Pipeline.job, twoPipelines, List.mem_cons, List.not_mem_nil, or_false] at hfile
        rcases hfile with rfl | rfl | rfl <;> cases hcontents
        rfl
    rw [hfirst]
    decide

end Mulp.Stream.Memory
