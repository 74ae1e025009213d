import Mulp.StreamAsync.WorkerPool

/-! What holds of `AsyncFileWorkerPool::drain` in every state of every run.

A permit is held by the loop between `acquire` and what it does with the answer of the
stream, and then by the closure of the file, which keeps it for ever if the worker
raises. So the permits are counted over the states of all closures, of which those that
have raised are one kind; and all that is claimed comes from that sum. -/
namespace Mulp.StreamAsync

open Mulp.Core Mulp.Stream Pull
open scoped List

variable {ω β : Type}

/-! ## Readings of a state -/

def CallStatus.isActive : CallStatus → Bool
  | .spawned => true
  | .running => true
  | .ended _ => false

def CallStatus.isRaised : CallStatus → Bool
  | .ended .raised => true
  | _ => false

/-- How often a closure in this place has released its permit. -/
def CallStatus.releases : CallStatus → Nat
  | .ended (.returned _) => 1
  | _ => 0

/-- The entry of `errors` for the call on the file. -/
def CallStatus.failure (file : File β) : CallStatus → List (String × String)
  | .ended (.returned (.error err)) => [(file.relativePath, err.message)]
  | _ => []

@[simp] theorem CallStatus.failure_spawned (file : File β) :
    CallStatus.spawned.failure file = [] := rfl

@[simp] theorem CallStatus.failure_running (file : File β) :
    CallStatus.running.failure file = [] := rfl

def Call.failure (call : Call β) : List (String × String) := call.status.failure call.file

/-- The entry of `errors` for the stream. -/
def Observation.failure : Observation β → List (String × String)
  | .reply (.error err) => [("stream", err.message)]
  | _ => []

/-- The loop ends with this observation: the end of the stream, its error, or a cancelled token. -/
def Observation.isStop : Observation β → Bool
  | .reply (.ok (some _)) => false
  | _ => true

def Observation.files : Observation β → List (File β)
  | .reply (.ok (some file)) => [file]
  | _ => []

def Pc.permits : Pc → Nat
  | .acquired => 1
  | _ => 0

/-- The loop has ended. -/
def Pc.isOver : Pc → Bool
  | .loop done => done
  | .acquiring => false
  | .acquired => false
  | .waiting => true
  | .returned _ => true

namespace Pool

/-- The worker calls, begun or about to begin, that are not over. -/
def active (s : Pool ω β) : Nat := s.calls.countP (·.status.isActive)

def raised (s : Pool ω β) : Nat := s.calls.countP (·.status.isRaised)

/-- The permits acquired and not released: one in the loop at some places of its body, and one for
each closure that has not given it back, those included that never will. -/
def held (s : Pool ω β) : Nat := s.pc.permits + s.calls.countP (·.released = 0)

/-- The entries due to the calls and to the stream. -/
def failures (s : Pool ω β) : List (String × String) :=
  s.calls.flatMap Call.failure ++ s.log.flatMap Observation.failure

section Simp

variable (s : Pool ω β) (name : String) (err : MulpError)

@[simp] theorem release_pc : s.release.pc = s.pc := rfl
@[simp] theorem release_available : s.release.available = s.available + 1 := rfl
@[simp] theorem release_stream : s.release.stream = s.stream := rfl
@[simp] theorem release_cancelled : s.release.cancelled = s.cancelled := rfl
@[simp] theorem release_errors : s.release.errors = s.errors := rfl
@[simp] theorem release_calls : s.release.calls = s.calls := rfl
@[simp] theorem release_log : s.release.log = s.log := rfl
@[simp] theorem fail_pc : (s.fail name err).pc = s.pc := rfl
@[simp] theorem fail_available : (s.fail name err).available = s.available := rfl
@[simp] theorem fail_stream : (s.fail name err).stream = s.stream := rfl
@[simp] theorem fail_cancelled : (s.fail name err).cancelled = true := rfl
@[simp] theorem fail_errors : (s.fail name err).errors = s.errors ++ [(name, err.message)] := rfl
@[simp] theorem fail_calls : (s.fail name err).calls = s.calls := rfl
@[simp] theorem fail_log : (s.fail name err).log = s.log := rfl
@[simp] theorem closeStream_calls : s.closeStream.calls = s.calls := rfl
@[simp] theorem closeStream_log : s.closeStream.log = s.log := rfl
@[simp] theorem closeStream_closed : s.closeStream.stream.closed = true :=
  FileStream.closed_close s.stream s.world

end Simp

/-- The shared state when a closure is over: one permit more if the worker
returned, and an entry and a cancelled token if it returned an error. -/
theorem endCall_eq (s : Pool ω β) (file : File β) (c : Completion) :
    (s.endCall file c).pc = s.pc ∧ (s.endCall file c).stream = s.stream ∧
    (s.endCall file c).log = s.log ∧
    (s.endCall file c).available = s.available + (CallStatus.ended c).releases ∧
    (s.endCall file c).errors = s.errors ++ (CallStatus.ended c).failure file ∧
    (s.endCall file c).cancelled =
      (s.cancelled || !((CallStatus.ended c).failure file).isEmpty) := by
  rcases c with (err | u) | _ <;> simp [endCall, CallStatus.failure, CallStatus.releases]

end Pool

/-! ## The invariant -/

/-- The observations so far: a file for each call, in order, and at the end of the loop what ended
it. Hence no file is pulled after the end, an error or a cancel was seen. -/
def Logged (pc : Pc) (calls : List (Call β)) (log : List (Observation β)) : Prop :=
  ∃ stop, log = calls.map (fun call => .reply (.ok (some call.file))) ++ stop ∧
    if pc.isOver then ∃ o, stop = [o] ∧ o.isStop = true else stop = []

/-- The invariant of a pool with `n` permits. The permits that are held and those that are left are
`n` in all, also when some are lost; the errors are those of the calls that failed, in the order of
their ends. The last three fields speak of the loop's place in the source, as it is what decides
which permits it holds and what it has seen. -/
structure Inv (n : Nat) (s : Pool ω β) : Prop where
  permits : s.held + s.available = n
  released : ∀ call ∈ s.calls, call.released = call.status.releases
  errors : s.errors.Perm s.failures
  cancels : s.cancelled = false → s.errors = []
  log : Logged s.pc s.calls s.log
  /-- Without a cancelled token the loop ends at the end of the stream only. -/
  atEnd : s.pc.isOver = true → s.cancelled = false →
    s.stream.closed = true ∧ .reply (.ok none) ∈ s.log
  returned : ∀ r, s.pc = .returned r → (∀ call ∈ s.calls, ∃ c, call.status = .ended c) ∧
    s.stream.closed = true ∧ r = s.result

namespace Inv

variable {n : Nat} {s s' : Pool ω β}

theorem drain {concurrency : Int} (hpos : 0 < concurrency) (stream : FileStream ω (File β))
    (world : ω) (cancelled : Bool) :
    Inv concurrency.toNat (.drain concurrency stream world cancelled) := by
  have hpc : (Pool.drain concurrency stream world cancelled).pc = .loop false :=
    if_neg (by omega)
  constructor
  · rw [Pool.held, hpc]
    exact Nat.zero_add _
  · intro call hcall
    cases hcall
  · exact .refl _
  · intro _
    rfl
  · rw [hpc]
    exact ⟨[], rfl, rfl⟩
  · rw [hpc]
    intro hover
    cases hover
  · rw [hpc]
    intro r hr
    cases hr

/-- A step of the loop that neither pulls nor returns. -/
theorem move (h : Inv n s) (hcalls : s'.calls = s.calls) (herrors : s'.errors = s.errors)
    (hcancelled : s'.cancelled = s.cancelled)
    (hpermits : s'.pc.permits + s'.available = s.pc.permits + s.available)
    (hlog : Logged s'.pc s.calls s'.log)
    (hfailures : s'.log.flatMap Observation.failure = s.log.flatMap Observation.failure)
    (hover : s'.pc.isOver = true → s.cancelled = false →
      s'.stream.closed = true ∧ .reply (.ok none) ∈ s'.log)
    (hpc : ∀ r, s'.pc ≠ .returned r) : Inv n s' := by
  have hheld := h.permits
  constructor
  · rw [Pool.held] at hheld ⊢
    rw [hcalls]
    omega
  · rw [hcalls]
    exact h.released
  · rw [herrors, Pool.failures, hcalls, hfailures]
    exact h.errors
  · rw [hcancelled, herrors]
    exact h.cancels
  · rw [hcalls]
    exact hlog
  · rw [hcancelled]
    exact hover
  · intro r hr
    exact absurd hr (hpc r)

/-- While the loop runs there is an observation for each file and no other. -/
theorem log_eq (h : Inv n s) (hpc : s.pc.isOver = false) :
    s.log = s.calls.map fun call => .reply (.ok (some call.file)) := by
  obtain ⟨stop, hlog, hstop⟩ := h.log
  rw [hpc] at hstop
  cases hstop
  rwa [List.append_nil] at hlog

section Pull

variable {k : Nat} {stream : FileStream ω (File β)} {world : ω}

/-- An error of the stream: the permit is back, the error recorded, the token cancelled. -/
theorem pull_error (h : Inv n s) (hpc : s.pc = .acquired) (err : MulpError) :
    Inv n (Pool.onReply { s with stream, world, log := s.log ++ [.reply (.error err)] }
      (.error err)) := by
  have hheld := h.permits
  have hlog := h.log_eq (by rw [hpc]; rfl)
  rw [Pool.held, hpc] at hheld
  constructor
  · show 0 + s.calls.countP _ + (s.available + 1) = n
    simp only [Pc.permits] at hheld
    omega
  · exact h.released
  · show (s.errors ++ [("stream", err.message)]).Perm _
    have herrors := h.errors.append_right [("stream", err.message)]
    simpa [Pool.onReply, Pool.failures, Observation.failure] using herrors
  · intro hc
    cases hc
  · refine ⟨[.reply (.error err)], ?_, _, rfl, rfl⟩
    show s.log ++ [_] = s.calls.map _ ++ [_]
    rw [hlog]
  · intro _ hc
    cases hc
  · intro r hr
    cases hr

/-- The end of the stream: the permit is back, and the stream has closed itself. -/
theorem pull_end (h : Inv n s) (hpc : s.pc = .acquired)
    (hnext : s.stream.next k s.world = (some (.ok none), stream, world)) :
    Inv n (Pool.onReply { s with stream, world, log := s.log ++ [.reply (.ok none)] }
      (.ok none)) := by
  have hheld := h.permits
  have hlog := h.log_eq (by rw [hpc]; rfl)
  rw [Pool.held, hpc] at hheld
  constructor
  · show 0 + s.calls.countP _ + (s.available + 1) = n
    simp only [Pc.permits] at hheld
    omega
  · exact h.released
  · simpa [Pool.onReply, Pool.failures, Observation.failure] using h.errors
  · exact h.cancels
  · refine ⟨[.reply (.ok none)], ?_, _, rfl, rfl⟩
    show s.log ++ [_] = s.calls.map _ ++ [_]
    rw [hlog]
  · intro _ _
    exact ⟨FileStream.closed_of_end hnext rfl, by simp [Pool.onReply]⟩
  · intro r hr
    cases hr

/-- A file: the permit goes to the new closure. -/
theorem pull_file (h : Inv n s) (hpc : s.pc = .acquired) (file : File β) :
    Inv n (Pool.onReply { s with stream, world, log := s.log ++ [.reply (.ok (some file))] }
      (.ok (some file))) := by
  have hheld := h.permits
  have hlog := h.log_eq (by rw [hpc]; rfl)
  rw [Pool.held, hpc] at hheld
  constructor
  · show 0 + (s.calls ++ [Call.spawn file]).countP _ + s.available = n
    simp only [Pc.permits] at hheld
    simp [List.countP_append, Call.spawn]
    omega
  · intro call hcall
    rcases List.mem_append.mp hcall with hcall | hcall
    · exact h.released call hcall
    · rw [List.mem_singleton.mp hcall]
      rfl
  · simpa [Pool.onReply, Pool.failures, Observation.failure, Call.failure,
      Call.spawn] using h.errors
  · exact h.cancels
  · refine ⟨[], ?_, rfl⟩
    simp [Pool.onReply, hlog, Call.spawn]
  · intro hover
    cases hover
  · intro r hr
    cases hr

theorem pull (h : Inv n s) (hpc : s.pc = .acquired) {r : FileReply (File β)}
    (hnext : s.stream.next k s.world = (some r, stream, world)) :
    Inv n (Pool.onReply { s with stream, world, log := s.log ++ [.reply r] } r) := by
  rcases r with err | _ | file
  · exact h.pull_error hpc err
  · exact h.pull_end hpc hnext
  · exact h.pull_file hpc file

end Pull

section Closure

variable {before after : List (Call β)} {call : Call β}

theorem start (h : Inv n s) (hcalls : s.calls = before ++ call :: after)
    (hstatus : call.status = .spawned) :
    Inv n { s with calls := before ++ { call with status := .running } :: after } := by
  have hheld := h.permits
  have hreleased := h.released
  have herrors := h.errors
  have hlog := h.log
  rw [Pool.held, hcalls] at hheld
  rw [hcalls] at hreleased
  rw [Pool.failures, hcalls] at herrors
  rw [hcalls] at hlog
  constructor
  · simpa [Pool.held, List.countP_append, List.countP_cons] using hheld
  · have hcall := hreleased call (by simp)
    rw [hstatus] at hcall
    exact forall_mem_replace hreleased hcall
  · simpa [Pool.failures, Call.failure, hstatus] using herrors
  · exact h.cancels
  · simpa [Logged] using hlog
  · exact h.atEnd
  · intro r hr
    obtain ⟨c, hc⟩ := (h.returned r hr).1 call (by rw [hcalls]; simp)
    rw [hstatus] at hc
    cases hc

theorem finish (h : Inv n s) {c : Completion} (hcalls : s.calls = before ++ call :: after)
    (hstatus : call.status = .running) :
    Inv n { s.endCall call.file c with calls := before ++ call.finish c :: after } := by
  obtain ⟨hpc, hstream, hlog', havailable, herrors', hcancelled⟩ := s.endCall_eq call.file c
  have hfinish : call.finish c =
      ⟨call.file, .ended c, call.released + (CallStatus.ended c).releases⟩ := by
    cases c <;> rfl
  have hheld := h.permits
  have hreleased := h.released
  have herrors := h.errors
  have hlog := h.log
  rw [Pool.held, hcalls] at hheld
  rw [hcalls] at hreleased
  rw [Pool.failures, hcalls] at herrors
  rw [hcalls] at hlog
  -- a running call still has its permit
  have hzero : call.released = 0 := by
    rw [hreleased call (by simp), hstatus]
    rfl
  have hnone : call.failure = [] := by rw [Call.failure, hstatus]; rfl
  rw [hfinish, hzero]
  constructor
  · show (s.endCall call.file c).pc.permits + List.countP _ _ +
      (s.endCall call.file c).available = n
    rw [hpc, havailable]
    simp only [List.countP_append, List.countP_cons, hzero] at hheld ⊢
    -- a returned call gives its permit back, a raised one goes on holding it
    cases c <;> simp [CallStatus.releases] at hheld ⊢ <;> omega
  · exact forall_mem_replace hreleased (Nat.zero_add _)
  · show (s.endCall call.file c).errors.Perm
      ((before ++ _ :: after).flatMap Call.failure ++ (s.endCall call.file c).log.flatMap _)
    rw [herrors', hlog', List.flatMap_append, List.flatMap_cons, Call.failure]
    rw [List.flatMap_append, List.flatMap_cons, hnone, List.nil_append] at herrors
    generalize (CallStatus.ended c).failure call.file = failure
    calc s.errors ++ failure
        ~ (before.flatMap Call.failure ++ after.flatMap Call.failure ++
            s.log.flatMap Observation.failure) ++ failure := herrors.append_right failure
      _ ~ failure ++ (before.flatMap Call.failure ++ after.flatMap Call.failure ++
            s.log.flatMap Observation.failure) := List.perm_append_comm
      _ = (failure ++ (before.flatMap Call.failure ++ after.flatMap Call.failure)) ++
            s.log.flatMap Observation.failure := (List.append_assoc _ _ _).symm
      _ ~ (before.flatMap Call.failure ++ (failure ++ after.flatMap Call.failure)) ++
            s.log.flatMap Observation.failure :=
          (List.perm_append_comm_assoc _ _ _).append_right _
  · show (s.endCall call.file c).cancelled = false → (s.endCall call.file c).errors = []
    rw [hcancelled, herrors']
    intro hc
    simp at hc
    rw [h.cancels hc.1, hc.2]
    rfl
  · show Logged (s.endCall call.file c).pc _ (s.endCall call.file c).log
    rw [hpc, hlog']
    simpa [Logged] using hlog
  · show (s.endCall call.file c).pc.isOver = true → (s.endCall call.file c).cancelled = false →
      (s.endCall call.file c).stream.closed = true ∧ _ ∈ (s.endCall call.file c).log
    rw [hpc, hcancelled, hstream, hlog']
    intro hover hc
    exact h.atEnd hover (Bool.or_eq_false_iff.mp hc).1
  · intro r hr
    have hr : (s.endCall call.file c).pc = .returned r := hr
    rw [hpc] at hr
    obtain ⟨c', hc'⟩ := (h.returned r hr).1 call (by rw [hcalls]; simp)
    rw [hstatus] at hc'
    cases hc'

end Closure

theorem cancelled (h : Inv n s) (hpc : ∀ r, s.pc ≠ .returned r) :
    Inv n { s with cancelled := true } := by
  refine ⟨h.permits, h.released, h.errors, ?_, h.log, ?_, ?_⟩
  · intro hc
    cases hc
  · intro _ hc
    cases hc
  · intro r hr
    exact absurd hr (hpc r)

theorem exit (h : Inv n s) (hpc : s.pc = .waiting)
    (hended : ∀ call ∈ s.calls, ∃ c, call.status = .ended c) :
    Inv n { (if s.cancelled then s.closeStream else s) with pc := .returned s.result } := by
  have hpermits := h.permits
  have hlog := h.log
  rw [Pool.held, hpc] at hpermits
  rw [hpc] at hlog
  by_cases hc : s.cancelled = true
  · rw [if_pos hc]
    refine ⟨hpermits, h.released, h.errors, h.cancels, hlog, ?_, ?_⟩
    · intro _ hlive
      have hlive : s.cancelled = false := hlive
      rw [hc] at hlive
      cases hlive
    · rintro r ⟨⟩
      exact ⟨hended, s.closeStream_closed, rfl⟩
  · have hover := h.atEnd (by rw [hpc]; rfl) (Bool.eq_false_iff.mpr hc)
    rw [if_neg hc]
    refine ⟨hpermits, h.released, h.errors, h.cancels, hlog, fun _ _ => hover, ?_⟩
    rintro r ⟨⟩
    exact ⟨hended, hover.1, rfl⟩

theorem step (h : Inv n s) (hstep : s.Step s') : Inv n s' := by
  cases hstep with
  | enter hpc hlive =>
      refine h.move rfl rfl rfl (by rw [hpc]; rfl) ?_ rfl (fun hover => by cases hover) nofun
      have hlog := h.log
      rw [hpc] at hlog
      exact hlog
  | leaveDone hpc =>
      have hover := h.atEnd
      have hlog := h.log
      rw [hpc] at hover hlog
      exact h.move rfl rfl rfl (by rw [hpc]; rfl) hlog rfl (fun _ => hover rfl) nofun
  | leaveCancelled hpc hcancelled =>
      refine h.move rfl rfl rfl (by rw [hpc]; rfl) ?_ (by simp [Observation.failure]) ?_ nofun
      · have hlog := h.log_eq (by rw [hpc]; rfl)
        exact ⟨[.cancelled], by rw [← hlog], _, rfl, rfl⟩
      · -- nothing is due to a pool whose token is cancelled
        intro _ hlive
        rw [hcancelled] at hlive
        cases hlive
  | @acquire k hpc hpermit =>
      refine h.move rfl rfl rfl ?_ ?_ rfl (fun hover => by cases hover) nofun
      · rw [hpc, hpermit]
        show 1 + k = 0 + (k + 1)
        omega
      · have hlog := h.log
        rw [hpc] at hlog
        exact hlog
  | giveUp hpc hcancelled =>
      refine h.move rfl rfl rfl ?_ ?_ (by simp [Observation.failure]) ?_ nofun
      · rw [hpc]
        show 0 + (s.available + 1) = 1 + s.available
        omega
      · have hlog := h.log_eq (by rw [hpc]; rfl)
        exact ⟨[.cancelled], by rw [← hlog], _, rfl, rfl⟩
      · intro _ hlive
        rw [hcancelled] at hlive
        cases hlive
  | pull hpc _ hnext => exact h.pull hpc hnext
  | start hcalls hstatus => exact h.start hcalls hstatus
  | finish hcalls hstatus => exact h.finish hcalls hstatus
  | cancel hpc => exact h.cancelled hpc
  | outside hpc =>
      exact ⟨h.permits, h.released, h.errors, h.cancels, h.log, h.atEnd, h.returned⟩
  | exit hpc hended => exact h.exit hpc hended

theorem run (h : Inv n s) (hrun : s.Reaches s') : Inv n s' := by
  induction hrun with
  | refl => exact h
  | tail _ hstep ih => exact ih.step hstep

end Inv

/-! ## Permits -/

/-- A permit that a closure has not released belongs to a worker that is active
or has raised. -/
theorem Inv.held_eq {n : Nat} {s : Pool ω β} (h : Inv n s) :
    s.held = s.pc.permits + s.active + s.raised := by
  have hcalls (calls : List (Call β)) (hreleased : ∀ call ∈ calls, call.released =
      call.status.releases) :
      calls.countP (·.released = 0) =
        calls.countP (·.status.isActive) + calls.countP (·.status.isRaised) := by
    induction calls with
    | nil => rfl
    | cons call calls ih =>
        have hcall := hreleased call (by simp)
        have hrest := ih fun other hother => hreleased other (by simp [hother])
        rw [List.countP_cons, List.countP_cons, List.countP_cons, hrest, hcall]
        rcases call.status with _ | _ | (_ | _) <;>
          simp [CallStatus.releases, CallStatus.isActive, CallStatus.isRaised] <;> omega
  rw [Pool.held, Pool.active, Pool.raised, hcalls s.calls h.released]
  omega

/-- The loop waits for ever when every permit has gone to a worker that raised. -/
theorem Inv.blocked_iff {n : Nat} {s : Pool ω β} (h : Inv n s) (hpc : s.pc = .acquiring) :
    (s.available = 0 ∧ s.active = 0) ↔ s.raised = n := by
  have hpermits := h.permits
  rw [h.held_eq, hpc] at hpermits
  simp only [Pc.permits] at hpermits
  omega

theorem raised_eq_zero {s : Pool ω β} :
    s.raised = 0 ↔ ∀ call ∈ s.calls, call.status ≠ .ended .raised := by
  rw [Pool.raised, List.countP_eq_zero]
  refine forall₂_congr fun call _ => ?_
  rcases call.status with _ | _ | (_ | _) <;> simp [CallStatus.isRaised]

/-- Every permit of a file comes back, the loop never waits for ever, and `Ok(())` means that every
worker returned `Ok`. These are three claims on one state, and a raising worker breaks all of them,
as its closure is left before it gives back the permit or records an error. -/
structure Accounted (s : Pool ω β) : Prop where
  releasedOnce : ∀ call ∈ s.calls, ∀ c, call.status = .ended c → call.released = 1
  notBlocked : s.pc = .acquiring → s.available = 0 → 0 < s.active
  okMeansOk : s.pc = .returned (.ok ()) →
    ∀ call ∈ s.calls, call.status = .ended (.returned (.ok ()))

/-- A pool that returns `Ok(())` has recorded no error. -/
theorem result_ok_iff {s : Pool ω β} : s.result = .ok () ↔ s.errors = [] ∧ s.cancelled = false := by
  unfold Pool.result
  by_cases herrors : s.errors = []
  · by_cases hc : s.cancelled = true
    · simp [herrors, hc]
    · simp [herrors, hc]
  · have hlen : s.errors.length > 0 := List.length_pos_iff.mpr herrors
    simp [hlen, herrors]

theorem Inv.call_ok {n : Nat} {s : Pool ω β} (h : Inv n s) (herrors : s.errors = []) {call : Call β}
    (hcall : call ∈ s.calls) {r : TaskResult} (hr : call.status = .ended (.returned r)) :
    r = .ok () := by
  have hfailures := h.errors
  rw [herrors, List.nil_perm, Pool.failures, List.append_eq_nil_iff, List.flatMap_eq_nil_iff]
    at hfailures
  have hnone := hfailures.1 call hcall
  rw [Call.failure, hr] at hnone
  rcases r with err | u
  · cases hnone
  · rfl

/-- In a run without a raising worker, and in no other, all permits and all
failures are accounted for. -/
theorem drain_accounted_iff {concurrency : Int} (hpos : 0 < concurrency)
    {stream : FileStream ω (File β)} {world : ω} {cancelled : Bool} {s : Pool ω β}
    (hrun : (Pool.drain concurrency stream world cancelled).Reaches s) :
    Accounted s ↔ ∀ call ∈ s.calls, call.status ≠ .ended .raised := by
  have hinv := (Inv.drain hpos stream world cancelled).run hrun
  constructor
  · intro h call hcall hraised
    have hone := h.releasedOnce call hcall .raised hraised
    rw [hinv.released call hcall, hraised] at hone
    cases hone
  · intro hnone
    have hreturned {call : Call β} (hcall : call ∈ s.calls) {c : Completion}
        (hc : call.status = .ended c) : ∃ r, c = .returned r := by
      cases c with
      | returned r => exact ⟨r, rfl⟩
      | raised => exact absurd hc (hnone call hcall)
    constructor
    · intro call hcall c hc
      obtain ⟨r, rfl⟩ := hreturned hcall hc
      rw [hinv.released call hcall, hc]
      rfl
    · intro hpc havailable
      -- all permits would have gone to raising workers, of which there are none
      by_contra hactive
      have hblocked := (hinv.blocked_iff hpc).mp ⟨havailable, by omega⟩
      rw [raised_eq_zero.mpr hnone] at hblocked
      omega
    · intro hpc call hcall
      obtain ⟨hended, -, hresult⟩ := hinv.returned _ hpc
      obtain ⟨c, hc⟩ := hended call hcall
      obtain ⟨r, rfl⟩ := hreturned hcall hc
      rw [hc, hinv.call_ok (result_ok_iff.mp hresult.symm).1 hcall hc]

/-! A stream of one file. -/

def sampleFile : File Unit := ⟨"/", "/src", "/src/a.js", .empty, [], none⟩

def sampleStream (history : List Callback) (closed : Bool) : FileStream Unit (File Unit) :=
  .source (fun index w => (.ok [sampleFile][index]?, w)) id history closed

/-- The first closure is in its call of the worker, and the loop begins again. -/
theorem sample_running (k : Nat) :
    (Pool.drain ((k + 1 : Nat) : Int) (.fileStream [sampleFile]) () false).Reaches
      ⟨.loop false, k, sampleStream [.pull] false, (), false, [], [⟨sampleFile, .running, 0⟩],
        [.reply (.ok (some sampleFile))]⟩ := by
  have hentered : (Pool.drain ((k + 1 : Nat) : Int) (.fileStream [sampleFile]) () false).Reaches
      ⟨.acquiring, k + 1, sampleStream [] false, (), false, [], [], []⟩ := .single (.enter rfl rfl)
  have hacquired := hentered.tail (.acquire rfl rfl)
  have hpulled := hacquired.tail (@Pool.Step.pull _ _ _ 1 _ _ _ rfl rfl rfl)
  have hstarted := hpulled.tail (@Pool.Step.start _ _ _ [] [] _ rfl rfl)
  exact hstarted

/-- Once the only call is over and there is a permit, the loop finds the end. -/
theorem sample_returns (k released : Nat) (c : Completion) (log : List (Observation Unit)) :
    Pool.Reaches
      ⟨.loop false, k + 1, sampleStream [.pull] false, (), false, [],
        [⟨sampleFile, .ended c, released⟩], log⟩
      ⟨.returned (.ok ()), k + 1, sampleStream [.pull, .pull, .close] true, (), false, [],
        [⟨sampleFile, .ended c, released⟩], log ++ [.reply (.ok none)]⟩ := by
  have hentered := (Relation.ReflTransGen.refl (r := Pool.Step) (a := ⟨.loop false, k + 1,
    sampleStream [.pull] false, (), false, [], [⟨sampleFile, .ended c, released⟩], log⟩)).tail
    (.enter rfl rfl)
  have hacquired := hentered.tail (.acquire rfl rfl)
  have hended := hacquired.tail (@Pool.Step.pull _ _ _ 1 _ _ _ rfl rfl rfl)
  refine (hended.tail (.leaveDone rfl)).tail (.exit rfl ?_)
  intro call hcall
  rw [List.mem_singleton.mp hcall]
  exact ⟨c, rfl⟩

/-- The second of three files. -/
def otherFile : File Unit := ⟨"/", "/src", "/src/b.js", .empty, [], none⟩

/-- Two calls of the worker run at once. The second fails, which stops the loop before the third
file is pulled, and then the first one returns. -/
theorem sample_stopped : ∃ s : Pool Unit Unit,
    (Pool.drain 2 (.fileStream [sampleFile, otherFile, sampleFile]) () false).Reaches s ∧
    s.pc = .returned (.error (.parallelFailed
      [(otherFile.relativePath, (MulpError.taskFailed "b" "no").message)])) ∧
    s.calls.map (·.file) = [sampleFile, otherFile] ∧
    ∀ call ∈ s.calls, call.status ≠ .ended .raised := by
  have hstart : (Pool.drain 2 (.fileStream [sampleFile, otherFile, sampleFile]) () false).Reaches
      (Pool.drain 2 (.fileStream [sampleFile, otherFile, sampleFile]) () false) := .refl
  have hfirst := (hstart.tail (.enter rfl rfl)).tail (.acquire rfl rfl)
  have hone := hfirst.tail (@Pool.Step.pull _ _ _ 1 _ _ _ rfl rfl rfl)
  have honeRuns := hone.tail (@Pool.Step.start _ _ _ [] [] _ rfl rfl)
  have hsecond := (honeRuns.tail (.enter rfl rfl)).tail (.acquire rfl rfl)
  have htwo := hsecond.tail (@Pool.Step.pull _ _ _ 1 _ _ _ rfl rfl rfl)
  have htwoRun := htwo.tail (@Pool.Step.start _ _ _ [⟨sampleFile, .running, 0⟩] [] _ rfl rfl)
  have hfailed := htwoRun.tail (@Pool.Step.finish _ _ _ [⟨sampleFile, .running, 0⟩] [] _
    (.returned (.error (.taskFailed "b" "no"))) rfl rfl)
  have hleft := hfailed.tail (.leaveCancelled rfl rfl)
  have hreturned := hleft.tail (@Pool.Step.finish _ _ _ [] _ _ (.returned (.ok ())) rfl rfl)
  refine ⟨_, hreturned.tail (.exit rfl ?_), rfl, rfl, ?_⟩
  · intro call hcall
    rcases List.mem_cons.mp hcall with rfl | hcall
    · exact ⟨_, rfl⟩
    · rw [List.mem_singleton.mp hcall]
      exact ⟨_, rfl⟩
  · intro call hcall
    rcases List.mem_cons.mp hcall with rfl | hcall
    · exact nofun
    · rw [List.mem_singleton.mp hcall]
      exact nofun

/-- The pool of `sample_stopped`. -/
theorem stopped_accounted : ∃ s : Pool Unit Unit,
    s.calls.map (·.file) = [sampleFile, otherFile] ∧ Accounted s := by
  obtain ⟨s, hrun, -, hcalls, hnone⟩ := sample_stopped
  exact ⟨s, hcalls, (drain_accounted_iff (by decide) hrun).mpr hnone⟩

/-- A worker that raises on the only file: a pool of one then waits for a permit
for ever, and a pool of two returns `Ok(())`. -/
theorem raising_worker_not_accounted :
    (∃ s : Pool Unit Unit, (Pool.drain 1 (.fileStream [sampleFile]) () false).Reaches s ∧
      s.pc = .acquiring ∧ s.available = 0 ∧ s.active = 0 ∧ ¬ Accounted s) ∧
    ∃ s : Pool Unit Unit, (Pool.drain 2 (.fileStream [sampleFile]) () false).Reaches s ∧
      s.pc = .returned (.ok ()) ∧ (∃ call ∈ s.calls, call.status = .ended .raised) ∧
      ¬ Accounted s := by
  have hraised (k : Nat) :=
    (sample_running k).tail (@Pool.Step.finish _ _ _ [] [] _ .raised rfl rfl)
  constructor
  · refine ⟨_, (hraised 0).tail (.enter rfl rfl), rfl, rfl, rfl, fun h => ?_⟩
    exact absurd (h.notBlocked rfl rfl) (by decide)
  · refine ⟨_, (hraised 1).trans (sample_returns 0 0 .raised _), rfl,
      ⟨_, List.mem_singleton_self _, rfl⟩, fun h => ?_⟩
    cases h.okMeansOk rfl _ (List.mem_singleton_self _)

/-! ## Safety -/

/-- What `drain` leaves behind and returns when no worker raises. The result is told from the calls,
the stream and the token alone, so that it says nothing of the order in which the workers have
ended. -/
structure Settled (n : Nat) (s : Pool ω β) (r : TaskResult) : Prop where
  ended : ∀ call ∈ s.calls, ∃ r, call.status = .ended (.returned r)
  permits : s.available = n
  closed : s.stream.closed = true
  ok_iff : r = .ok () ↔ (∀ call ∈ s.calls, call.status = .ended (.returned (.ok ()))) ∧
    .reply (.ok none) ∈ s.log ∧ s.cancelled = false
  /-- One entry for each failing call and for a failing stream, if there is any. -/
  failed : r ≠ .ok () →
    (s.failures = [] ∧ r = .error (.taskFailed "worker pool" "cancelled")) ∨
    ∃ errors, errors ≠ [] ∧ errors ~ s.failures ∧ r = .error (.parallelFailed errors)

structure Safe (n : Nat) (s : Pool ω β) : Prop where
  active_le : s.active ≤ n
  permits : s.held + s.available = n
  /-- The files pulled are those of the calls, one call for each. -/
  handed : s.log.flatMap Observation.files = s.calls.map (·.file)
  noPull : ∀ before o after, s.log = before ++ o :: after → o.isStop = true →
    ∀ r, .reply r ∉ after
  settled : ∀ r, s.pc = .returned r → Settled n s r

theorem Logged.files {pc : Pc} {calls : List (Call β)} {log : List (Observation β)}
    (h : Logged pc calls log) : log.flatMap Observation.files = calls.map (·.file) := by
  obtain ⟨stop, rfl, hstop⟩ := h
  have hnone : stop.flatMap Observation.files = [] := by
    by_cases hover : pc.isOver = true
    · rw [if_pos hover] at hstop
      obtain ⟨o, rfl, ho⟩ := hstop
      rcases o with (err | _ | file) | _ <;> first | rfl | cases ho
    · rw [if_neg hover] at hstop
      rw [hstop]
      rfl
  have hcalls : (calls.map fun call => Observation.reply (.ok (some call.file))).flatMap
      Observation.files = calls.map (·.file) := by
    induction calls with
    | nil => rfl
    | cons call calls ih => simpa [Observation.files] using ih
  rw [List.flatMap_append, hcalls, hnone, List.append_nil]

theorem Logged.noPull {pc : Pc} {calls : List (Call β)} {log : List (Observation β)}
    (h : Logged pc calls log) (before : List (Observation β)) (o : Observation β)
    (after : List (Observation β)) (heq : log = before ++ o :: after) (ho : o.isStop = true)
    (r : FileReply (File β)) : .reply r ∉ after := by
  obtain ⟨stop, rfl, hstop⟩ := h
  have hlen : stop.length ≤ 1 := by
    by_cases hover : pc.isOver = true
    · rw [if_pos hover] at hstop
      obtain ⟨o, rfl, -⟩ := hstop
      exact Nat.le_refl 1
    · rw [if_neg hover] at hstop
      rw [hstop]
      exact Nat.zero_le 1
  clear hstop
  induction calls generalizing before with
  | nil =>
      have hlength := congrArg List.length heq
      simp at hlength
      have hnil : after = [] := List.length_eq_zero_iff.mp (by omega)
      rw [hnil]
      exact List.not_mem_nil
  | cons call calls ih =>
      rcases before with _ | ⟨first, before⟩
      · -- a file is no reason to stop
        cases heq
        cases ho
      · exact ih before (List.cons.inj heq).2

theorem Inv.settled {n : Nat} {s : Pool ω β} (h : Inv n s)
    (hnone : ∀ call ∈ s.calls, call.status ≠ .ended .raised) {r : TaskResult}
    (hpc : s.pc = .returned r) : Settled n s r := by
  obtain ⟨hended, hclosed, rfl⟩ := h.returned r hpc
  have hreturned : ∀ call ∈ s.calls, ∃ r, call.status = .ended (.returned r) := by
    intro call hcall
    obtain ⟨c, hc⟩ := hended call hcall
    cases c with
    | returned r => exact ⟨r, hc⟩
    | raised => exact absurd hc (hnone call hcall)
  refine ⟨hreturned, ?_, hclosed, ?_, ?_⟩
  -- a call that has returned holds no permit, and one that raised would keep it
  · have hactive : s.active = 0 := by
      rw [Pool.active, List.countP_eq_zero]
      intro call hcall
      obtain ⟨r, hr⟩ := hreturned call hcall
      simp [hr, CallStatus.isActive]
    have hpermits := h.permits
    rw [h.held_eq, hactive, raised_eq_zero.mpr hnone, hpc] at hpermits
    simp only [Pc.permits] at hpermits
    omega
  · rw [result_ok_iff]
    constructor
    · intro ⟨herrors, hlive⟩
      refine ⟨?_, (h.atEnd (by rw [hpc]; rfl) hlive).2, hlive⟩
      intro call hcall
      obtain ⟨r, hr⟩ := hreturned call hcall
      rw [hr, h.call_ok herrors hcall hr]
    · intro ⟨_, _, hlive⟩
      exact ⟨h.cancels hlive, hlive⟩
  · intro hfailed
    by_cases herrors : s.errors = []
    · left
      have hcancelled : s.cancelled = true := by
        by_contra hc
        exact hfailed (result_ok_iff.mpr ⟨herrors, Bool.eq_false_iff.mpr hc⟩)
      have hfailures := h.errors
      rw [herrors, List.nil_perm] at hfailures
      exact ⟨hfailures, by simp [Pool.result, herrors, hcancelled]⟩
    · right
      have hlen : s.errors.length > 0 := List.length_pos_iff.mpr herrors
      exact ⟨s.errors, herrors, h.errors, if_pos hlen⟩

/-- A run in which no worker raises is safe in all its states. -/
theorem drain_safe {concurrency : Int} (hpos : 0 < concurrency) {stream : FileStream ω (File β)}
    {world : ω} {cancelled : Bool} {s : Pool ω β}
    (hrun : (Pool.drain concurrency stream world cancelled).Reaches s)
    (hnone : ∀ call ∈ s.calls, call.status ≠ .ended .raised) : Safe concurrency.toNat s := by
  have h := (Inv.drain hpos stream world cancelled).run hrun
  refine ⟨?_, h.permits, h.log.files, h.log.noPull, fun r hr => h.settled hnone hr⟩
  have hpermits := h.permits
  rw [h.held_eq] at hpermits
  omega

/-- The pool of `sample_stopped`. -/
theorem stopped_safe : ∃ s : Pool Unit Unit,
    s.pc = .returned (.error (.parallelFailed
      [(otherFile.relativePath, (MulpError.taskFailed "b" "no").message)])) ∧ Safe 2 s := by
  obtain ⟨s, hrun, hpc, -, hnone⟩ := sample_stopped
  exact ⟨s, hpc, drain_safe (by decide) hrun hnone⟩

end Mulp.StreamAsync
