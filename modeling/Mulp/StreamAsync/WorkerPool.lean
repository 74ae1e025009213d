import Mathlib.Data.List.Perm.Basic
import Mulp.Core.AsyncTask
import Mulp.Stream.FileStream

/-! The worker pool (`stream_async/worker_pool.mbt`).

`drain` is a coroutine that pulls files from a stream and spawns a closure for
each; the closures call the worker. What lies between two suspension points is
one step; the step relation below allows at least the interleavings the scheduler
does. `Semaphore(n)` is a counter on which `acquire` waits while it is zero,
`with_task_group` waits for all spawned closures, and
`spawn_bg(allow_failure=true)` discards the error a closure raises. -/
namespace Mulp.StreamAsync

open Mulp.Core Mulp.Stream

/-- Where the coroutine of `drain` has come to. It suspends in `acquire` and in the wait for the
closures; the token may be cancelled at any such point, and is looked at before and after the first.
-/
inductive Pc where
  /-- At the condition of the loop. -/
  | loop (done : Bool)
  /-- In `semaphore.acquire()`. -/
  | acquiring
  /-- With a permit, before the second look at the token. -/
  | acquired
  /-- At the end of `with_task_group`'s closure. -/
  | waiting
  | returned (r : TaskResult)

/-- Where a spawned closure has come to: it has not started, it is in the call of
the worker, or it is over and the call ended so. -/
inductive CallStatus where
  | spawned
  | running
  | ended (c : Completion)

/-- A spawned closure, with how often it has released its permit. -/
structure Call (β : Type) where
  file : File β
  status : CallStatus
  released : Nat

/-- What the loop has learned: the answer of `stream.next()`, or that the token
is cancelled. -/
inductive Observation (β : Type) where
  | reply (r : FileReply (File β))
  | cancelled

/-- The state of a call of `drain`, with the closures spawned and the
observations made so far. The callbacks of the stream and the worker act on the
world `ω`. -/
structure Pool (ω β : Type) where
  pc : Pc
  available : Nat
  stream : FileStream ω (File β)
  world : ω
  cancelled : Bool
  errors : List (String × String)
  calls : List (Call β)
  log : List (Observation β)

namespace Call

variable {β : Type}

def spawn (file : File β) : Call β := ⟨file, .spawned, 0⟩

/-- The closure at the end of the worker's call: a raised error leaves it before
the release. -/
def finish (self : Call β) : Completion → Call β
  | .returned r => { self with status := .ended (.returned r), released := self.released + 1 }
  | .raised => { self with status := .ended .raised }

end Call

namespace Pool

variable {ω β : Type}

def release (s : Pool ω β) : Pool ω β := { s with available := s.available + 1 }

/-- `stream.close()`. -/
def closeStream (s : Pool ω β) : Pool ω β :=
  { s with stream := (s.stream.close s.world).1, world := (s.stream.close s.world).2 }

/-- An entry in `errors`, and `ctx.cancellation.cancel()`. -/
def fail (s : Pool ω β) (name : String) (err : MulpError) : Pool ω β :=
  { s with errors := s.errors ++ [(name, err.message)], cancelled := true }

/-- What the closure of a file does once the worker's call has ended. -/
def endCall (s : Pool ω β) (file : File β) : Completion → Pool ω β
  | .returned (.ok _) => s.release
  | .returned (.error err) => (s.fail file.relativePath err).release
  | .raised => s

/-- The part of the loop's body after `stream.next()`. -/
def onReply (s : Pool ω β) : FileReply (File β) → Pool ω β
  | .ok (some file) => { s with pc := .loop false, calls := s.calls ++ [.spawn file] }
  | .ok none => { s.release with pc := .loop true }
  | .error err => { (s.release.fail "stream" err).closeStream with pc := .loop true }

/-- What `drain` returns: the errors if there are any, and otherwise whether the token was
cancelled. -/
def result (s : Pool ω β) : TaskResult :=
  if s.errors.length > 0 then .error (.parallelFailed s.errors)
  else if s.cancelled then .error (.taskFailed "worker pool" "cancelled")
  else .ok ()

/-- The call of `AsyncFileWorkerPool::drain`. -/
def drain (concurrency : Int) (stream : FileStream ω (File β)) (world : ω) (cancelled : Bool) :
    Pool ω β :=
  { pc := if concurrency ≤ 0 then
        .returned (.error (.streamError "worker pool concurrency must be positive"))
      else .loop false
    available := concurrency.toNat
    stream, world, cancelled
    errors := []
    calls := []
    log := [] }

/-- One step. -/
inductive Step : Pool ω β → Pool ω β → Prop where
  | enter {s : Pool ω β} (hpc : s.pc = .loop false) (hlive : s.cancelled = false) :
      Step s { s with pc := .acquiring }
  | leaveDone {s : Pool ω β} (hpc : s.pc = .loop true) : Step s { s with pc := .waiting }
  | leaveCancelled {s : Pool ω β} (hpc : s.pc = .loop false) (hcancelled : s.cancelled = true) :
      Step s { s with pc := .waiting, log := s.log ++ [.cancelled] }
  | acquire {s : Pool ω β} {k : Nat} (hpc : s.pc = .acquiring) (hpermit : s.available = k + 1) :
      Step s { s with pc := .acquired, available := k }
  | giveUp {s : Pool ω β} (hpc : s.pc = .acquired) (hcancelled : s.cancelled = true) :
      Step s { s.release.closeStream with pc := .loop true, log := s.log ++ [.cancelled] }
  | pull {s : Pool ω β} {n : Nat} {r : FileReply (File β)} {stream : FileStream ω (File β)}
      {world : ω} (hpc : s.pc = .acquired) (hlive : s.cancelled = false)
      (hnext : s.stream.next n s.world = (some r, stream, world)) :
      Step s (onReply { s with stream, world, log := s.log ++ [.reply r] } r)
  | start {s : Pool ω β} {before after : List (Call β)} {call : Call β}
      (hcalls : s.calls = before ++ call :: after) (hstatus : call.status = .spawned) :
      Step s { s with calls := before ++ { call with status := .running } :: after }
  | finish {s : Pool ω β} {before after : List (Call β)} {call : Call β} {c : Completion}
      (hcalls : s.calls = before ++ call :: after) (hstatus : call.status = .running) :
      Step s { s.endCall call.file c with calls := before ++ call.finish c :: after }
  /-- The token is cancelled, from inside or outside. -/
  | cancel {s : Pool ω β} (hpc : ∀ r, s.pc ≠ .returned r) : Step s { s with cancelled := true }
  /-- Something else happens to the world. -/
  | outside {s : Pool ω β} {world : ω} (hpc : ∀ r, s.pc ≠ .returned r) : Step s { s with world }
  | exit {s : Pool ω β} (hpc : s.pc = .waiting)
      (hended : ∀ call ∈ s.calls, ∃ c, call.status = .ended c) :
      Step s
        { (if s.cancelled then s.closeStream else s) with pc := .returned s.result }

/-- Any number of steps. -/
def Reaches : Pool ω β → Pool ω β → Prop := Relation.ReflTransGen Step

end Pool

end Mulp.StreamAsync
