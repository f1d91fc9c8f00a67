import HorizonRelay.Events
import HorizonRelay.Lib.Scheduler
import Mathlib.Data.NNRat.Defs

/-!
# The state of a run

Everything the tasks of one run share: what the run has recorded, and what the event loop
knows about its tasks, its lock and its timers.  The history (which calls were requested,
which events were handed out, how each call ended) is kept so that statements can speak
about a whole run.

## Main definitions

* `Setup` — an engine and one request to it.
* `Thread`, `Op` — the tasks of a run, and what they suspend at.
* `Call`, `Job`, `Ledger`, `Run` — the calls, the worker jobs, the records and the whole state.
* `Run.addCall`, `Run.setCall`, `Run.cancel` and the other updates.
-/

namespace HorizonRelay

open Py Coop

/-- An engine with one request to it. -/
structure Setup : Type where
  lib : StdLib
  provider : Provider := {}
  limits : Limits := {}
  policy : RoutingPolicy := {}
  goal : Str
  sources : Dict Str Str
  localExtract : Bool := false
  /-- Whether the caller wants progress events. -/
  emit : Bool := false
  /-- Whether the caller wants each chunk a model writes. -/
  onDelta : Bool := false

/-- The tasks of a run: the caller's own, one per worker job, and one following each
streamed call. -/
inductive Thread : Type
  | main
  | job (n : ℕ)
  | follower (call : ℕ)
  deriving DecidableEq

/-- What a task suspends at. -/
inductive Op : Type
  /-- The caller awaits `RelayEngine.run`. -/
  | begin
  /-- A worker job waits for its first turn. -/
  | start (n : ℕ)
  /-- The provider describes where its models run. -/
  | locations
  /-- The event lock's queue. -/
  | lock
  /-- The progress callback handles an event. -/
  | emit (e : RelayEvent)
  /-- A free slot for local work. -/
  | slot
  /-- The provider completes a call. -/
  | complete (call : ℕ)
  /-- A follower sleeps for `LIVE_INTERVAL`. -/
  | sleep (call : ℕ)
  /-- `asyncio.gather` of jobs. -/
  | gather (jobs : List ℕ)
  /-- `asyncio.gather` of jobs, with `return_exceptions`. -/
  | join (jobs : List ℕ)

/-- What each request is answered with. A reply that is not a `Reply` is `none`. -/
@[reducible] def Ans : Op → Type
  | .start _ => Task
  | .locations => Dict Str Json
  | .complete _ => Option Reply
  | .gather _ => List Json
  | _ => Unit

/-- One model call. -/
structure Call : Type where
  thread : Thread
  payload : Payload
  record : CallRecord
  /-- History: when its record was made. -/
  opened : ℚ
  /-- When the time it takes began. -/
  begun : ℚ
  opened_le : opened ≤ begun
  /-- History: what the call returned or raised. -/
  ended : Option (Except Exc Json) := none

/-- What a streamed call has written, and its follower. -/
structure Live : Type where
  text : Str := []
  shown : ℕ := 0
  watched : Bool := false
  /-- Whether the follower was cancelled. -/
  stopped : Bool := false

/-- A worker task. -/
structure Job : Type where
  task : Task
  outcome : Option (Except Exc Json) := none

/-- The event lock: who holds it and who waits for it, first come first. -/
structure Lock : Type where
  holder : Option Thread := none
  waiters : List Thread := []

/-- The run deadline's timer. -/
inductive Timer : Type
  | off
  | armed
  | expired
  deriving DecidableEq

/-- What observers have seen, in order. -/
inductive Entry : Type
  /-- The provider was asked to complete a call. -/
  | requested (call : ℕ)
  /-- The progress callback was handed an event. -/
  | handed (e : RelayEvent)
  /-- The callback for an event is over. -/
  | emitted (seq : ℕ)
  /-- A chunk a model wrote was passed on. -/
  | delta (call : ℕ) (text : Str)

/-- The final answer of a run. -/
structure RunResult : Type where
  content : Str
  results : Dict Str Json
  metrics : Metrics

/-- What a run has recorded. -/
structure Ledger : Type where
  calls : List Call := []
  results : Dict Str Json := .empty
  budget : CloudBudget := {}
  /-- The tier whose answer was returned. -/
  route : Option Tier := none
  verdicts : List Verdict := []
  skipped : List Tier := []
  /-- History: the plan `make_plan` returned. -/
  plan : Option Plan := none
  jobs : List Job := []
  /-- History: the tasks of each batch. -/
  batches : List (List Task) := []
  /-- How the caller's task ended. -/
  outcome : Option (Except Exc RunResult) := none

/-- The state of a run: its records, and what the event loop and the observers have. -/
structure Run : Type extends Ledger where
  seq : ℕ := 0
  /-- History: the number of the event each task reported last, or is reporting. -/
  number : Thread → ℕ := fun _ => 0
  /-- Seconds since the run was created. -/
  now : ℚ := 0
  /-- The time a task takes until it makes the record of its next call. -/
  delay : NNRat := 0
  /-- The time from there to the second reading of the clock, when the call begins. -/
  lag : NNRat := 0
  /-- The jobs that are done, in the order they ended. -/
  doneJobs : List ℕ := []
  /-- The jobs the caller's task is gathering. -/
  gathering : Option (List ℕ) := none
  /-- Whether a cancellation was passed on to them. -/
  gatherCancelled : Bool := false
  /-- Tasks with a cancellation to be delivered. -/
  cancels : List Thread := []
  timer : Timer := .off
  /-- Whether the run was cancelled from outside. -/
  outside : Bool := false
  /-- Whether the caller's task is where `asyncio.shield` keeps cancellations from it. -/
  shielded : Bool := false
  eventLock : Lock := {}
  /-- Local work in progress. -/
  slots : ℕ := 0
  lives : List Live := []
  log : List Entry := []

namespace Ledger

/-- The calls a task made, in order. -/
def mine (l : Ledger) (i : Thread) : List Call := l.calls.filter fun c => c.thread = i

/-- Whether job `n` exists and has not ended. -/
def running (l : Ledger) (n : ℕ) : Bool :=
  match l.jobs[n]? with
  | some job => job.outcome.isNone
  | none => false

/-- The value job `n` returned. -/
def valueOf (l : Ledger) (n : ℕ) : Option Json :=
  match (l.jobs[n]?).bind Job.outcome with
  | some (.ok v) => some v
  | _ => none

/-- The error job `n` raised. -/
def errorOf (l : Ledger) (n : ℕ) : Option Exc :=
  match (l.jobs[n]?).bind Job.outcome with
  | some (.error e) => some e
  | _ => none

end Ledger

namespace Run

/-- Milliseconds since a moment, as records have them. -/
def msSince (s : Run) (t : ℚ) : ℤ := roundHalfEven ((s.now - t) * 1000)

/-- The live output of a call. -/
def live (s : Run) (k : ℕ) : Live := (s.lives[k]?).getD {}

/-- `metrics()`. -/
def metrics (x : Setup) (s : Run) : Metrics where
  simulated := x.provider.simulated
  route := s.route
  verdicts := s.verdicts
  skipped := s.skipped
  elapsedMs := s.msSince 0
  localCalls := s.calls.countP fun c => c.record.tier ≠ .cloud
  cloudCalls := s.budget.calls
  completedTasks := s.results.keys
  calls := s.calls.map Call.record

/-! ## Updates -/

/-- Let time pass. -/
def pass (d : ℚ) (s : Run) : Run := { s with now := s.now + d }

/-- The call a task begins. The clock is read twice: for the record, and for the time the
call takes. -/
def newCall (i : Thread) (tier : Tier) (p : Payload) (s : Run) : Call where
  thread := i
  payload := p
  record := .start tier p ((s.pass s.delay).msSince 0)
  opened := (s.pass s.delay).now
  begun := ((s.pass s.delay).pass s.lag).now
  opened_le := le_add_of_nonneg_right s.lag.2

/-- Append the record of a call, and ask the provider. -/
def addCall (i : Thread) (tier : Tier) (p : Payload) (s : Run) : Run :=
  { s with
    calls := s.calls ++ [s.newCall i tier p]
    lives := s.lives ++ [{}]
    log := s.log ++ [.requested s.calls.length]
    now := ((s.pass s.delay).pass s.lag).now }

/-- Change a call. -/
def setCall (k : ℕ) (f : Call → Call) (s : Run) : Run := { s with calls := s.calls.modify k f }

/-- Change the live output of a call. -/
def setLive (k : ℕ) (f : Live → Live) (s : Run) : Run := { s with lives := s.lives.modify k f }

/-- Set a result. -/
def setResult (key : Str) (v : Json) (s : Run) : Run := { s with results := s.results.set key v }

/-- Append to what observers have seen. -/
def see (e : Entry) (s : Run) : Run := { s with log := s.log ++ [e] }

/-- Create a job for each task of a batch. -/
def addJobs (tasks : List Task) (s : Run) : Run :=
  { s with
    jobs := s.jobs ++ tasks.map fun t => { task := t }
    batches := s.batches ++ [tasks] }

/-- Record how a job ended. -/
def endJob (n : ℕ) (r : Except Exc Json) (s : Run) : Run :=
  { s with
    jobs := s.jobs.modify n fun j => { j with outcome := some r }
    doneJobs := s.doneJobs ++ [n] }

/-- Ask a task to stop at the point where it is suspended. -/
def cancel (i : Thread) (s : Run) : Run :=
  { s with cancels := if i ∈ s.cancels then s.cancels else s.cancels ++ [i] }

/-- `job.cancel()` for the jobs of a list that are not done. -/
def cancelJobs (js : List ℕ) (s : Run) : Run :=
  (js.filter s.toLedger.running).foldl (fun s n => s.cancel (.job n)) s

/-- Cancel the caller's task. While it gathers jobs, the request goes on to those of them
that are not done. -/
def cancelMain (s : Run) : Run :=
  match s.gathering with
  | some js =>
      if js.any s.toLedger.running then { s.cancelJobs js with gatherCancelled := true }
      else s.cancel .main
  | none => s.cancel .main

/-- Number the event a task reports. -/
def nextEvent (i : Thread) (s : Run) : Run :=
  { s with seq := s.seq + 1, number := Function.update s.number i (s.seq + 1) }

/-- Take the event lock. -/
def hold (i : Thread) (s : Run) : Run := { s with eventLock.holder := some i }

/-- Wait for the event lock. -/
def enqueue (i : Thread) (s : Run) : Run :=
  { s with eventLock.waiters := s.eventLock.waiters ++ [i] }

/-- Leave the event lock's queue. -/
def dequeue (i : Thread) (s : Run) : Run :=
  { s with eventLock.waiters := s.eventLock.waiters.erase i }

/-- Release the event lock. -/
def release (s : Run) : Run := { s with eventLock.holder := none }

end Run

end HorizonRelay
