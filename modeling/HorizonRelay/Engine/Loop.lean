import HorizonRelay.Engine.Relay

/-!
# The event loop

How the requests of a run's tasks are answered: by the provider and the progress callback,
which may answer anything at any time and may catch a cancellation, and by `asyncio`, whose
lock, semaphore, `gather` and cancellation do what they are documented to do.  Which task is
resumed next, what the provider says, how long everything takes, and when the deadline or a
cancellation lands, is the environment's choice.

## Main definitions

* `Choice`, `answer` — the answers a request may get.
* `Move`, `move` — the environment's own moves.
* `Setup.system` — a run as a system of threads.
-/

namespace HorizonRelay

open Py Coop

/-- How the environment answers a request. -/
inductive Choice : Type
  /-- The ordinary answer. -/
  | go
  /-- The cancellation that was asked for. -/
  | cancel
  /-- The provider's reply; `none` is a value that is no `Reply`. -/
  | reply (r : Option Reply)
  /-- The provider, or the progress callback, raises. -/
  | raise (e : Exc)
  /-- The time limit of a model call, of a callback or of the description is exceeded. -/
  | timeout
  /-- The provider's description of where its models run. -/
  | found (d : Dict Str Json)

/-- The environment's own moves. -/
inductive Move : Type
  | tick (d : ℚ)
  /-- How long it takes, from now on, to begin a call. -/
  | pace (delay lag : NNRat)
  /-- The run deadline passes. -/
  | deadline
  /-- The run is cancelled from outside. -/
  | cancelRun
  /-- The model of a streamed call writes a chunk. -/
  | delta (call : ℕ) (text : Str)

namespace Run

/-- A cancellation reaches its task. -/
def uncancel (i : Thread) (s : Run) : Run := { s with cancels := s.cancels.erase i }

/-- The first error of the jobs of a list, in the order they ended. -/
def firstError (s : Run) (js : List ℕ) : Option Exc :=
  s.doneJobs.findSome? fun n =>
    if n ∈ js then s.errorOf n else none

/-- Leave a `gather`. -/
def gathered (s : Run) : Run := { s with gathering := none, gatherCancelled := false }

end Run

/-- Whether a task waiting in the lock's queue is next: nobody holds the lock, and those
ahead of it are being cancelled. -/
def Lock.next (l : Lock) (cancels : List Thread) (i : Thread) : Bool :=
  l.holder.isNone && (l.waiters.takeWhile (· ≠ i)).all cancels.contains

/-- What a cancellation leaves behind at the request it ends. -/
def leave (i : Thread) : Op → Run → Run
  | .lock, s => (s.uncancel i).dequeue i
  | .emit e, s => (s.uncancel i).see (.emitted e.seq)
  | .gather _, s | .join _, s => (s.uncancel i).gathered
  | _, s => s.uncancel i

/-- Whether a cancellation can end a request now: a job must exist, and a `gather` of
ended jobs must have them all. -/
def Op.interruptible (s : Run) : Op → Bool
  | .start n => s.running n
  | .join js => !js.any s.toLedger.running
  | _ => true

/-- The cancellation asked of task `i` reaches it. -/
def answerCancel (i : Thread) (op : Op) (s : Run) : Option (Except Exc (Ans op) × Run) :=
  if i ∈ s.cancels ∧ op.interruptible s = true then some (.error cancelledError, leave i op s)
  else none

/-- The answer of `gather`: the first error, or all values in the order of the jobs. -/
def answerGather (js : List ℕ) (s : Run) : Option (Except Exc (List Json) × Run) :=
  match s.firstError js with
  | some e => some (.error e, s.gathered)
  | none =>
      (js.mapM s.toLedger.valueOf).map fun values =>
        if s.gatherCancelled then (.error cancelledError, s.gathered)
        else (.ok values, s.gathered)

/-- The answer of `gather` with `return_exceptions`: all jobs are done. -/
def answerJoin (js : List ℕ) (s : Run) : Option (Except Exc Unit × Run) :=
  if js.any s.toLedger.running then none
  else if s.gatherCancelled then some (.error cancelledError, s.gathered)
  else some (.ok (), s.gathered)

/-- An exception out of call `k`. -/
def ofCall (k : ℕ) (e : Exc) : Exc := { e with call := some k }

/-- The provider's answer to call `k`. A provider may catch a cancellation and answer all
the same. -/
def answerComplete (i : Thread) (k : ℕ) (s : Run) :
    Choice → Option (Except Exc (Option Reply) × Run)
  | .reply r => some (.ok r, s.uncancel i)
  | .raise e => if e.isException then some (.error (ofCall k e), s.uncancel i) else none
  | .timeout => some (.error (ofCall k timeoutError), s.uncancel i)
  | _ => none

/-- The answer of the progress callback: it returns, raises, or takes too long. A callback that
is cancelled may catch the cancellation and return or raise all the same. -/
def answerEmit (i : Thread) (e : RelayEvent) (s : Run) : Choice → Option (Except Exc Unit × Run)
  | .go => some (.ok (), (s.uncancel i).see (.emitted e.seq))
  | .raise err =>
      if err.isException then some (.error err, (s.uncancel i).see (.emitted e.seq)) else none
  | .timeout => some (.error timeoutError, (s.uncancel i).see (.emitted e.seq))
  | _ => none

/-- The provider's description of where its models run. A cancellation may be caught here,
too. -/
def answerLocations (i : Thread) (s : Run) : Choice → Option (Except Exc (Dict Str Json) × Run)
  | .found d => some (.ok d, s.uncancel i)
  | .raise e => if e.isException then some (.error e, s.uncancel i) else none
  | .timeout => some (.error timeoutError, s.uncancel i)
  | _ => none

/-- An answer that is given in one way only. -/
def Choice.ordinary {α : Type} (m : Choice) (a : Option α) : Option α :=
  match m with
  | .go => a
  | _ => none

/-- The answers of a request that is not cancelled. -/
def answerOp (x : Setup) (i : Thread) (op : Op) (s : Run) (m : Choice) :
    Option (Except Exc (Ans op) × Run) :=
  match op with
  | .begin => m.ordinary (some (.ok (), s))
  | .start n =>
      m.ordinary (if s.running n then (s.jobs[n]?).map fun job => (.ok job.task, s) else none)
  | .locations => answerLocations i s m
  | .lock =>
      m.ordinary
        (if s.eventLock.next s.cancels i then some (.ok (), (s.dequeue i).hold i) else none)
  | .emit e => answerEmit i e s m
  | .slot =>
      m.ordinary
        (if s.slots < x.limits.localConcurrency then
          some (.ok (), { s with slots := s.slots + 1 }) else none)
  | .complete k => answerComplete i k s m
  | .sleep k => m.ordinary (if (s.live k).watched then some (.ok (), s) else none)
  | .gather js => m.ordinary (answerGather js s)
  | .join js => m.ordinary (answerJoin js s)

/-- Whether a request goes to code of the provider or of the caller, where a cancellation may
be caught. -/
def Op.isForeign : Op → Bool
  | .complete _ | .emit _ | .locations => true
  | _ => false

/-- The answers of task `i`'s request. A task that was asked to stop gets its cancellation
next, except inside foreign code. -/
def answer (x : Setup) (i : Thread) (op : Op) (s : Run) (m : Choice) :
    Option (Except Exc (Ans op) × Run) :=
  match m with
  | .cancel => answerCancel i op s
  | m => if i ∈ s.cancels ∧ op.isForeign = false then none else answerOp x i op s m

/-- The environment's own moves. -/
def move (x : Setup) : Move → Run → Option Run
  | .tick d, s => if 0 ≤ d then some (s.pass d) else none
  | .pace delay lag, s => some { s with delay, lag }
  | .deadline, s =>
      if s.timer = .armed then
        some { s.cancelMain with timer := .expired }
      else none
  | .cancelRun, s =>
      if s.outcome.isSome then none
      else if s.shielded then some { s with outside := true }
      else some { s.cancelMain with outside := true }
  | .delta k text, s =>
      match s.calls[k]? with
      | some c =>
          if (x.emit || x.onDelta) && x.provider.streams && c.ended.isNone then
            let s := s.setLive k fun l => { l with text := l.text ++ text }
            some (if x.onDelta then s.see (.delta k text) else s)
          else none
      | none => none

/-- What a task returns. -/
inductive Result : Type
  /-- The caller's task. -/
  | run (r : RunResult)
  /-- A worker job. -/
  | value (v : Json)
  /-- One turn of a follower: whether there is a next. -/
  | again (more : Bool)

/-- The code of each task. -/
def start (x : Setup) : Thread → Prog Result
  | .main => do
      let r ← run x
      pure (.run r)
  | .job n => do
      let v ← worker x n
      pure (.value v)
  | .follower k => do
      let more ← follow x k
      pure (.again more)

/-- What the end of a task leaves. -/
def finish : Thread → Except Exc Result → Run → Run
  | .main, .ok (.run r), s => { s with outcome := some (.ok r) }
  | .main, .error e, s => { s with outcome := some (.error e) }
  | .job n, .ok (.value v), s => s.endJob n (.ok v)
  | .job n, .error e, s => s.endJob n (.error e)
  | _, _, s => s

/-- A run, as a system of threads. -/
def Setup.system (x : Setup) : System Thread Op Ans Run Exc Result Choice Move where
  start := start x
  answer := answer x
  finish := finish
  again
    | .follower _, .again more => more
    | _, _ => false
  move := move x

/-- The states of a run, with what is left of each of its tasks. -/
abbrev State : Type := Config Thread Op Ans Run Exc Result

/-- The reachable states of a run, under every behaviour of its environment. -/
def Setup.Reachable (x : Setup) (c : State) : Prop := x.system.Reach {} System.anyStep c

end HorizonRelay
