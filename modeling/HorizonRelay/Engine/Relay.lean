import HorizonRelay.Engine.State

/-!
# The engine

The tasks of a run, as coroutines: the caller's task that routes, plans and finishes, the
workers of a plan, and the followers of streamed calls.

## Main definitions

* `event`, `callWithRecord`, `follow` — progress events, model calls and live output.
* `judgeLocally`, `cascade` — the local models, smallest first.
* `makePlan`, `runTasks`, `worker` — plan mode.
* `execute`, `run` — one request.
-/

namespace HorizonRelay

open Py Coop

/-- The code of a task. -/
abbrev Prog (α : Type) : Type := Coro Op Ans Run Exc α

/-- Suspend at a request. -/
def ask (op : Op) : Prog (Ans op) := Coro.request op

/-- Characters of thinking and answer kept for display. -/
def liveLimit : ℕ := 6000

def simulatedLabel : Str :=
  "**SIMULATED DEMO — built-in bug reports; no real model or API calls.**\n\n".toList

/-- What a local model is asked to answer: the request, with any earlier conversation. -/
def taskText (goal : Str) (sources : Dict Str Str) : Str :=
  match sources.entries with
  | [(key, conversation)] =>
      if key = "conversation".toList then
        if conversation.strip = "user: ".toList ++ goal then goal
        else conversation ++ "\n\nRespond to the last user message.".toList
      else goal ++ "\n\n".toList ++ section_ (key, conversation)
  | entries => goal ++ "\n\n".toList ++ Str.join "\n\n".toList (entries.map section_)
where
  section_ (e : Str × Str) : Str := ['['] ++ e.1 ++ "]\n".toList ++ e.2

variable (x : Setup)

/-- The text a local model is asked to answer. -/
def Setup.text : Str := taskText x.goal x.sources

/-- The tiers of the provider, smallest first. -/
def Setup.tiers : List Tier := x.provider.tiers

def Setup.modelOf (tier : Tier) : Str := x.provider.modelOf tier

/-- `models.get(tier)`. -/
def Setup.model? (tier : Tier) : Option Str := x.provider.models.lookup tier.name

/-- `label(answer)`. -/
def Setup.label (answer : Str) : Str :=
  if x.provider.simulated then simulatedLabel ++ answer else answer

/-! ## Events -/

/-- `async with event_lock`: entering it suspends only when there is a queue. -/
def acquire (me : Thread) : Prog Unit := do
  let s ← Coro.read
  if s.eventLock.holder = none ∧ s.eventLock.waiters = [] then Coro.update (Run.hold me)
  else do
    Coro.update (Run.enqueue me)
    ask .lock

/-- `except Exception: pass`. A cancellation is no `Exception`. -/
def swallow (c : Prog Unit) : Prog Unit :=
  c.tryExcept fun e => if e.isException then pure () else .raise e

/-- Hand an event to the progress callback. -/
def deliver (e : RelayEvent) : Prog Unit := do
  Coro.update (Run.see (.handed e))
  ask (.emit e)

/-- Report a step, one callback at a time. A display failure must not lose the answer. -/
def event (me : Thread) (data : EventData) (done : Bool := false) : Prog Unit := do
  Coro.update (Run.nextEvent me)
  if x.emit then do
    let s ← Coro.read
    acquire me
    (swallow (deliver ⟨s.seq, data, done, x.provider.simulated⟩)).tryFinally
      (Coro.update Run.release)
  else pure ()

/-! ## Model calls -/

/-- Charge a call on a tier: only the cloud costs. -/
def spend (tier : Tier) (op : Operation) : Prog Unit := do
  let s ← Coro.read
  if tier = .cloud then do
    let (r, b) := s.budget.spend x.limits op
    Coro.update fun s => { s with budget := b }
    Coro.ofExcept r
  else pure ()

/-- Start following what a call writes, when the provider streams and somebody looks. -/
def watch (k : ℕ) : Prog Unit :=
  if (x.emit || x.onDelta) && x.provider.streams && x.emit then
    Coro.update (Run.setLive k fun l => { l with watched := true })
  else pure ()

/-- `if watcher: watcher.cancel()`. -/
def unwatch (k : ℕ) : Prog Unit := do
  let s ← Coro.read
  if (s.live k).watched then
    Coro.update fun s =>
      (s.setLive k fun l => { l with stopped := true }).cancel (.follower k)
  else pure ()

/-- The answer and the judgment in a reply. -/
def openReply (op : Operation) (r : Reply) : Json × Option Judgment :=
  if op = .attempt ∨ op = .work then splitJudgment r.value else (r.value, none)

/-- The record of a call the provider completed. -/
def CallRecord.complete (lib : StdLib) (op : Operation) (r : Reply) (c : CallRecord) :
    CallRecord :=
  { c with
    model := some r.model
    promptTokens := r.promptTokens
    completionTokens := r.completionTokens
    outcome := .completed
    judgment := (openReply op r).2
    tokenStats := answerTokenStats lib r.tokens
    output := some (r.thinking.take liveLimit, r.text.take liveLimit) }

/-- How a call ended, in its record and in the history. -/
def Run.endCall (k : ℕ) (result : Except Exc Json) (f : CallRecord → CallRecord) (s : Run) :
    Run :=
  s.setCall k fun c => { c with record := f c.record, ended := some result }

/-- The time a call took so far. -/
def Run.elapsed (s : Run) (k : ℕ) : ℤ :=
  match s.calls[k]? with
  | some c => s.msSince c.begun
  | none => 0

/-- The record of a call. -/
def Run.recordAt (s : Run) (k : ℕ) : Option CallRecord := (s.calls[k]?).map Call.record

/-- `call_finished` with the record as it stands. -/
def reportCall (me : Thread) (k : ℕ) : Prog Unit := do
  let s ← Coro.read
  match s.recordAt k with
  | some record => event x me (.callFinished record)
  | none => pure ()

/-- The error of a reply that is not one. -/
def invalidReply (k : ℕ) : Exc :=
  { relayError "Invalid provider response envelope".toList with call := some k }

/-- The reply to call `k`, checked and recorded. -/
def takeReply (k : ℕ) (op : Operation) : Option Reply → Prog Json
  | some r =>
      if r.model.isEmpty then .raise (invalidReply k)
      else do
        Coro.update (Run.endCall k (.ok (openReply op r).1) (CallRecord.complete x.lib op r))
        pure (openReply op r).1
  | none => .raise (invalidReply k)

/-- The provider's part of call `k`. -/
def complete (k : ℕ) (op : Operation) : Prog Json := do
  watch x k
  let reply ← ask (.complete k)
  takeReply x k op reply

/-- What happens to call `k` when it raises. -/
def callFailed (me : Thread) (k : ℕ) (e : Exc) : Prog Json := do
  let s ← Coro.read
  if e.isException then do
    Coro.update (Run.endCall k (.error e) fun c =>
      { c with
        outcome := .failed
        elapsedMs := s.elapsed k
        output := some ([], ((s.live k).text).take liveLimit) })
    reportCall x me k
    .raise e
  else do
    Coro.update (Run.endCall k (.error e) fun c =>
      { c with outcome := .cancelled, elapsedMs := s.elapsed k })
    .raise e

/-- One model call: the value, and the call's record. -/
def callWithRecord (me : Thread) (tier : Tier) (p : Payload) : Prog (Json × CallRecord) := do
  spend x tier p.operation
  let s ← Coro.read
  let k := s.calls.length
  Coro.update (Run.addCall me tier p)
  let value ← ((complete x k p.operation).tryExcept (callFailed x me k)).tryFinally (unwatch k)
  Coro.update fun s => s.setCall k fun c =>
    { c with record := { c.record with elapsedMs := s.elapsed k } }
  reportCall x me k
  let s ← Coro.read
  pure (value, (s.recordAt k).getD (.start tier p 0))

/-- One model call, for its value. -/
def call (me : Thread) (tier : Tier) (p : Payload) : Prog Json := do
  let r ← callWithRecord x me tier p
  pure r.1

/-- `call_output` with the end of what call `k` has written. -/
def reportOutput (k : ℕ) (text : Str) : Prog Unit := do
  let s ← Coro.read
  match s.recordAt k with
  | some record =>
      event x (.follower k)
        (.callOutput record (text.drop (text.length - liveLimit)) text.length)
  | none => pure ()

/-- One turn of a follower: publish what call `k` has written since the last turn. Returns
whether there is a next turn. -/
def follow (k : ℕ) : Prog Bool :=
  (do
    ask (.sleep k)
    let s ← Coro.read
    let live := s.live k
    if live.text.length = live.shown then pure true
    else do
      Coro.update (Run.setLive k fun l => { l with shown := live.text.length })
      reportOutput x k live.text
      pure true).tryExcept fun e => if e.isException then .raise e else pure false

/-! ## The local models -/

/-- An opted-in exact copy of one source, accepted only when it checks out. -/
def tryExtract : Prog (Option Str) := do
  event x .main (.localAttempt .small (x.model? .small))
  let candidate ← call x .main .small (.attempt x.goal x.sources)
  match answerExactExtraction x.sources candidate with
  | none => do
      event x .main (.extractFailed .small)
      pure none
  | some answer => do
      Coro.update (Run.setResult "local_answer".toList candidate)
      event x .main (.localAccepted .small none)
      pure (some answer)

/-- What stands for the answer of a local model whose call failed. -/
def failedAnswer (e : Exc) : Json :=
  .obj [("answer".toList, .str []), ("confidence".toList, .float (.fin 0)),
    ("task_type".toList, .str "failed".toList), ("difficulty".toList, .str "high".toList),
    ("needs_escalation".toList, .bool true),
    ("reason".toList, .str ("The call failed: ".toList ++ e.msg))]

/-- `except RelayError`. -/
def exceptRelay {α : Type} (c : Prog α) (h : Exc → Prog α) : Prog α :=
  c.tryExcept fun e => if e.isRelayError then h e else .raise e

/-- The `i`th answer of a local model. A model that cannot answer is not trusted. -/
def sample (tier : Tier) (i : ℕ) : Prog Assessment := do
  let (value, stats) ← exceptRelay
    (do
      let (value, record) ← callWithRecord x .main tier
        (.solve x.text ((25 + 15 * i) / 100) (i + 1) tier)
      pure (value, record.tokenStats))
    fun e => pure (failedAnswer e, none)
  let a ← Coro.ofExcept (readAssessment x.lib value stats)
  event x .main (.localSample tier (i + 1) a)
  pure a

/-- The answers from the `i`th on, `n` at most: a model that asks for help is not asked
again. -/
def samplesFrom (tier : Tier) : ℕ → ℕ → Prog (List Assessment)
  | 0, _ => pure []
  | n + 1, i => do
      let a ← sample x tier i
      if a.needsEscalation then pure [a]
      else do
        let rest ← samplesFrom tier n (i + 1)
        pure (a :: rest)

/-- The check of a local model's answers. -/
def critiqueOf (tier : Tier) (samples : List Assessment) : Prog Critique :=
  let critic := x.policy.criticTier tier x.tiers
  if !x.policy.useCritic then
    pure { passed := true, severity := 0, critique := "Critic disabled by policy.".toList,
           skipped := true }
  else if samples.any Assessment.needsEscalation then
    pure { passed := false, severity := 1
           critique := "Critic skipped: the model already asked for a larger model.".toList
           skipped := true }
  else do
    event x .main (.localCritique tier critic (x.modelOf critic))
    exceptRelay
      (do
        let raw ← call x .main critic (.critique x.text
          ((samples.head?.map Assessment.answer).getD []) (samples.length + 1) tier)
        let c ← Coro.ofExcept (readCritique x.lib raw)
        pure { c with tier := some critic })
      fun e => pure { passed := false, severity := 1
                      critique := "The critic call failed: ".toList ++ e.msg
                      tier := some critic }

/-- One local model answers and a critic checks it; the policy decides. -/
def judgeLocally (tier : Tier) : Prog Verdict := do
  event x .main (.localSolve tier (x.modelOf tier))
  let samples ← samplesFrom x tier x.policy.localSamples 0
  let critique ← critiqueOf x tier samples
  let verdict ← Coro.ofExcept (x.policy.decide x.lib tier x.text samples critique)
  event x .main (.localVerdict tier verdict x.policy.weights)
  pure verdict

/-- The local models of a list, in order, until one is trusted. -/
def cascade : List Tier → Prog (Option Str)
  | [] => pure none
  | tier :: tiers =>
      let complexity := taskComplexity x.lib x.text
      if x.policy.skips tier x.tiers complexity then do
        Coro.update fun s => { s with skipped := s.skipped ++ [tier] }
        event x .main (.localSkipped tier (roundTo 4 complexity) x.policy.skipSmallAbove)
        cascade tiers
      else do
        let verdict ← judgeLocally x tier
        Coro.update fun s => { s with verdicts := s.verdicts ++ [verdict] }
        if verdict.escalate then cascade tiers
        else do
          Coro.update fun s => { s with route := some tier }
          event x .main (.localAccepted tier (some verdict.reason))
          pure (some (x.label verdict.answer))

/-! ## Plan mode -/

/-- Read the planner's reply; a plan that wastes the local models is refused like an
invalid one. -/
def checkedPlan (raw : Json) : Except Exc Plan := do
  let plan ← Plan.parse raw x.sources.keys x.limits.maxTasks x.tiers
  match x.policy.checkPlan x.lib plan x.text with
  | some wasteful => .error (validationError wasteful)
  | none => .ok plan

/-- The planner's attempts from the `i`th on, `n` at most; each is told what was wrong with
the last one. -/
def planFrom (context : List LocalAttempt) : ℕ → ℕ → Option Str → Prog Plan
  | 0, _, _ => .raise (validationError ("Planner returned an invalid graph ".toList ++
      Str.ofNat x.policy.planAttempts ++ " times".toList))
  | n + 1, i, error => do
      let raw ← call x .main .cloud (.plan x.goal x.sources error x.tiers context i)
      match checkedPlan x raw with
      | .ok plan => do
          Coro.update fun s => { s with plan := some plan }
          event x .main (.planCreated plan.tasks plan.finalInstruction)
          pure plan
      | .error e =>
          if e.cls = .validation then do
            event x .main (.planInvalid i e.msg)
            planFrom context n (i + 1) (some e.msg)
          else .raise e

/-- The plan of a request. -/
def makePlan (context : List LocalAttempt) : Prog Plan :=
  planFrom x context x.policy.planAttempts 1 none

/-- The input a reference names. -/
def resolveRef (sources : Dict Str Str) (results : Dict Str Json) (ref : Str) :
    Except Exc Json :=
  match ref.split1 '.' with
  | [kind, key] =>
      let found := if kind = "sources".toList then (sources.get? key).map Json.str
        else results.get? key
      match found with
      | some v => .ok v
      | none => .error (pyError "KeyError".toList)
  | _ => .error (pyError "ValueError".toList)

/-- The inputs of a task, by reference. -/
def resolveInputs (sources : Dict Str Str) (results : Dict Str Json) :
    List Str → Inputs → Except Exc Inputs
  | [], inputs => .ok inputs
  | ref :: refs, inputs => do
      let v ← resolveRef sources results ref
      resolveInputs sources results refs (inputs.set ref v)

/-- Local work waits for a free slot. -/
def withSlot {α : Type} (c : Prog α) : Prog α := do
  ask .slot
  c.tryFinally (Coro.update fun s => { s with slots := s.slots - 1 })

/-- One attempt at a task on a tier. -/
def perform (n : ℕ) (task : Task) (inputs : Inputs) (tier : Tier) (attempt : ℕ)
    (errors : List Str) : Prog (Json × CallRecord) :=
  let body : Prog (Json × CallRecord) := do
    event x (.job n) (.taskStarted task.id tier attempt (x.model? tier))
    callWithRecord x (.job n) tier (.work task inputs x.goal attempt errors)
  if tier = .cloud then body else withSlot body

/-- Report that a task moves to another tier. -/
def reportEscalation (n : ℕ) (task : Task) (tier previous : Tier) (attempt : ℕ)
    (errors : List Str) : Prog Unit :=
  if tier ≠ previous then
    event x (.job n) (.taskEscalated task.id tier previous attempt errors.getLast?)
  else pure ()

/-- The attempts at a task on the tiers that are left. -/
def ladder (n : ℕ) (task : Task) (inputs : Inputs) :
    List Tier → ℕ → Tier → List Str → Prog Json
  | [], _, _, _ => .raise (validationError ("Subtask ".toList ++ task.id ++
      " failed validation; dependent tasks were not run".toList))
  | tier :: tiers, attempt, previous, errors => do
      reportEscalation x n task tier previous attempt errors
      match ← (perform x n task inputs tier attempt errors).attempt with
      | .error e =>
          if e.cls = .budget then .raise e
          else if e.isRelayError then do
            -- A call that fails counts as a failed attempt.
            event x (.job n) (.taskInvalid task.id tier attempt e.msg none)
            ladder n task inputs tiers (attempt + 1) tier (errors ++ [e.msg])
          else .raise e
      | .ok (value, record) =>
          match validateResult task.resultType value inputs with
          | .error e =>
              if e.cls = .validation then do
                event x (.job n) (.taskInvalid task.id tier attempt e.msg record.judgment)
                ladder n task inputs tiers (attempt + 1) tier (errors ++ [e.msg])
              else .raise e
          | .ok () => do
              -- Accepted work is retained even if a sibling fails later.
              Coro.update (Run.setResult task.id value)
              event x (.job n) (.taskCompleted task.id tier attempt record.judgment value)
              pure value

/-- The worker of job `n`. -/
def worker (n : ℕ) : Prog Json := do
  let task ← ask (.start n)
  let s ← Coro.read
  let inputs ← Coro.ofExcept (resolveInputs x.sources s.results task.inputRefs .empty)
  ladder x n task inputs (x.policy.workerTiers task x.tiers) 1 task.preferredTier []

/-- `asyncio.gather(*jobs)`. -/
def gather (js : List ℕ) : Prog (List Json) := do
  Coro.update fun s => { s with gathering := some js, gatherCancelled := false }
  ask (.gather js)

/-- `asyncio.gather(*jobs, return_exceptions=True)`. -/
def join (js : List ℕ) : Prog Unit := do
  Coro.update fun s => { s with gathering := some js, gatherCancelled := false }
  ask (.join js)

/-- Set the results of tasks. -/
def Run.setResults (entries : List (Task × Json)) (s : Run) : Run :=
  entries.foldl (fun s e => s.setResult e.1.id e.2) s

/-- One batch: a job for each ready task, all of them ended when it returns or raises. -/
def batch (ready : List Task) : Prog Unit := do
  let s ← Coro.read
  let js := List.range' s.jobs.length ready.length
  Coro.update (Run.addJobs ready)
  (do
    let values ← gather js
    Coro.update (Run.setResults (ready.zip values))).tryFinally
   (do
    Coro.update (Run.cancelJobs js)
    join js)

/-- The tasks whose dependencies are done. -/
def readyTasks (pending : List Task) (results : Dict Str Json) : List Task :=
  pending.filter fun t => t.dependsOn.all results.keys.contains

/-- A batch takes at least one task away. -/
theorem length_pending_lt {pending : List Task} {results : Dict Str Json}
    (h : readyTasks pending results ≠ []) :
    (pending.filter fun t => !(readyTasks pending results).contains t).length <
      pending.length := by
  obtain ⟨t, ht⟩ := List.exists_mem_of_ne_nil _ h
  exact List.length_filter_lt_length_iff_exists.mpr
    ⟨t, (List.mem_filter.mp ht).1, by simpa using ht⟩

/-- `while pending`: run the pending tasks batch by batch, in at most as many turns as there
are tasks. -/
def runBatches : (turns : ℕ) → (pending : List Task) → pending.length ≤ turns → Prog Unit
  | _, [], _ => pure ()
  | 0, _ :: _, h => absurd h (Nat.not_succ_le_zero _)
  | turns + 1, t₀ :: rest, h => do
      let s ← Coro.read
      if hready : readyTasks (t₀ :: rest) s.results = [] then
        .raise (validationError "No executable task remains".toList)
      else do
        batch (readyTasks (t₀ :: rest) s.results)
        runBatches turns
          ((t₀ :: rest).filter fun t => !(readyTasks (t₀ :: rest) s.results).contains t)
          (Nat.le_of_lt_succ ((length_pending_lt hready).trans_le h))

/-- Run every task of a plan. -/
def runTasks (plan : Plan) : Prog Unit := runBatches plan.tasks.length plan.tasks le_rfl

/-! ## One request -/

/-- The local answers, as the cloud is told of them. -/
def localAttempts (verdicts : List Verdict) : List LocalAttempt :=
  verdicts.map fun v =>
    { tier := v.tier
      model := x.modelOf v.tier
      answer := v.answer.take 4000
      reason := v.reason ++ ". Critic: ".toList ++ v.critique.critique }

/-- The cloud's answer, which must be a text that is not blank. -/
def finalAnswer (v : Json) (refusal : String) : Prog Str :=
  match v.str? with
  | some answer =>
      if answer.strip.isEmpty then .raise (validationError refusal.toList)
      else pure (x.label answer)
  | none => .raise (validationError refusal.toList)

/-- The cloud answers by itself. -/
def answerDirectly (context : List LocalAttempt) : Prog Str := do
  event x .main (.answering .cloud)
  let v ← call x .main .cloud (.answer x.text context)
  finalAnswer x v "Cloud answer was empty"

/-- The cloud plans, the workers work, the cloud assembles the results. -/
def answerByPlan (context : List LocalAttempt) : Prog Str := do
  let plan ← makePlan x context
  runTasks plan
  event x .main (.synthesizing .cloud)
  let s ← Coro.read
  let v ← call x .main .cloud (.synthesize x.goal x.sources plan.finalInstruction s.results)
  finalAnswer x v "Synthesis returned no answer"

/-- The cloud takes over. -/
def escalate : Prog Str := do
  Coro.update fun s => { s with route := some .cloud }
  let s ← Coro.read
  let plans := x.policy.plans x.lib x.text
  event x .main (.escalated .cloud (if plans then .plan else .direct)
    (requestParts x.lib x.text) x.text.length (s.verdicts.getLast?.map Verdict.reason))
  if plans then answerByPlan x (localAttempts x s.verdicts)
  else answerDirectly x (localAttempts x s.verdicts)

/-- The local models, smallest first, then the cloud. -/
def route : Prog Str := do
  match ← cascade x (localTiers x.tiers) with
  | some content => pure content
  | none => escalate x

/-- The answer to a request. -/
def execute : Prog Str := do
  if x.localExtract then do
    match ← tryExtract x with
    | some answer => do
        Coro.update fun s => { s with route := some .small }
        pure (x.label answer)
    | none => route x
  else route x

/-- The provider's description of where its models run; failures are ignored. -/
def locations : Prog (Dict Str Json) :=
  if x.provider.describes then
    Coro.tryExcept (ask .locations) fun e =>
      if e.isException then pure Dict.empty else .raise e
  else pure .empty

/-- Report what the provider has to say about itself. -/
def reportNotice : Prog Unit :=
  if x.provider.notice.isSome then event x .main .providerNotice else pure ()

/-- The body of a run, inside its deadline. -/
def answerRequest : Prog RunResult := do
  let found ← locations x
  event x .main (.runStarted (x.goal.take 2000) (x.tiers.map fun t =>
    (t, x.modelOf t, (found.get? t.name).getD (.str []))))
  reportNotice x
  let content ← execute x
  let s ← Coro.read
  event x .main (.runCompleted (s.metrics x)) true
  let s ← Coro.read
  pure { content, results := s.results, metrics := s.metrics x }

/-- `async with asyncio.timeout(run_timeout)`: the cancellation its timer sent becomes a
`TimeoutError`, unless the task was cancelled from outside too. -/
def deadline {α : Type} (c : Prog α) : Prog α := do
  Coro.update fun s => { s with timer := .armed }
  let r ← c.attempt
  let s ← Coro.read
  Coro.update fun s => { s with timer := .off }
  match r with
  | .ok a => pure a
  | .error e =>
      if e.cls = .cancelled ∧ s.timer = .expired ∧ s.outside = false then .raise timeoutError
      else .raise e

/-- What a run that took too long raises. -/
def Exc.deadlineExceeded (e : Exc) : Exc :=
  { relayError "Relay deadline exceeded; no complete answer was produced".toList with
    call := e.call }

/-- What a run raises for an exception that is none of the relay's. -/
def Exc.providerFailed (e : Exc) : Exc :=
  { relayError "Relay provider failed; no complete answer was produced".toList with
    call := e.call }

/-- The handlers of a run. The report of a cancelled run is shielded: no further cancellation
reaches it. -/
def runFailed (e : Exc) : Prog RunResult := do
  let s ← Coro.read
  if e.cls = .cancelled then do
    Coro.update fun s => { s with shielded := true }
    event x .main (.runCancelled (s.metrics x)) true
    .raise e
  else if e.cls = .timeout then do
    event x .main (.runFailed (s.metrics x)) true
    .raise e.deadlineExceeded
  else do
    event x .main (.runFailed (s.metrics x)) true
    if e.isRelayError then .raise e else .raise e.providerFailed

/-- What a request must be to be served. -/
def Setup.requestOk : Bool :=
  1 ≤ x.goal.length && x.goal.length ≤ 8000 &&
    !x.sources.entries.isEmpty && x.sources.entries.length ≤ x.limits.maxTasks &&
    x.sources.values.all (fun v => !v.isEmpty) &&
    (x.sources.values.map List.length).sum ≤ 32000

/-- `RelayEngine.run`. -/
def run : Prog RunResult := do
  ask .begin
  if x.goal.length < 1 ∨ 8000 < x.goal.length then
    .raise (relayError "Goal must be text of at most 8000 characters".toList)
  else if !x.requestOk then
    .raise (relayError
      "Sources must be nonempty text within the prototype's 32000-character limit".toList)
  else (deadline (answerRequest x)).tryExcept (runFailed x)

end HorizonRelay
