import HorizonRelay.Providers

/-!
# Progress events

The record a run keeps of each model call, its metrics, and the events it reports.

## Main definitions

* `CallRecord`, `Metrics` — what a run reports about its calls.
* `EventData`, `RelayEvent` — the events and what each carries.
-/

namespace HorizonRelay

open Py

/-- How a call stands. -/
inductive Outcome : Type
  | started
  | completed
  | cancelled
  | failed
  deriving DecidableEq

/-- The record of one model call. -/
structure CallRecord : Type where
  tier : Tier
  operation : Operation
  taskId : Option Str
  attempt : Option ℕ
  forTier : Option Tier
  model : Option Str := none
  promptTokens : Option ℕ := none
  completionTokens : Option ℕ := none
  outcome : Outcome := .started
  elapsedMs : ℤ := 0
  judgment : Option Judgment := none
  tokenStats : Option TokenStats := none
  /-- The model's thinking and answer, for display. -/
  output : Option (Str × Str) := none
  startedMs : ℤ

/-- The record of a call that begins. -/
def CallRecord.start (tier : Tier) (p : Payload) (startedMs : ℤ) : CallRecord where
  tier
  operation := p.operation
  taskId := p.taskId
  attempt := p.attempt?
  forTier := p.forTier
  startedMs

/-- What a run reports at its end. -/
structure Metrics : Type where
  simulated : Bool
  route : Option Tier
  verdicts : List Verdict
  skipped : List Tier
  elapsedMs : ℤ
  localCalls : ℕ
  cloudCalls : ℕ
  completedTasks : List Str
  calls : List CallRecord

/-- The machine-readable step of an event, with its details. -/
inductive EventData : Type
  | runStarted (goal : Str) (tiers : List (Tier × Str × Json))
  | providerNotice
  | localAttempt (tier : Tier) (model : Option Str)
  | extractFailed (tier : Tier)
  | localSkipped (tier : Tier) (complexity : ℚ) (threshold : Option ℚ)
  | localSolve (tier : Tier) (model : Str)
  | localSample (tier : Tier) (attempt : ℕ) (assessment : Assessment)
  | localCritique (tier criticTier : Tier) (model : Str)
  | localVerdict (tier : Tier) (verdict : Verdict) (weights : Weights)
  | localAccepted (tier : Tier) (reason : Option Str)
  | escalated (tier : Tier) (mode : CloudMode) (parts length : ℕ) (reason : Option Str)
  | answering (tier : Tier)
  | planInvalid (attempt : ℕ) (error : Str)
  | planCreated (tasks : List Task) (finalInstruction : Str)
  | taskEscalated (taskId : Str) (tier fromTier : Tier) (attempt : ℕ) (reason : Option Str)
  | taskStarted (taskId : Str) (tier : Tier) (attempt : ℕ) (model : Option Str)
  | taskInvalid (taskId : Str) (tier : Tier) (attempt : ℕ) (error : Str)
      (judgment : Option Judgment)
  | taskCompleted (taskId : Str) (tier : Tier) (attempt : ℕ) (judgment : Option Judgment)
      (result : Json)
  | synthesizing (tier : Tier)
  | callFinished (record : CallRecord)
  | callOutput (record : CallRecord) (output : Str) (written : ℕ)
  | runCompleted (metrics : Metrics)
  | runFailed (metrics : Metrics)
  | runCancelled (metrics : Metrics)

/-- A progress event. -/
structure RelayEvent : Type where
  /-- 1, 2, 3... within a run. -/
  seq : ℕ
  data : EventData
  /-- Set on the final event of a run. -/
  done : Bool
  simulated : Bool

end HorizonRelay
