import HorizonRelay.Policy
import HorizonRelay.Budget

/-!
# Providers

What the engine hands a model and what it gets back.

## Main definitions

* `Payload` — the payload of each kind of call.
* `Reply`, `Provider` — a reply, and what a provider says about itself.
-/

namespace HorizonRelay

open Py

/-- A local answer that was not trusted, as the cloud is told of it. -/
structure LocalAttempt : Type where
  tier : Tier
  model : Str
  answer : Str
  reason : Str
  deriving DecidableEq

/-- The payload of a model call, by what the call is for. -/
inductive Payload : Type
  | attempt (goal : Str) (sources : Dict Str Str)
  | solve (task : Str) (temperature : ℚ) (attempt : ℕ) (forTier : Tier)
  | critique (task answer : Str) (attempt : ℕ) (forTier : Tier)
  | answer (task : Str) (localAttempts : List LocalAttempt)
  | plan (goal : Str) (sources : Dict Str Str) (validationError : Option Str)
      (tiers : List Tier) (localAttempts : List LocalAttempt) (attempt : ℕ)
  | work (task : Task) (inputs : Inputs) (goal : Str) (attempt : ℕ) (errors : List Str)
  | synthesize (goal : Str) (sources : Dict Str Str) (instruction : Str)
      (results : Dict Str Json)

namespace Payload

def operation : Payload → Operation
  | attempt .. => .attempt
  | solve .. => .solve
  | critique .. => .critique
  | answer .. => .answer
  | plan .. => .plan
  | work .. => .work
  | synthesize .. => .synthesize

/-- The id under `task`, when that is a subtask and not a text. -/
def taskId : Payload → Option Str
  | work task .. => some task.id
  | _ => none

/-- `payload.get("attempt")`. -/
def attempt? : Payload → Option ℕ
  | solve _ _ n _ | critique _ _ n _ | plan _ _ _ _ _ n | work _ _ _ n _ => some n
  | _ => none

/-- `payload.get("for_tier")`. -/
def forTier : Payload → Option Tier
  | solve _ _ _ t | critique _ _ _ t => some t
  | _ => none

end Payload

/-- What a model call returns. -/
structure Reply : Type where
  /-- Parsed JSON when possible, otherwise text. -/
  value : Json
  model : Str
  promptTokens : Option ℕ := none
  completionTokens : Option ℕ := none
  /-- No tokens when the provider has no log-probabilities. -/
  tokens : List Token := []
  thinking : Str := []
  text : Str := []

/-- What a provider says about itself. -/
structure Provider : Type where
  simulated : Bool := false
  /-- The model of each tier it serves. -/
  models : List (Str × Str) := []
  streams : Bool := false
  notice : Option Str := none
  /-- Whether it can describe where its models run. -/
  describes : Bool := false

namespace Provider

/-- The tiers it serves, smallest first. -/
def tiers (p : Provider) : List Tier := availableTiers p.models

/-- `models.get(tier, tier)`. -/
def modelOf (p : Provider) (tier : Tier) : Str := (p.models.lookup tier.name).getD tier.name

end Provider

end HorizonRelay
