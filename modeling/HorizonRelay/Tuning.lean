import HorizonRelay.Conversation
import HorizonRelay.Events
import Mathlib.Data.List.Sort

/-!
# Tuning the routing policy

The tuner asks every local model once, records what the policy sees of the answers, and replays
these profiles under other settings without asking again.

## Main definitions

* `TestCase` — a labeled request.
* `Relay.probe`, `profileCase` — the run that asks all local models, and what is kept of it.
* `Tuning.Params`, `Tuning.current` — routing settings as the tuner has them.
* `Tuning.simulate`, `Tuning.evaluate`, `Tuning.search` — the replay, its score, and the ranking
  of candidates.
-/

namespace HorizonRelay

open Py

/-! ## Profiles -/

/-- A labeled request. -/
structure TestCase : Type where
  name : Str
  /-- The tiers that may answer it. -/
  expectedRoute : List Tier
  prompt : Str
  /-- A regular expression the answer must match. -/
  answerPattern : Option Str := none
  /-- The overrides of the policy, if there are any. -/
  policy : Option (RoutingPolicy → RoutingPolicy) := none

/-- The same models with escalation forced and the cloud disabled. -/
def Relay.probe (relay : Relay) : Relay :=
  { relay with
    limits := { relay.limits with cloudEnabled := false }
    policy :=
      { relay.policy with
        rules := []
        escalationThreshold := 0
        tierThresholds := []
        skipSmallAbove := none
        thresholds_mem := by norm_num } }

/-- What is kept of the tokens of an answer; absent where there were no log-probabilities. -/
structure TokenProfile : Type where
  prob : Option ℚ
  hesitation : Option ℚ
  count : Option ℕ
  deriving DecidableEq

/-- What is kept of a critique. -/
structure CriticProfile : Type where
  passed : Bool
  severity : ℚ
  skipped : Bool
  deriving DecidableEq

/-- What the policy saw of one local model. -/
structure TierProfile : Type where
  signals : SignalValues
  /-- Of the first answer. -/
  tokenStats : TokenProfile
  /-- The tokens of the longest answer. -/
  answerTokens : ℕ
  requested : Bool
  empty : Bool
  critic : CriticProfile
  answer : Str
  correct : Option Bool
  deriving DecidableEq

/-- What the local models answered to a case. -/
structure Profile : Type where
  name : Str
  expected : List Tier
  complexity : ℚ
  parts : ℕ
  tiers : Dict Tier TierProfile

/-- What is kept of a verdict. `hit pattern text` is `re.search(pattern, text, re.I)`. -/
def profileTier (hit : Str → Str → Bool) (case : TestCase) (v : Verdict) : TierProfile :=
  let stats := v.samples.head?.bind Assessment.tokenStats
  { signals := v.signals.toSignalValues
    tokenStats :=
      { prob := stats.map TokenStats.prob
        hesitation := stats.map TokenStats.hesitation
        count := stats.map TokenStats.count }
    answerTokens := (v.samples.map fun s => (s.tokenStats.map TokenStats.count).getD 0).foldl max 0
    requested := v.samples.any Assessment.needsEscalation
    empty := v.answer.strip.isEmpty
    critic := { passed := v.critique.passed, severity := v.critique.severity,
                skipped := v.critique.skipped }
    answer := v.answer.take 500
    correct := case.answerPattern.map fun pattern => hit pattern v.answer }

/-- The verdict an event tells, by its tier. -/
def EventData.verdict? : EventData → Option (Tier × Verdict)
  | .localVerdict tier v _ => some (tier, v)
  | _ => none

/-- What each local model answered, from the events of a probe. -/
def profileCase (lib : StdLib) (hit : Str → Str → Bool) (case : TestCase)
    (events : List EventData) : Profile :=
  let verdicts := Dict.ofList (events.filterMap EventData.verdict?)
  { name := case.name
    expected := case.expectedRoute
    complexity := taskComplexity lib case.prompt
    parts := requestParts lib case.prompt
    tiers := Dict.ofList (verdicts.entries.map fun e => (e.1, profileTier hit case e.2)) }

/-- The cases that are profiled. -/
def profiled (cases : List TestCase) : List TestCase := cases.filter fun c => c.policy.isNone

namespace Tuning

/-! ## Replaying -/

/-- The thresholds of the two local tiers. -/
structure Thresholds : Type where
  small : ℚ
  mid : ℚ
  deriving DecidableEq

/-- `thresholds[tier]`, of a local tier. -/
def Thresholds.of (t : Thresholds) : Tier → ℚ
  | .small => t.small
  | _ => t.mid

/-- Routing settings as the tuner has them. -/
structure Params : Type where
  weights : Weights
  thresholds : Thresholds
  criticMin : Option ℚ
  skipSmallAbove : Option ℚ
  tokenMax : Option ℚ
  tokenMinLength : ℕ := 1
  tokenSignal : Option TokenSignal := none
  bigGoalParts : Option ℕ := none
  deriving DecidableEq

/-- The weighted mean of the signals there are. -/
def combiner (w : Weights) (v : SignalValues) : ℚ :=
  let there := [(w.selfUncertainty, some v.selfUncertainty),
    (w.tokenUncertainty, v.tokenUncertainty), (w.inconsistency, some v.inconsistency),
    (w.criticRisk, some v.criticRisk), (w.taskComplexity, some v.taskComplexity),
    (w.explicitEscalation, some v.explicitEscalation)].filterMap fun e => e.2.map fun q => (e.1, q)
  let total := (there.map Prod.fst).sum
  let score := (there.map fun e => e.1 * e.2).sum
  if total ≠ 0 then min 1 (score / total) else 0

/-- The signals of a tier under the token statistic of the settings. -/
def signalsOf (q : Params) (t : TierProfile) : SignalValues :=
  if q.tokenSignal = some .mean then
    { t.signals with tokenUncertainty := t.tokenStats.prob.map fun p => 1 - p }
  else t.signals

/-- Whether the critic rejects a profiled answer severely enough. -/
def rejects (q : Params) (t : TierProfile) : Bool :=
  q.criticMin.any fun least =>
    !t.critic.skipped && !t.critic.passed && t.critic.severity ≥ least

/-- Whether the smallest model hesitated too much over a long enough answer. -/
def hesitates (q : Params) (tier : Tier) (t : TierProfile) : Bool :=
  tier = .small && q.tokenMax.any fun most =>
    ((signalsOf q t).tokenUncertainty.any fun u => u ≥ most) && t.answerTokens ≥ q.tokenMinLength

/-- Whether the settings trust a profiled answer. -/
def trusts (q : Params) (tier : Tier) (t : TierProfile) : Bool :=
  !(t.requested || t.empty) && !rejects q t && !hesitates q tier t &&
    combiner q.weights (signalsOf q t) < q.thresholds.of tier

/-- The tier the settings route a profiled case to. -/
def simulate (q : Params) (prof : Profile) : Tier :=
  if q.bigGoalParts.any fun most => most ≠ 0 && prof.parts ≥ most then .cloud
  else
    let locals := [Tier.small, .mid].filter (· ∈ prof.tiers.keys)
    let passedOver (i : ℕ) : Bool := i = 0 && locals.length > 1 &&
      q.skipSmallAbove.any fun limit => prof.complexity ≥ limit
    ((locals.zipIdx.find? fun e =>
      !passedOver e.2 && (prof.tiers.get? e.1).any (trusts q e.1)).map Prod.fst).getD .cloud

/-- What settings come to over the profiles. -/
structure Evaluation : Type where
  objective : ℚ
  matched : ℕ
  wrongLocal : ℕ
  passedOverCorrect : ℕ
  wastedCloud : ℕ
  cloud : ℕ
  cases : ℕ
  routes : List Tier
  deriving DecidableEq

/-- Whether a profiled answer is known to be right, or wrong. -/
def answered (prof : Profile) (tier : Tier) (right : Bool) : Bool :=
  (prof.tiers.get? tier).any fun t => t.correct = some right

/-- Score settings: a route as labeled counts one, a wrong local answer takes two, paying the
cloud for what a local model had right takes one. -/
def evaluate (q : Params) (profiles : List Profile) : Evaluation :=
  let routes := profiles.map fun prof => (simulate q prof, prof)
  let matched := routes.countP fun e => e.1 ∈ e.2.expected
  let cloud := routes.countP fun e => e.1 = .cloud
  let wrong := routes.countP fun e => e.1 ≠ .cloud && answered e.2 e.1 false
  let passedOver := (routes.map fun e =>
    (tierOrder.take (tierOrder.idxOf e.1)).countP fun tier => answered e.2 tier true).sum
  let wasted := routes.countP fun e => e.1 = .cloud &&
    [Tier.small, .mid].any fun tier => answered e.2 tier true
  { objective := roundTo 3 (matched - 2 * wrong - wasted - 1 / 10 * (passedOver + cloud))
    matched
    wrongLocal := wrong
    passedOverCorrect := passedOver
    wastedCloud := wasted
    cloud
    cases := profiles.length
    routes := routes.map Prod.fst }

/-! ## Candidates -/

/-- The weights that are tried. -/
def weightGrid : List Weights := do
  let selfUncertainty ← [10 / 100, 25 / 100, 40 / 100]
  let tokenUncertainty ← [0, 15 / 100, 30 / 100]
  let inconsistency ← [5 / 100, 15 / 100, 25 / 100]
  let criticRisk ← [15 / 100, 25 / 100, 40 / 100]
  let taskComplexity ← [10 / 100, 25 / 100]
  pure { selfUncertainty, tokenUncertainty, inconsistency, criticRisk, taskComplexity,
         explicitEscalation := 10 / 100 }

/-- The thresholds that are tried for each tier. -/
def thresholdGrid : List ℚ := [20 / 100, 25 / 100, 30 / 100, 40 / 100, 50 / 100, 55 / 100]

/-- The settings that are tried with some weights: the smallest model is not trusted much more
easily than the larger one. -/
def candidatesOf (weights : Weights) : List Params := do
  let small ← thresholdGrid
  let mid ← thresholdGrid
  let criticMin ← [none, some (1 / 2)]
  let tokenMax ← [none, some (10 / 100), some (12 / 100), some (15 / 100), some (20 / 100)]
  let tokenMinLength ← [1, 3]
  let tokenSignal ← [TokenSignal.hesitation, .mean]
  if small ≤ mid + 1 / 10 then
    pure { weights, thresholds := { small, mid }, criticMin, skipSmallAbove := none, tokenMax
           tokenMinLength, tokenSignal := some tokenSignal }
  else []

/-- All settings that are tried. -/
def candidates : List Params := weightGrid.flatMap candidatesOf

/-- How far settings are from the defaults. -/
def Params.distance (q : Params) : ℚ :=
  let w : Weights := {}
  |q.weights.selfUncertainty - w.selfUncertainty| +
    |q.weights.tokenUncertainty - w.tokenUncertainty| +
    |q.weights.inconsistency - w.inconsistency| + |q.weights.criticRisk - w.criticRisk| +
    |q.weights.taskComplexity - w.taskComplexity| +
    |q.weights.explicitEscalation - w.explicitEscalation| +
    |q.thresholds.small - 1 / 2| + |q.thresholds.mid - 1 / 2|

/-- The order of Python's triples. -/
def KeyLe (a b : ℚ × ℤ × ℚ) : Prop :=
  a.1 < b.1 ∨ a.1 = b.1 ∧ (a.2.1 < b.2.1 ∨ a.2.1 = b.2.1 ∧ a.2.2 ≤ b.2.2)

instance (a b : ℚ × ℤ × ℚ) : Decidable (KeyLe a b) := inferInstanceAs (Decidable (_ ∨ _))

/-- What candidates are ranked by: the objective, then fewer cloud routes, then closeness to
the defaults. -/
def rankKey (e : Params × Evaluation) : ℚ × ℤ × ℚ :=
  (e.2.objective, -(e.2.cloud : ℤ), -e.1.distance)

/-- The candidates, best first. -/
def search (profiles : List Profile) : List (Params × Evaluation) :=
  ((candidates.map fun q => (q, evaluate q profiles)).insertionSort
    fun a b => KeyLe (rankKey b) (rankKey a)).take 50

/-! ## The settings of a policy -/

/-- `next((getattr(r, attr) for r in policy.rules if r.__name__ == name), None)`. -/
def ruleLimit {α : Type} (p : RoutingPolicy) (name : Str) (attr : Rule → Option α) :
    Except Exc (Option α) :=
  match p.rules.find? fun r => r.name = name with
  | some rule =>
      match attr rule with
      | some limit => .ok (some limit)
      | none => .error (pyError "AttributeError".toList)
  | none => .ok none

/-- The settings the tuner reads off a policy. -/
def current (p : RoutingPolicy) : Except Exc Params := do
  let criticMin ← ruleLimit p "escalate_when_critic_rejects".toList Rule.minSeverity
  let tokenMax ← ruleLimit p "escalate_when_tokens_are_uncertain".toList Rule.limit
  let minTokens ← ruleLimit p "escalate_when_tokens_are_uncertain".toList Rule.minTokens
  pure { weights := p.weights
         thresholds := { small := p.threshold .small, mid := p.threshold .mid }
         criticMin
         skipSmallAbove := p.skipSmallAbove
         tokenMax
         tokenMinLength := if minTokens.getD 0 = 0 then 1 else minTokens.getD 0 }

end Tuning

end HorizonRelay
