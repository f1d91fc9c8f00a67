import HorizonRelay.Plan
import HorizonRelay.Tokens
import Mathlib.Algebra.Order.Field.Basic

/-!
# The routing policy

When a local answer can be trusted, and what happens when it cannot: the readers of the
models' judgments, the six signals and their weighted mean, the rules that run before the
score is compared, and the tiers a subtask is tried on.

## Main definitions

* `readAssessment`, `readCritique` — the readers of untrusted replies.
* `agreement`, `taskComplexity`, `requestParts` — the measures over texts.
* `RoutingPolicy` — the settings, valid by construction.
* `RoutingPolicy.signals`, `RoutingPolicy.decide` — the judgment of one local model.
* `RoutingPolicy.plans`, `RoutingPolicy.checkPlan`, `RoutingPolicy.workerTiers` — plan
  mode.
-/

namespace HorizonRelay

open Py

/-- One local answer and the model's own judgment of it. -/
structure Assessment : Type where
  answer : Str
  confidence : ℚ
  taskType : Str
  difficulty : Str
  needsEscalation : Bool
  reason : Str
  structured : Bool := true
  repaired : Bool := false
  tokenProb : Option ℚ := none
  tokenStats : Option TokenStats := none
  deriving DecidableEq

/-- What the critic found. -/
structure Critique : Type where
  passed : Bool
  severity : ℚ
  critique : Str
  skipped : Bool := false
  tier : Option Tier := none
  deriving DecidableEq

/-- The six signals; the token signal is absent when there are no log-probabilities. -/
structure SignalValues : Type where
  selfUncertainty : ℚ
  tokenUncertainty : Option ℚ
  inconsistency : ℚ
  criticRisk : ℚ
  taskComplexity : ℚ
  explicitEscalation : ℚ
  deriving DecidableEq

/-- The signals as recorded, with the combined score. -/
structure Signals : Type extends SignalValues where
  combinedScore : ℚ
  deriving DecidableEq

/-- Everything the policy saw for one local model, and what it decided. -/
structure Verdict : Type where
  tier : Tier
  samples : List Assessment
  critique : Critique
  signals : Signals
  threshold : ℚ
  escalate : Bool
  reason : Str
  deriving DecidableEq

/-- The answer of the first sample. -/
def Verdict.answer (v : Verdict) : Str := (v.samples.head?.map Assessment.answer).getD []

/-! ## Measures over texts -/

def hardMarkers : List Str :=
  ["prove".toList, "derive".toList, "counterexample".toList, "debug".toList,
    "race condition".toList, "algorithm".toList, "probability".toList, "bayes".toList,
    "causal".toList, "optimize".toList, "complexity".toList, "contradiction".toList,
    "multi-step".toList, "constraint".toList, "ambiguous".toList, "legal".toList,
    "medical".toList, "financial".toList]

def mediumMarkers : List Str :=
  ["compare".toList, "explain why".toList, "analyze".toList, "reason".toList,
    "tradeoff".toList, "plan".toList, "design".toList, "evaluate".toList, "infer".toList,
    "calculate".toList]

/-- Things a request can ask for. -/
def deliverables : List Str :=
  ["compare".toList, "list".toList, "summar".toList, "extract".toList, "suggest".toList,
    "recommend".toList, "identif".toList, "outline".toList, "draft".toList, "plan".toList,
    "write".toList, "propose".toList, "describe".toList, "explain".toList,
    "evaluate".toList, "analy".toList, "estimate".toList, "calculate".toList,
    "determine".toList, "derive".toList, "prove".toList, "design".toList, "classif".toList,
    "rewrite".toList, "translate".toList, "review".toList, "implement".toList,
    "build".toList, "create".toList, "generate".toList, "define".toList,
    "document".toList, "test ".toList]

def stopwords : List Str :=
  Str.words ("this that these those with from have been will would could should about into than " ++
    "then them they their there here which where when what does done doing because while also " ++
    "very such each other more most some only just like over under both same").toList

/-- `_clamp`: into `[0, 1]`. -/
def clamp (q : ℚ) : ℚ := max 0 (min 1 q)

theorem clamp_of_mem {q : ℚ} (h : 0 ≤ q ∧ q ≤ 1) : clamp q = q := by
  unfold clamp
  rw [min_eq_right h.2, max_eq_right h.1]

theorem clamp_of_one_le {q : ℚ} (h : 1 ≤ q) : clamp q = 1 := by
  unfold clamp
  rw [min_eq_left h, max_eq_right zero_le_one]

theorem clamp_of_nonpos {q : ℚ} (h : q ≤ 0) : clamp q = 0 := by
  unfold clamp
  rw [min_eq_right (h.trans zero_le_one), max_eq_left h]

/-- `_clamp` of a float: `min(1.0, nan)` is `1.0`. -/
def clampFloat : PyFloat → ℚ
  | .fin q => clamp q
  | .posInf | .nan => 1
  | .negInf => 0

section Measures
variable (lib : StdLib)

/-- A small deterministic measure of how hard a request looks. -/
def taskComplexity (text : Str) : ℚ :=
  let p := lib.lower text
  let has (m : Str) : Bool := p.contains m
  let flag (b : Bool) : ℚ := if b then 1 else 0
  let score := 5 / 100 + 7 / 100 * (mediumMarkers.countP has : ℚ) +
    12 / 100 * (hardMarkers.countP has : ℚ)
  clamp (score + 10 / 100 * flag (text.length > 500) + 10 / 100 * flag (text.length > 1200) +
    8 / 100 * flag (text.count ['?'] > 2))

/-- Roughly how many separable things the request asks for. -/
def requestParts (text : Str) : ℕ :=
  let lowered := lib.lower text
  max 1 (deliverables.countP (fun m => lowered.contains m) + (lowered.count ['?'] - 1))

/-- `re.findall(r"[a-z][a-z0-9_]{3,}", s)`. -/
def wordRuns : ℕ → Str → List Str
  | 0, _ => []
  | _, [] => []
  | n + 1, c :: rest =>
      let lowercase (d : Char) : Bool := 'a' ≤ d && d ≤ 'z'
      let run := rest.takeWhile fun d => lowercase d || ('0' ≤ d && d ≤ '9') || d = '_'
      if lowercase c ∧ 3 ≤ run.length then (c :: run) :: wordRuns n (rest.drop run.length)
      else wordRuns n rest

/-- The words that carry the answer's substance. -/
def contentWords (text : Str) : List Str :=
  ((wordRuns text.length.succ (lib.lower text)).filter fun w => !stopwords.contains w).dedup

/-- The digit groups that go on a number: `(?:[.,]\d+)*`. -/
def digitGroups : ℕ → Str → Str
  | 0, _ => []
  | _, [] => []
  | n + 1, c :: rest =>
      let digits := rest.takeWhile lib.isDecimal
      if (c = '.' ∨ c = ',') ∧ digits ≠ [] then
        c :: digits ++ digitGroups n (rest.drop digits.length)
      else []

/-- The number at the front of a text: `-?\d+(?:[.,]\d+)*`. -/
def numberAt (s : Str) : Option Str :=
  let (sign, rest) := match s with
    | '-' :: rest => (['-'], rest)
    | rest => ([], rest)
  let digits := rest.takeWhile lib.isDecimal
  if digits = [] then none
  else some (sign ++ digits ++ digitGroups lib rest.length (rest.drop digits.length))

/-- `re.findall` of the numbers of a text. -/
def numberRuns : ℕ → Str → List Str
  | 0, _ => []
  | _, [] => []
  | n + 1, c :: rest =>
      match numberAt lib (c :: rest) with
      | some number => number :: numberRuns n ((c :: rest).drop number.length)
      | none => numberRuns n rest

/-- The numbers an answer states. -/
def numbersIn (text : Str) : List Str :=
  ((numberRuns lib text.length text).map fun n =>
    (n.reverse.dropWhile (· = '.')).reverse.filter (· ≠ ',')).dedup

/-- How much two answers say the same thing. -/
def agreement (a b : Str) : ℚ :=
  let flat (s : Str) := Str.join [' '] (lib.lower s).words
  let surface := lib.ratio (flat a) (flat b)
  let first := contentWords lib a
  let second := contentWords lib b
  let substance : ℚ :=
    if first ≠ [] ∧ second ≠ [] then
      ((first.countP second.contains : ℕ) : ℚ) / (min first.length second.length : ℕ)
    else surface
  let left := numbersIn lib a
  let right := numbersIn lib b
  if left ≠ [] ∧ right ≠ [] then
    let shared := left.countP right.contains
    let sharedNumbers : ℚ := (shared : ℚ) / ((left.length + right.length - shared : ℕ) : ℚ)
    if sharedNumbers = 0 then min surface (3 / 10)
    else max (max surface substance) sharedNumbers
  else max surface substance

/-! ## Reading replies -/

/-- What follows `"key"\s*:\s*` at the front of a text. -/
def afterKey (key : Str) (s : Str) : Option Str := (fieldValue key s 0).map Prod.fst

/-- The leftmost place of a text where a reader succeeds: `re.search`. -/
def searchText {α : Type} (p : Str → Option α) : Str → Option α
  | [] => p []
  | c :: rest => (p (c :: rest)).or (searchText p rest)

/-- `((?:[^"\\]|\\.)*)"`: the raw characters up to the closing quote. -/
def quotedRun : Str → Option Str
  | [] => none
  | '"' :: _ => some []
  | '\\' :: c :: rest => if c = '\n' then none else (quotedRun rest).map fun r => '\\' :: c :: r
  | c :: rest => if c = '\\' then none else (quotedRun rest).map (c :: ·)

/-- `([0-9]*\.?[0-9]+)`. -/
def numberRun (s : Str) : Option Str :=
  let digit (c : Char) : Bool := '0' ≤ c && c ≤ '9'
  let whole := s.takeWhile digit
  let fraction := match s.dropWhile digit with
    | '.' :: rest => rest.takeWhile digit
    | _ => []
  if fraction ≠ [] then some (whole ++ '.' :: fraction)
  else if whole ≠ [] then some whole else none

/-- `text.replace('\\"', '"')`. -/
def unescapeQuotes : Str → Str
  | '\\' :: '"' :: rest => '"' :: unescapeQuotes rest
  | c :: rest => c :: unescapeQuotes rest
  | [] => []

/-- Recover the solver's fields from nearly valid JSON. -/
def salvage (text : Str) : Option (List (Str × Json)) := do
  let answer ← searchText (fun s => (afterKey "answer".toList s).bind fun r =>
    match r with | '"' :: r => quotedRun r | _ => none) text
  let confidence ← searchText (fun s => (afterKey "confidence".toList s).bind numberRun) text
  let plain (key : Str) := searchText (fun s => (afterKey key s).bind fun r =>
    match r with
    | '"' :: r =>
        if r.contains '"' then some (r.takeWhile (· ≠ '"')) else none
    | _ => none) text
  let field (key : Str) := (plain key).toList.map fun v => (key, Json.str v)
  let escalate := searchText (fun s => (afterKey "needs_escalation".toList s).bind fun r =>
    if "true".toList.isPrefixOf r then some true
    else if "false".toList.isPrefixOf r then some false else none) text
  let reason := searchText (fun s => (afterKey "reason".toList s).bind fun r =>
    match r with | '"' :: r => some r | _ => none) text
  let trimmed := (reason.map fun r =>
    (r.reverse.dropWhile fun c => "\"\x7d \n".toList.contains c).reverse).getD []
  pure ([("answer".toList, .str (unescapeQuotes answer)),
      ("confidence".toList, .str confidence)] ++
    field "task_type".toList ++ field "difficulty".toList ++
    [("needs_escalation".toList, .bool (escalate = some true)),
      ("reason".toList, .str trimmed)])

/-- Whether `isinstance(value, (str, int, float))`. -/
def isScalar : Json → Bool
  | .str _ | .int _ | .bool _ | .float _ => true
  | _ => false

/-- A reply's number, clamped; what `float` refuses counts as `default`, but an integer too
large for a float raises. -/
def readNumber (default : ℚ) (value : Json) : Except Exc ℚ :=
  match Json.toFloat lib value with
  | .ok x => .ok (clampFloat x)
  | .error .overflowError => .error (pyError "OverflowError".toList)
  | .error _ => .ok default

/-- The solver's JSON; anything else is an unreliable answer that needs escalation. -/
def readAssessment (value : Json) (tokenStats : Option TokenStats) : Except Exc Assessment :=
  let salvaged := value.str?.bind salvage
  let fields := salvaged.or value.obj?
  let tokenProb := tokenStats.map TokenStats.prob
  match fields.bind fun f => (f.lookup "answer".toList).filter isScalar, fields with
  | some answer, some fields => do
      let confidence ← readNumber lib (1 / 2)
        ((fields.lookup "confidence".toList).getD (.float (.fin (1 / 2))))
      let text (key : Str) (default : Str) :=
        Json.pyStr lib ((fields.lookup key).getD (.str default))
      pure {
        answer := Json.pyStr lib answer
        confidence
        taskType := (text "task_type".toList "unknown".toList).take 80
        difficulty := (text "difficulty".toList "medium".toList).take 20
        needsEscalation := ((fields.lookup "needs_escalation".toList).getD (.bool false)).truthy
        reason := (text "reason".toList []).take 500
        repaired := salvaged.isSome
        tokenProb, tokenStats }
  | _, _ => pure {
      answer := (Json.pyStr lib value).take 4000
      confidence := 15 / 100
      taskType := "unstructured".toList
      difficulty := "high".toList
      needsEscalation := true
      reason := ("The model did not return the required JSON, so its answer is treated as " ++
        "unreliable.").toList
      structured := false
      tokenProb, tokenStats }

/-- The critic's JSON; anything else counts as a failed check. -/
def readCritique (value : Json) : Except Exc Critique :=
  match value.get? "severity".toList with
  | some severity => do
      let severity ← readNumber lib 1 severity
      pure {
        passed := ((value.get? "passed".toList).getD (.bool false)).truthy
        severity
        critique := (Json.pyStr lib ((value.get? "critique".toList).getD (.str []))).take 1000 }
  | none => pure {
      passed := false
      severity := 1
      critique := ("The critic did not return valid JSON, so verification counts as " ++
        "failed.").toList }

end Measures

/-- An opted-in verbatim copy of one source: accepted only if the quote is all of it. -/
def answerExactExtraction (sources : Dict Str Str) (candidate : Json) : Option Str :=
  match sources.entries with
  | [(key, text)] =>
      let inputs : Inputs := Dict.empty.set (sourcesPrefix ++ key) (.str text)
      match validateResult .reportExtraction candidate inputs with
      | .error _ => none
      | .ok () =>
          match (candidate.get? "quote".toList).bind Json.str?,
              (candidate.get? "report_id".toList).bind Json.str? with
          | some quote, some reportId =>
              if quote ≠ text then none
              else some ("**".toList ++ reportId ++ "**: ".toList ++ quote)
          | _, _ => none
  | _ => none

/-! ## Rules -/

/-- A routing rule: `true` escalates, `false` keeps the answer, `none` has no opinion. The
other fields are the attributes read off the function object. -/
structure Rule : Type where
  name : Str
  limit : Option ℚ := none
  minTokens : Option ℕ := none
  minSeverity : Option ℚ := none
  judge : Verdict → Except Exc (Option Bool)

/-- The model said it needs a larger model, or ignored the answer format. -/
def escalateWhenRequested : Rule where
  name := "escalate_when_requested".toList
  judge v := .ok (if v.samples.any Assessment.needsEscalation then some true else none)

def rejectEmptyAnswers : Rule where
  name := "reject_empty_answers".toList
  judge v := .ok (if v.answer.strip.isEmpty then some true else none)

/-- Escalate when the model hesitated over the tokens of its own answer. -/
def tokenUncertaintyAtLeast (limit : ℚ) (tiers : List Tier := [.small]) (minTokens : ℕ := 3) :
    Rule where
  name := "escalate_when_tokens_are_uncertain".toList
  limit := some limit
  minTokens := some minTokens
  judge v :=
    let tokens := (v.samples.map fun s => (s.tokenStats.map TokenStats.count).getD 0).foldl max 0
    .ok (match v.signals.tokenUncertainty with
      | some value =>
          if tiers.contains v.tier ∧ value ≥ limit ∧ tokens ≥ minTokens then some true else none
      | none => none)

/-- Escalate when the critic rejects the answer with at least this severity. -/
def criticFails (minSeverity : ℚ := 1 / 2) : Rule where
  name := "escalate_when_critic_rejects".toList
  minSeverity := some minSeverity
  judge v :=
    let c := v.critique
    .ok (if !c.skipped && !c.passed && c.severity ≥ minSeverity then some true else none)

/-- The rules a policy has by default. -/
def defaultRules : List Rule :=
  [escalateWhenRequested, rejectEmptyAnswers, criticFails (1 / 2),
    tokenUncertaintyAtLeast (12 / 100)]

@[simp] theorem judge_escalateWhenRequested (v : Verdict) : escalateWhenRequested.judge v =
    .ok (if v.samples.any Assessment.needsEscalation then some true else none) := rfl

@[simp] theorem judge_rejectEmptyAnswers (v : Verdict) : rejectEmptyAnswers.judge v =
    .ok (if v.answer.strip.isEmpty then some true else none) := rfl

@[simp] theorem judge_criticFails (q : ℚ) (v : Verdict) : (criticFails q).judge v =
    .ok (if !v.critique.skipped && !v.critique.passed && v.critique.severity ≥ q then some true
      else none) := rfl

/-- The default rules never keep an answer and never raise: they escalate or have no
opinion. -/
theorem judge_default {rule : Rule} (hr : rule ∈ defaultRules) (v : Verdict) :
    rule.judge v = .ok (some true) ∨ rule.judge v = .ok none := by
  have hite : ∀ (c : Prop) [Decidable c], (if c then some true else none) = some true ∨
      (if c then some true else none) = (none : Option Bool) := by
    intro c _
    by_cases h : c <;> simp [h]
  simp only [defaultRules, List.mem_cons, List.not_mem_nil, or_false] at hr
  rcases hr with hr | hr | hr | hr <;> rw [hr]
  · rw [judge_escalateWhenRequested]
    exact (hite _).imp (congrArg Except.ok) (congrArg Except.ok)
  · rw [judge_rejectEmptyAnswers]
    exact (hite _).imp (congrArg Except.ok) (congrArg Except.ok)
  · rw [judge_criticFails]
    exact (hite _).imp (congrArg Except.ok) (congrArg Except.ok)
  · unfold tokenUncertaintyAtLeast
    simp only
    cases v.signals.tokenUncertainty with
    | none => exact .inr rfl
    | some u => exact (hite _).imp (congrArg Except.ok) (congrArg Except.ok)

/-! ## The policy -/

/-- The relative weights of the signals. -/
structure Weights : Type where
  selfUncertainty : ℚ := 25 / 100
  tokenUncertainty : ℚ := 30 / 100
  inconsistency : ℚ := 25 / 100
  criticRisk : ℚ := 25 / 100
  taskComplexity : ℚ := 10 / 100
  explicitEscalation : ℚ := 10 / 100
  deriving DecidableEq

inductive TokenSignal : Type
  | mean
  | hesitation
  deriving DecidableEq

inductive CloudMode : Type
  | auto
  | plan
  | direct
  deriving DecidableEq

/-- The routing settings. -/
structure RoutingPolicy : Type where
  escalationThreshold : ℚ := 30 / 100
  tierThresholds : List (Tier × ℚ) := [(.mid, 25 / 100)]
  localSamples : ℕ := 2
  useCritic : Bool := true
  tokenSignal : TokenSignal := .mean
  escalateBigGoals : Bool := true
  weights : Weights := {}
  rules : List Rule := defaultRules
  crossCritic : Bool := true
  skipSmallAbove : Option ℚ := none
  cloudMode : CloudMode := .auto
  planMinParts : ℤ := 2
  planMinChars : ℤ := 120
  bulkParts : ℤ := 4
  minParallelLocal : ℤ := 2
  localWorkerAttempts : ℕ := 2
  escalateFailedLocalTasks : Bool := true
  planAttempts : ℕ := 2
  thresholds_mem : ∀ t ∈ escalationThreshold :: tierThresholds.map Prod.snd, 0 ≤ t ∧ t ≤ 1 := by
    norm_num
  localSamples_pos : 1 ≤ localSamples := by decide
  localWorkerAttempts_pos : 1 ≤ localWorkerAttempts := by decide
  planAttempts_pos : 1 ≤ planAttempts := by decide

/-- The mean of a list of numbers. -/
def mean (xs : List ℚ) : ℚ := xs.sum / xs.length

/-- The unordered pairs of a list, earlier element first. -/
def pairs {α : Type} : List α → List (α × α)
  | [] => []
  | x :: xs => xs.map (fun y => (x, y)) ++ pairs xs

namespace RoutingPolicy

variable (lib : StdLib) (p : RoutingPolicy)

/-- Which model critiques a tier's answer: the next larger local model, or itself. -/
def criticTier (tier : Tier) (tiers : List Tier) : Tier :=
  let locals := localTiers tiers
  if p.crossCritic then (locals[locals.idxOf tier + 1]?).getD tier else tier

/-- Skip the smallest local model for requests that look hard. -/
def skips (tier : Tier) (tiers : List Tier) (complexity : ℚ) : Bool :=
  let locals := localTiers tiers
  match p.skipSmallAbove with
  | some limit => locals.length > 1 && locals.head? = some tier && complexity ≥ limit
  | none => false

/-- How unsure the model was of its own words, if it returned log-probabilities. -/
def tokenUncertainty (samples : List Assessment) : Option ℚ :=
  match samples.filterMap Assessment.tokenStats with
  | [] => none
  | stats =>
      some (match p.tokenSignal with
        | .hesitation => clamp (mean (stats.map TokenStats.hesitation))
        | .mean => clamp (1 - mean (stats.map TokenStats.prob)))

/-- Weighted mean of the available signals. -/
def combine (v : SignalValues) : ℚ :=
  let w := p.weights
  let available : List (ℚ × ℚ) :=
    [(w.selfUncertainty, v.selfUncertainty)] ++
      (v.tokenUncertainty.toList.map fun u => (w.tokenUncertainty, u)) ++
      [(w.inconsistency, v.inconsistency), (w.criticRisk, v.criticRisk),
        (w.taskComplexity, v.taskComplexity), (w.explicitEscalation, v.explicitEscalation)]
  let total := (available.map Prod.fst).sum
  if total = 0 then 0 else clamp ((available.map fun e => e.1 * e.2).sum / total)

/-- The six signals before rounding. -/
def signalValues (text : Str) (samples : List Assessment) (critique : Critique) :
    SignalValues where
  selfUncertainty := 1 - mean (samples.map Assessment.confidence)
  tokenUncertainty := p.tokenUncertainty samples
  inconsistency :=
    match pairs samples with
    | [] => 0
    | ps => 1 - mean (ps.map fun (a, b) => agreement lib a.answer b.answer)
  criticRisk := critique.severity
  taskComplexity := HorizonRelay.taskComplexity lib text
  explicitEscalation := if samples.any Assessment.needsEscalation then 1 else 0

/-- Signals to four decimals. -/
def roundSignals (v : SignalValues) : SignalValues where
  selfUncertainty := roundTo 4 v.selfUncertainty
  tokenUncertainty := v.tokenUncertainty.map (roundTo 4)
  inconsistency := roundTo 4 v.inconsistency
  criticRisk := roundTo 4 v.criticRisk
  taskComplexity := roundTo 4 v.taskComplexity
  explicitEscalation := roundTo 4 v.explicitEscalation

/-- The signals of one local model's answers. The score is of the values before rounding. -/
def signals (text : Str) (samples : List Assessment) (critique : Critique) : Signals :=
  let values := p.signalValues lib text samples critique
  { roundSignals values with combinedScore := roundTo 4 (p.combine values) }

/-- Whether the cloud should split this request into subtasks. -/
def plans (text : Str) : Bool :=
  match p.cloudMode with
  | .plan => true
  | .direct => false
  | .auto => (requestParts lib text : ℤ) ≥ p.planMinParts && (text.length : ℤ) ≥ p.planMinChars

/-- Why this plan wastes the local models, if it does. -/
def checkPlan (plan : Plan) (text : Str) : Option Str :=
  if (requestParts lib text : ℤ) < p.bulkParts then none
  else
    let independent := plan.tasks.filter fun t => t.preferredTier ≠ .cloud && t.dependsOn.isEmpty
    if (independent.length : ℤ) ≥ p.minParallelLocal then none
    else some (("The goal asks for several things, so it must not come back as one task that " ++
        "produces everything. Plan at least ").toList ++ Str.ofInt p.minParallelLocal ++
      (" local subtasks with empty depends_on, each producing one named piece of the " ++
        "deliverable (one function or group of functions, one section, one list), and keep " ++
        "the cloud task to the single hardest piece so the local models work while it " ++
        "does.").toList)

def threshold (tier : Tier) : ℚ := (p.tierThresholds.lookup tier).getD p.escalationThreshold

/-- How a rule that forced a decision is named in the verdict. A rule called like the token
rule is taken to have its attributes. -/
def ruleReason (rule : Rule) (v : Verdict) : Except Exc Str :=
  let name := rule.name.map fun c => if c = '_' then ' ' else c
  let suffix : Except Exc Str :=
    if name = "escalate when critic rejects".toList then
      .ok (" (severity ".toList ++ fmt2 v.critique.severity ++ [')'])
    else if name = "escalate when tokens are uncertain".toList then
      match v.signals.tokenUncertainty, rule.limit with
      | some u, some limit => .ok (" (".toList ++ fmt2 u ++ " ≥ ".toList ++ fmt2 limit ++ [')'])
      | none, _ => .error (pyError "TypeError".toList)
      | _, none => .error (pyError "AttributeError".toList)
    else .ok []
  suffix.map fun s => "Rule: ".toList ++ name ++ s

/-- The first rule with an opinion, and the verdict's reason for it. -/
def forced (v : Verdict) : List Rule → Except Exc (Option (Bool × Str))
  | [] => .ok none
  | rule :: rules => do
      match ← rule.judge v with
      | some escalate => pure (some (escalate, ← ruleReason rule v))
      | none => forced v rules

/-- The verdict on one local model: big goals and rules decide first, then the score. Without
samples there are no signals: their `mean` raises. -/
def decide (tier : Tier) (text : Str) (samples : List Assessment) (critique : Critique) :
    Except Exc Verdict :=
  if samples = [] then .error (pyError "StatisticsError".toList) else
  let signals := p.signals lib text samples critique
  let threshold := p.threshold tier
  let base : Verdict :=
    { tier, samples, critique, signals, threshold, escalate := false, reason := [] }
  let parts := requestParts lib text
  if p.escalateBigGoals ∧ (parts : ℤ) ≥ p.bulkParts then
    .ok { base with
      escalate := true
      reason := "A goal asking for ".toList ++ Str.ofNat parts ++
        " things is worth planning and handing out".toList }
  else do
    match ← forced base p.rules with
    | some (escalate, reason) => pure { base with escalate, reason }
    | none =>
        let escalate : Bool := signals.combinedScore ≥ threshold
        pure { base with
          escalate
          reason := "Score ".toList ++ fmt2 signals.combinedScore ++
            (if escalate then " ≥ ".toList else " < ".toList) ++ "threshold ".toList ++
            fmt2 threshold }

/-- The tier for each attempt at a subtask, in order. -/
def workerTiers (task : Task) (tiers : List Tier) : List Tier :=
  if task.preferredTier = .cloud then [.cloud]
  else
    let larger := tiers.drop (tiers.idxOf task.preferredTier + 1)
    List.replicate p.localWorkerAttempts task.preferredTier ++
      if p.escalateFailedLocalTasks then larger else []

/-! ## What decisions depend on -/

variable {lib : StdLib} {p : RoutingPolicy}

/-- Only the smallest local model is ever skipped. -/
theorem head_of_skips {tier : Tier} {tiers : List Tier} {complexity : ℚ}
    (h : p.skips tier tiers complexity = true) : (localTiers tiers).head? = some tier := by
  unfold skips at h
  split at h
  · simp only [Bool.and_eq_true, decide_eq_true_eq] at h
    exact h.1.2
  · cases h

/-- Only the last rung of a ladder can be the cloud. -/
theorem workerTiers_pairwise (task : Task) {tiers : List Tier}
    (h : tiers.Pairwise fun a _ => a ≠ .cloud) :
    (p.workerTiers task tiers).Pairwise fun a _ => a ≠ .cloud := by
  unfold workerTiers
  split
  · exact List.pairwise_singleton _ _
  · rename_i hpref
    refine List.pairwise_append.mpr ⟨List.pairwise_replicate.mpr (.inr hpref), ?_, ?_⟩
    · split
      · exact h.sublist (List.drop_sublist _ _)
      · exact .nil
    · intro a ha _ _
      rw [List.eq_of_mem_replicate ha]
      exact hpref

/-- A ladder has the attempts of its first tier, and each larger local tier once. -/
theorem countP_workerTiers_le {task : Task} {tiers : List Tier}
    (h : task.preferredTier ∈ tiers) :
    (p.workerTiers task tiers).countP (· ≠ .cloud) ≤
      p.localWorkerAttempts + ((localTiers tiers).length - 1) := by
  unfold workerTiers
  split
  · exact Nat.zero_le _
  · rename_i hpref
    have hsplit : (localTiers tiers).length =
        (tiers.take (tiers.idxOf task.preferredTier + 1)).countP (· ≠ .cloud) +
          (tiers.drop (tiers.idxOf task.preferredTier + 1)).countP (· ≠ .cloud) := by
      rw [← List.countP_append, List.take_append_drop, localTiers, List.countP_eq_length_filter]
    have hpos : 0 < (tiers.take (tiers.idxOf task.preferredTier + 1)).countP (· ≠ .cloud) := by
      refine List.countP_pos_iff.mpr ⟨task.preferredTier, ?_, by simpa using hpref⟩
      exact (List.mem_take_iff_idxOf_lt h).mpr (Nat.lt_succ_self _)
    have hrep : (List.replicate p.localWorkerAttempts task.preferredTier).countP (· ≠ .cloud) ≤
        p.localWorkerAttempts := by
      simpa using List.countP_le_length (p := (· ≠ Tier.cloud))
        (l := List.replicate p.localWorkerAttempts task.preferredTier)
    rw [List.countP_append]
    split
    · omega
    · rw [List.countP_nil]
      omega

/-- The critic of a local tier is the tier itself or the next larger local one. -/
theorem criticTier_cases (tier : Tier) (tiers : List Tier) :
    p.criticTier tier tiers = tier ∨
      (localTiers tiers)[(localTiers tiers).idxOf tier + 1]? = some (p.criticTier tier tiers) := by
  unfold criticTier
  simp only
  split
  · cases h : (localTiers tiers)[(localTiers tiers).idxOf tier + 1]? with
    | none => exact .inl rfl
    | some t => exact .inr rfl
  · exact .inl rfl

/-- Critics are local. -/
theorem criticTier_mem {tier : Tier} {tiers : List Tier} (h : tier ∈ localTiers tiers) :
    p.criticTier tier tiers ∈ localTiers tiers := by
  rcases p.criticTier_cases tier tiers with he | he
  · rw [he]
    exact h
  · exact List.mem_of_getElem? he

/-- A verdict is about the model, the answers and the critique it was made from. -/
theorem decide_eq_ok {tier : Tier} {text : Str} {samples : List Assessment}
    {critique : Critique} {v : Verdict} (h : p.decide lib tier text samples critique = .ok v) :
    v.tier = tier ∧ v.samples = samples ∧ v.critique = critique := by
  unfold decide at h
  simp only at h
  split at h
  · cases h
  · split at h
    · cases h
      exact ⟨rfl, rfl, rfl⟩
    · obtain ⟨f, -, h⟩ := bind_eq_ok.mp h
      cases f with
      | none =>
          cases h
          exact ⟨rfl, rfl, rfl⟩
      | some f =>
          cases h
          exact ⟨rfl, rfl, rfl⟩

/-- A verdict is on at least one sample. -/
theorem ne_nil_of_decide {tier : Tier} {text : Str} {samples : List Assessment}
    {critique : Critique} {v : Verdict} (h : p.decide lib tier text samples critique = .ok v) :
    samples ≠ [] := by
  rintro rfl
  cases h

theorem fresh_ruleReason (rule : Rule) (v : Verdict) : Fresh (ruleReason rule v) := by
  unfold ruleReason
  refine Fresh.map ?_ _
  split
  · exact fresh_ok _
  · split
    · split <;> simp
    · exact fresh_ok _

theorem fresh_forced {v : Verdict} {rules : List Rule}
    (h : ∀ rule ∈ rules, Fresh (rule.judge v)) : Fresh (forced v rules) := by
  induction rules with
  | nil => exact fresh_ok _
  | cons rule rules ih =>
      unfold forced
      refine (h rule (by simp)).bind fun f => ?_
      cases f with
      | none => exact ih fun rule hr => h rule (by simp [hr])
      | some b => exact (fresh_ruleReason rule v).bind fun _ => fresh_pure _

/-- A policy with the default rules. -/
def DefaultRules (p : RoutingPolicy) : Prop := p.rules = defaultRules

theorem fresh_decide (hp : p.DefaultRules) (tier : Tier) (text : Str)
    (samples : List Assessment) (critique : Critique) :
    Fresh (p.decide lib tier text samples critique) := by
  unfold decide
  simp only
  split
  · exact (raises_error _).mpr (ofCheck_pyError _)
  · split
    · exact fresh_ok _
    · refine (fresh_forced fun rule hr => ?_).bind fun f => ?_
      · rw [hp] at hr
        rcases judge_default hr _ with h | h <;> rw [h] <;> exact fresh_ok _
      · cases f with
        | none => exact fresh_pure _
        | some f => exact fresh_pure _

/-- The first rule that has an opinion is heard. -/
theorem forced_eq_some {v : Verdict} {rules : List Rule} {b : Bool} {reason : Str}
    (h : forced v rules = .ok (some (b, reason))) :
    ∃ rule ∈ rules, rule.judge v = .ok (some b) := by
  induction rules with
  | nil => cases h
  | cons rule rules ih =>
      unfold forced at h
      cases hj : rule.judge v with
      | error e =>
          rw [hj] at h
          cases h
      | ok f =>
          rw [hj] at h
          cases f with
          | none =>
              obtain ⟨rule', hr, hb⟩ := ih h
              exact ⟨rule', by simp [hr], hb⟩
          | some b' =>
              cases hr : ruleReason rule v with
              | error e =>
                  have h : (ruleReason rule v >>= fun reason =>
                    pure (some (b', reason))) = .ok (some (b, reason)) := h
                  rw [hr] at h
                  cases h
              | ok reason' =>
                  have h : (ruleReason rule v >>= fun reason =>
                    pure (some (b', reason))) = .ok (some (b, reason)) := h
                  rw [hr] at h
                  cases h
                  exact ⟨rule, by simp, hj⟩

theorem forced_eq_none {v : Verdict} {rules : List Rule} (h : forced v rules = .ok none) :
    ∀ rule ∈ rules, rule.judge v = .ok none := by
  induction rules with
  | nil => simp
  | cons rule rules ih =>
      unfold forced at h
      cases hj : rule.judge v with
      | error e =>
          rw [hj] at h
          cases h
      | ok f =>
          rw [hj] at h
          cases f with
          | none =>
              intro rule' hr
              rcases List.mem_cons.mp hr with rfl | hr
              · exact hj
              · exact ih h rule' hr
          | some b' =>
              have h : (ruleReason rule v >>= fun reason =>
                pure (some (b', reason))) = .ok none := h
              cases hr : ruleReason rule v with
              | error e =>
                  rw [hr] at h
                  cases h
              | ok reason' =>
                  rw [hr] at h
                  cases h

/-- With the default rules, a model that asks for help or whose critic rejects its answer
is not trusted. -/
theorem escalate_of_default (hp : p.DefaultRules) {tier : Tier} {text : Str}
    {samples : List Assessment} {critique : Critique} {v : Verdict}
    (h : p.decide lib tier text samples critique = .ok v)
    (hbad : samples.any Assessment.needsEscalation = true ∨
      critique.skipped = false ∧ critique.passed = false ∧ 1 / 2 ≤ critique.severity) :
    v.escalate = true := by
  have hne := ne_nil_of_decide h
  unfold decide at h
  rw [if_neg hne] at h
  simp only at h
  split at h
  · cases h
    rfl
  · rw [hp] at h
    cases hf : forced _ defaultRules with
    | error e =>
        rw [hf] at h
        cases h
    | ok f =>
        rw [hf] at h
        cases f with
        | some f =>
            obtain ⟨b, reason⟩ := f
            cases h
            obtain ⟨rule, hr, hj⟩ := forced_eq_some hf
            rcases judge_default hr _ with h | h <;> rw [hj] at h <;> cases h
            rfl
        | none =>
            exfalso
            have hnone := forced_eq_none hf
            rcases hbad with hbad | ⟨h₁, h₂, h₃⟩
            · have := hnone escalateWhenRequested (by simp [defaultRules])
              rw [judge_escalateWhenRequested, if_pos hbad] at this
              cases this
            · have := hnone (criticFails (1 / 2)) (by simp [defaultRules])
              rw [judge_criticFails, if_pos (by simpa [h₁, h₂] using h₃)] at this
              cases this

end RoutingPolicy

/-! ## Errors of the readers -/

section Readers
variable {lib : StdLib}

theorem fresh_readNumber (default : ℚ) (value : Json) : Fresh (readNumber lib default value) := by
  unfold readNumber
  split <;> simp

theorem fresh_readAssessment (value : Json) (stats : Option TokenStats) :
    Fresh (readAssessment lib value stats) := by
  unfold readAssessment
  simp only
  split
  · exact (fresh_readNumber _ _).bind fun _ => fresh_pure _
  · exact fresh_pure _

theorem fresh_readCritique (value : Json) : Fresh (readCritique lib value) := by
  unfold readCritique
  split
  · exact (fresh_readNumber _ _).bind fun _ => fresh_pure _
  · exact fresh_pure _

end Readers

/-- The standard library on ASCII text that holds no number but integers. -/
def asciiLib : StdLib where
  lower s := s.map Char.toLower
  decimal c := if c.isDigit then some (c.toNat - 48) else none
  ratio a b := if a = b then 1 else 0
  exp q := if q = 0 then 1 else 0
  floatRepr _ := "0.0".toList
  strRepr s := ['\''] ++ s ++ ['\'']

end HorizonRelay
