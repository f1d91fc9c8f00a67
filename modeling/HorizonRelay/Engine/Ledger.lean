import HorizonRelay.Engine.Loop
import HorizonRelay.WellFormed

/-!
# What the records of a run satisfy

The records a run keeps are related to each other: the calls of the main flow follow one
fixed order, the calls of a worker climb the ladder of its task, every accepted result is
the value of its worker's last call.  `Ledger.Ok` collects these relations; the other
modules show that every task of the run keeps them.

## Main definitions

* `Slot`, `Setup.schedule` — the place of each call in the order a run makes them.
* `Ladder` — the calls a worker makes for its task.
* `JobOk`, `MainOk`, `Ledger.Ok` — the relations between the records.
-/

namespace HorizonRelay

open Py Coop

/-! ## The order of calls -/

/-- The place of a call in a run. -/
inductive Slot : Type
  | extract
  | judge (tier : Tier) (attempt : ℕ)
  | answer
  | plan (attempt : ℕ)
  | work (id : Str) (attempt : ℕ)
  | synthesize
  deriving DecidableEq

/-- Where a payload belongs. -/
def Payload.slot : Payload → Slot
  | .attempt .. => .extract
  | .solve _ _ n t | .critique _ _ n t => .judge t n
  | .answer .. => .answer
  | .plan _ _ _ _ _ n => .plan n
  | .work t _ _ n _ => .work t.id n
  | .synthesize .. => .synthesize

/-- Where a call belongs. -/
def Call.slot (c : Call) : Slot := c.payload.slot

variable (x : Setup)

/-- The local tiers, smallest first. -/
def Setup.locals : List Tier := localTiers x.tiers

/-- The slots of one local model: its samples, then its critic. -/
def Setup.judgeSlots (tier : Tier) : List Slot :=
  (List.range' 1 (x.policy.localSamples + 1)).map (Slot.judge tier)

/-- The slots of the local part of a run. -/
def Setup.localSlots : List Slot :=
  (if x.localExtract then [.extract] else []) ++ x.locals.flatMap x.judgeSlots

/-- The slots of the cloud's part of a run. -/
def Setup.cloudSlots : List Slot :=
  .answer :: (List.range' 1 x.policy.planAttempts).map Slot.plan ++ [.synthesize]

/-- The order in which the main flow makes its calls, each at most once. -/
def Setup.schedule : List Slot := x.localSlots ++ x.cloudSlots

/-- The tier the main flow makes a call on. -/
def Setup.tierOf : Payload → Option Tier
  | .attempt .. => some .small
  | .solve _ _ _ t => some t
  | .critique _ _ _ t => some (x.policy.criticTier t x.tiers)
  | .answer .. | .plan .. | .synthesize .. => some .cloud
  | .work .. => none

/-- The cloud answers by itself what it does not plan. -/
def Setup.FitsMode : Payload → Prop
  | .answer .. => x.policy.plans x.lib x.text = false
  | .plan .. => x.policy.plans x.lib x.text = true
  | _ => True

/-! ## Calls -/

/-- The record names the call it is about. -/
structure Call.Recorded (c : Call) : Prop where
  operation : c.record.operation = c.payload.operation
  taskId : c.record.taskId = c.payload.taskId
  attempt : c.record.attempt = c.payload.attempt?
  forTier : c.record.forTier = c.payload.forTier

/-- A call task `i` made. -/
structure Call.MadeBy (i : Thread) (tier : Tier) (p : Payload) (c : Call) : Prop where
  thread : c.thread = i
  payload : c.payload = p
  tier : c.record.tier = tier
  recorded : c.Recorded

/-- Which ends of a call are considered. -/
abbrev Permit : Type := Tier → Payload → Except Exc Json → Prop

/-- Every end of a call is considered. -/
def anyEnd : Permit := fun _ _ _ => True

/-- Whether a call that ended, ended in a permitted way. -/
def Call.Permitted (permit : Permit) (c : Call) : Prop :=
  ∀ r, c.ended = some r → permit c.record.tier c.payload r

/-- Whether a call site lets an error of its call through. -/
def Payload.letsThrough : Payload → Exc → Prop
  | .solve .., e | .critique .., e => e.isRelayError = false
  | .work .., e => e.cls = .budget ∨ e.isRelayError = false
  | _, _ => True

/-! ## Ladders -/

/-- Why an attempt at a task counts as failed, if it does. -/
def Call.failure (task : Task) (inputs : Inputs) (c : Call) : Option Str :=
  match c.ended with
  | some (.error e) => if e.isRelayError && e.cls ≠ .budget then some e.msg else none
  | some (.ok v) =>
      match validateResult task.resultType v inputs with
      | .error e => if e.cls = .validation then some e.msg else none
      | .ok () => none
  | none => none

/-- The errors of failed attempts, in order. -/
def failures (task : Task) (inputs : Inputs) (cs : List Call) : List Str :=
  cs.filterMap (Call.failure task inputs)

/-- The calls a worker made for its task: on the tiers of the ladder in order, each told the
errors of all earlier ones, and each after the first only because all earlier ones failed. -/
structure Ladder (task : Task) (inputs : Inputs) (cs : List Call) : Prop where
  payload : ∀ (i : ℕ) (c : Call), cs[i]? = some c →
    c.payload = .work task inputs x.goal (i + 1) (failures task inputs (cs.take i))
  tier : ∀ (i : ℕ) (c : Call), cs[i]? = some c →
    (x.policy.workerTiers task x.tiers)[i]? = some c.record.tier
  failed : ∀ (i : ℕ) (c : Call), cs[i]? = some c → i + 1 < cs.length →
    (c.failure task inputs).isSome

/-- The inputs a task's references name now. -/
def Ledger.inputsOf (l : Ledger) (task : Task) : Except Exc Inputs :=
  resolveInputs x.sources l.results task.inputRefs .empty

/-! ## The relations between the records -/

/-- An error came out of a call of task `i` whose call site lets it through, if it came out
of one. -/
def Ledger.Blames (l : Ledger) (i : Thread) (e : Exc) : Prop :=
  ∀ k, e.call = some k → ∃ c e', l.calls[k]? = some c ∧ c.thread = i ∧
    c.ended = some (.error e') ∧ c.payload.letsThrough e'

/-- One entry of `results` grows another: nothing is lost or replaced. -/
def Grows (r r' : Dict Str Json) : Prop := ∀ k v, r.get? k = some v → r'.get? k = some v

/-- Why the worker of job `n` raised an error. -/
inductive WorkerError (x : Setup) (l : Ledger) (n : ℕ) (job : Job) (e : Exc) : Prop
  | cancelled (h : e = cancelledError)
  /-- Its call site let the error of a call through. -/
  | call {k : ℕ} {c : Call} (hcall : e.call = some k) (hk : l.calls[k]? = some c)
      (hc : c.thread = .job n) (hend : c.ended = some (.error e))
      (hp : c.payload.letsThrough e)
  /-- The cloud budget refused a call. -/
  | refused {inputs : Inputs} (hbudget : e.cls = .budget) (hcall : e.call = none)
      (h : l.budget.Refuses x.limits .work) (hi : l.inputsOf x job.task = .ok inputs)
      (hrung : (x.policy.workerTiers job.task x.tiers)[(l.mine (.job n)).length]? = some .cloud)
      (hall : ∀ c ∈ l.mine (.job n), (c.failure job.task inputs).isSome)
  /-- Every tier of the ladder was tried in vain. -/
  | exhausted {inputs : Inputs} (he : e.OfCheck) (hi : l.inputsOf x job.task = .ok inputs)
      (hlen : (l.mine (.job n)).length = (x.policy.workerTiers job.task x.tiers).length)
      (hall : ∀ c ∈ l.mine (.job n), (c.failure job.task inputs).isSome)
  /-- Its inputs could not be resolved. -/
  | inputs {r : Dict Str Json} (hr : Grows r l.results)
      (hdeps : ∀ d ∈ job.task.dependsOn, d ∈ r.keys) (hmine : l.mine (.job n) = [])
      (h : resolveInputs x.sources r job.task.inputRefs .empty = .error e)
  /-- The check of a value failed in a way of its own. -/
  | check {inputs : Inputs} {c : Call} {v : Json} (hi : l.inputsOf x job.task = .ok inputs)
      (hlast : (l.mine (.job n)).getLast? = some c) (hend : c.ended = some (.ok v))
      (h : validateResult job.task.resultType v inputs = .error e) (hcls : e.cls ≠ .validation)

/-- What holds of a worker job. -/
structure JobOk (l : Ledger) (n : ℕ) (job : Job) : Prop where
  deps : ∀ d ∈ job.task.dependsOn, d ∈ l.results.keys
  ladder : l.mine (.job n) = [] ∨ ∃ inputs, l.inputsOf x job.task = .ok inputs ∧
    Ladder x job.task inputs (l.mine (.job n))
  /-- An accepted result is the value of the last call, and passed its check. -/
  accepted : ∀ v, l.results.get? job.task.id = some v → ∃ inputs c,
    l.inputsOf x job.task = .ok inputs ∧ validateResult job.task.resultType v inputs = .ok () ∧
    (l.mine (.job n)).getLast? = some c ∧ c.ended = some (.ok v)
  returned : ∀ v, job.outcome = some (.ok v) → l.results.get? job.task.id = some v
  failed : ∀ e, job.outcome = some (.error e) → WorkerError x l n job e
  /-- Only a cancellation can follow an accepted result. -/
  unaccepted : ∀ e, job.outcome = some (.error e) → e ≠ cancelledError →
    l.results.get? job.task.id = none

/-- The operations of the cloud calls, in order. -/
def Ledger.cloudOps (l : Ledger) : List Operation :=
  l.calls.filterMap fun c => if c.record.tier = .cloud then some c.payload.operation else none

/-- What holds of the calls and the budget. -/
structure CallsOk (permit : Permit) (l : Ledger) : Prop where
  permitted : ∀ c ∈ l.calls, c.Permitted permit
  recorded : ∀ c ∈ l.calls, c.Recorded
  /-- Every cloud call was charged, and its charge accepted; nothing else was. -/
  charged : CloudBudget.spendAll x.limits {} l.cloudOps = .ok l.budget
  maker : ∀ c ∈ l.calls, c.thread = .main ∨ ∃ n, n < l.jobs.length ∧ c.thread = .job n

/-- Whether an exact extraction was accepted, as the answer `a`. -/
def Ledger.Extracted (l : Ledger) (a : Str) : Prop :=
  ∃ c v, c ∈ l.mine .main ∧ c.payload = .attempt x.goal x.sources ∧ c.ended = some (.ok v) ∧
    answerExactExtraction x.sources v = some a

/-- What holds of the main flow: its calls in order, and the cascade of local models. -/
structure MainOk (l : Ledger) : Prop where
  schedule : ((l.mine .main).map Call.slot).Sublist x.schedule
  tiers : ∀ c ∈ l.mine .main, x.tierOf c.payload = some c.record.tier
  fits : ∀ c ∈ l.mine .main, x.FitsMode c.payload
  /-- A local model whose answer or critic failed is not trusted. -/
  distrusted : x.policy.DefaultRules → ∀ c ∈ l.mine .main, ∀ t e,
    c.payload.forTier = some t → c.ended = some (.error e) →
    ∀ v ∈ l.verdicts, v.tier = t → v.escalate = true
  /-- Once a route is chosen, every local model that was called has a verdict. -/
  heard : l.route.isSome → ∀ c ∈ l.mine .main, ∀ t, c.payload.forTier = some t →
    t ∈ l.verdicts.map Verdict.tier
  /-- The tiers skipped and judged so far come first among the local ones. -/
  judged : ∃ m, l.skipped ++ l.verdicts.map Verdict.tier = x.locals.take m
  escalates : ∀ v ∈ l.verdicts.dropLast, v.escalate = true
  /-- A local route is an accepted extraction or the last verdict, and costs nothing. -/
  trusted : ∀ t, l.route = some t → t ≠ .cloud →
    (∃ a, l.Extracted x a) ∨ ∃ v, l.verdicts.getLast? = some v ∧ v.tier = t ∧ v.escalate = false
  free : ∀ t, l.route = some t → t ≠ .cloud → ∀ c ∈ l.calls, c.record.tier ≠ .cloud
  cloud : l.route = some .cloud →
    l.skipped ++ l.verdicts.map Verdict.tier = x.locals ∧ ∀ v ∈ l.verdicts, v.escalate = true

/-- Each batch holds the tasks on one layer of the dependencies, from the first on. -/
structure BatchesOk (plan : Option Plan) (tasks : List Task) (batches : List (List Task)) :
    Prop where
  unstarted : plan = none → batches = []
  tasks : batches.flatten = tasks
  layers : ∀ p, plan = some p → ∀ (k : ℕ) (b : List Task), batches[k]? = some b → ∀ t,
    t ∈ b ↔ t ∈ p.tasks ∧ Layers.OnLayer (Plan.Needs p.tasks) k t.id

/-- What holds of the plan, the jobs created for it and the results. -/
structure PlanOk (l : Ledger) : Prop where
  batches : BatchesOk l.plan (l.jobs.map Job.task) l.batches
  none : l.plan = none → l.jobs = []
  accepted : ∀ p, l.plan = some p → ∃ raw, checkedPlan x raw = .ok p
  routed : ∀ p, l.plan = some p → l.route = some .cloud
  tasks : ∀ p, l.plan = some p → ∀ job ∈ l.jobs, job.task ∈ p.tasks
  ids : (l.jobs.map fun job => job.task.id).Nodup
  keys : l.plan.isSome → ∀ k ∈ l.results.keys, ∃ job ∈ l.jobs, job.task.id = k
  extracted : l.plan = .none → ∀ k ∈ l.results.keys, ∃ a, l.Extracted x a
  /-- The answer is put together only from the results of all tasks. -/
  synthesized : ∀ c ∈ l.calls, ∀ goal sources instruction results,
    c.payload = .synthesize goal sources instruction results →
    ∃ p, l.plan = some p ∧ Grows results l.results ∧ ∀ t ∈ p.tasks, t.id ∈ results.keys
  /-- With a plan the cloud does not answer by itself. -/
  unanswered : l.plan.isSome → ∀ c ∈ l.calls, c.payload.operation ≠ .answer

/-- What a returned result says. -/
structure Answered (r : RunResult) (l : Ledger) : Prop where
  results : r.results = l.results
  route : r.metrics.route = l.route
  verdicts : r.metrics.verdicts = l.verdicts
  skipped : r.metrics.skipped = l.skipped
  content : ∀ t, l.route = some t → t ≠ .cloud →
    (∃ a, l.Extracted x a ∧ r.content = x.label a) ∨
    ∃ v, l.verdicts.getLast? = some v ∧ r.content = x.label v.answer
  routed : l.route.isSome
  synthesized : l.plan.isSome → ∃ c ∈ l.calls, c.payload.operation = .synthesize

/-- Why the main flow raised an error after a plan was accepted. -/
inductive PlanError (x : Setup) (l : Ledger) (e : Exc) : Prop
  | cancelled (h : e = cancelledError)
  | worker {n : ℕ} {job : Job} (hj : l.jobs[n]? = some job) (h : job.outcome = some (.error e))
  | refused (hbudget : e.cls = .budget) (h : l.budget.Refuses x.limits .synthesize)
  | synthesized {c : Call} (hc : c ∈ l.calls) (h : c.payload.operation = .synthesize)

/-- What the handlers of a run make of an error. -/
def Exc.reported (e : Exc) : Exc :=
  if e.cls = .cancelled ∨ e.isRelayError then e
  else if e.cls = .timeout then e.deadlineExceeded else e.providerFailed

/-- What holds once the caller's task has ended. -/
structure Ended (l : Ledger) (o : Except Exc RunResult) : Prop where
  idle : ∀ n, l.running n = false
  answered : ∀ r, o = .ok r → Answered x r l
  blames : x.policy.DefaultRules → ∀ e, o = .error e → ∃ i, l.Blames i e
  /-- After a plan was accepted only an interruption, a worker, or the synthesis stops a run. -/
  planned : ∀ e, o = .error e → l.plan.isSome → e = cancelledError ∨
    ∃ e₀, e = e₀.reported ∧ (e₀ = timeoutError ∨ PlanError x l e₀)

/-- What holds of the records of a run whenever no task is running. -/
structure Ledger.Ok (permit : Permit) (l : Ledger) : Prop where
  calls : CallsOk x permit l
  main : MainOk x l
  plan : PlanOk x l
  jobs : ∀ (n : ℕ) (job : Job), l.jobs[n]? = some job → JobOk x l n job
  ended : ∀ o, l.outcome = some o → Ended x l o

/-- The records at the start. -/
theorem Ledger.ok_empty (permit : Permit) : Ledger.Ok x permit {} where
  calls :=
    { permitted := by simp
      recorded := by simp
      charged := rfl
      maker := by simp }
  main :=
    { schedule := List.nil_sublist _
      tiers := by simp [Ledger.mine]
      fits := by simp [Ledger.mine]
      distrusted := by simp
      heard := by simp
      judged := ⟨0, rfl⟩
      escalates := by simp
      trusted := by simp
      free := by simp
      cloud := by simp }
  plan :=
    { batches := ⟨fun _ => rfl, rfl, by simp⟩
      none := fun _ => rfl
      accepted := by simp
      routed := by simp
      tasks := by simp
      ids := List.nodup_nil
      keys := by simp
      extracted := fun _ _ hk => by cases hk
      synthesized := by simp
      unanswered := by simp }
  jobs := by simp
  ended := by simp

end HorizonRelay
