import HorizonRelay.Events
import HorizonRelay.Lib.Dict

/-!
# The decision graph

`RunGraph`, the display's view of a run: a node for each step, with the attempts made at it,
kept up to date event by event.  Titles, explanations, judgments and edges are for people, and
no handler reads them back; they are left out.

## Main definitions

* `Attempt`, `Node`, `Graph` — the nodes of a run and their attempts.
* `planRounds` — the round each task of a plan can first be run in.
* `Graph.add` — what an event changes.
-/

namespace HorizonRelay

open Py

/-- The kinds of node. -/
inductive NodeKind : Type
  | triage
  | judge
  | plan
  | answer
  | task
  | retry
  deriving DecidableEq

inductive NodeStatus : Type
  | queued
  | running
  | passed
  | failed
  | escalated
  | skipped
  | answered
  | stopped
  deriving DecidableEq

inductive AttemptOutcome : Type
  | running
  | passed
  | failed
  | error
  | stopped
  deriving DecidableEq

inductive GraphStatus : Type
  | running
  | completed
  | failed
  | cancelled
  deriving DecidableEq

/-- One attempt at a step. -/
structure Attempt : Type where
  n : ℕ
  lane : Tier
  outcome : AttemptOutcome := .running
  /-- Text written so far, while the call is running. -/
  live : Option Str := none

/-- One step of a run. -/
structure Node : Type where
  kind : NodeKind
  lane : Tier
  round : ℕ := 0
  status : NodeStatus := .queued
  attempts : List Attempt := []
  live : Option Str := none
  taskId : Option Str := none
  dependsOn : List Str := []
  /-- The answers of a local model. -/
  samples : List Assessment := []

structure Graph : Type where
  status : GraphStatus := .running
  /-- The tiers of the run and their models, smallest first. -/
  lanes : List (Tier × Str) := []
  /-- By node id, in display order. -/
  nodes : Dict Str Node := .empty
  /-- The tier the planner assigned to each task. -/
  taskLane : Dict Str Tier := .empty
  /-- The node that produced the accepted result of each task. -/
  accepted : Dict Str Str := .empty
  metrics : Option Metrics := none
  /-- The tier whose answer was returned, once the run completes. -/
  route : Option Tier := none

/-! ## Attempts -/

/-- `_attempt(node, n)`, changed by `f`: the attempt is appended when there is none yet. -/
def Node.onAttempt (n : ℕ) (f : Attempt → Attempt) (node : Node) : Node :=
  { node with attempts := go node.attempts }
where
  go : List Attempt → List Attempt
    | [] => [f { n, lane := node.lane }]
    | a :: as => if a.n = n then f a :: as else a :: go as

/-! ## Nodes -/

namespace Graph

/-- `_node(node_id, ...)`, changed by `f`: an existing node keeps its fields. -/
def onNode (id : Str) (fresh : Node) (f : Node → Node) (g : Graph) : Graph :=
  { g with nodes := g.nodes.set id (f ((g.nodes.get? id).getD fresh)) }

/-- Change a node that must exist. Without it the handler raises before it changes
anything, and whoever feeds the graph goes on. -/
def onExisting (id : Str) (f : Node → Node) (g : Graph) : Graph :=
  match g.nodes.get? id with
  | some node => { g with nodes := g.nodes.set id (f node) }
  | none => g

def triageId : Str := "triage".toList
def planId : Str := "plan".toList
def answerId : Str := "answer".toList

/-- `judge:TIER`. -/
def judgeId (tier : Tier) : Str := "judge:".toList ++ tier.name

/-- `TASK@TIER`. -/
def retryId (taskId : Str) (tier : Tier) : Str := taskId ++ '@' :: tier.name

def triageNode : Node := { kind := .triage, lane := .small, status := .running }

def judgeNode (tier : Tier) (status : NodeStatus) : Node := { kind := .judge, lane := tier, status }

def planNode : Node := { kind := .plan, lane := .cloud }

/-- The last round of the tasks shown so far. -/
def lastRound (g : Graph) : ℕ :=
  ((g.nodes.values.filter fun n => n.kind = .task ∨ n.kind = .retry).map Node.round).foldr max 0

/-- `_answer_node(direct)`, when there is none yet. -/
def answerNode (direct : Bool) (g : Graph) : Node :=
  { kind := .answer, lane := .cloud, round := if direct then g.lastRound else g.lastRound + 1 }

/-- The id of the node of a task on a tier: its own in the planner's lane, or a retry node
in a larger model's lane. -/
def taskNodeId (g : Graph) (taskId : Str) (tier : Tier) : Str :=
  if tier = (g.taskLane.get? taskId).getD tier then taskId else retryId taskId tier

/-- The node of a task on a tier, when there is none yet. The plan's tasks have theirs, so
only a retry node is made here. -/
def freshTaskNode (g : Graph) (taskId : Str) (tier : Tier) : Node :=
  if tier = (g.taskLane.get? taskId).getD tier then { kind := .task, lane := tier }
  else
    { kind := .retry, lane := tier, taskId := some taskId
      round := ((g.nodes.get? taskId).map Node.round).getD 1 }

/-- `_task_node(task_id, tier)`, changed by `f`. -/
def onTask (taskId : Str) (tier : Tier) (f : Node → Node) (g : Graph) : Graph :=
  g.onNode (g.taskNodeId taskId tier) (g.freshTaskNode taskId tier) f

/-- `_node_for_call(d)`, changed by `f`. -/
def onCall (r : CallRecord) (f : Node → Node) (g : Graph) : Graph :=
  match r.operation with
  | .attempt => g.onExisting triageId f
  | .solve | .critique => g.onExisting (judgeId (r.forTier.getD r.tier)) f
  | .answer => g.onNode answerId (g.answerNode true) f
  | .plan => g.onNode planId planNode f
  | .synthesize => g.onNode answerId (g.answerNode false) f
  | .work =>
      match r.taskId with
      | some id => g.onTask id r.tier f
      | none => g

end Graph

/-! ## Rounds -/

/-- The round of a task, given those of its dependencies. -/
def roundOf (rounds : Dict Str ℕ) (t : Task) : ℕ :=
  1 + (t.dependsOn.map fun d => (rounds.get? d).getD 0).foldr max 0

/-- One pass over the pending tasks, as they stood at its start: a task whose dependencies
have rounds gets one, which the tasks after it in the same pass already see. -/
def roundsPass : List Task → Dict Str ℕ × List Task → Dict Str ℕ × List Task
  | [], st => st
  | t :: ts, (rounds, pending) =>
      if t.dependsOn.all rounds.keys.contains then
        roundsPass ts (rounds.set t.id (roundOf rounds t), pending.erase t)
      else roundsPass ts (rounds, pending)

/-- `while pending:` with a number of passes allowed; nothing when they are not enough. -/
def roundsLoop : ℕ → Dict Str ℕ × List Task → Option (Dict Str ℕ)
  | _, (rounds, []) => some rounds
  | 0, _ => none
  | passes + 1, (rounds, t :: ts) => roundsLoop passes (roundsPass (t :: ts) (rounds, t :: ts))

/-- The rounds of the tasks of a plan, with as many passes as tasks. -/
def planRounds (tasks : List Task) : Option (Dict Str ℕ) :=
  roundsLoop tasks.length (.empty, tasks)

/-! ## Handlers -/

namespace Graph

/-- `_on_call_output`. -/
def callOutput (r : CallRecord) (output : Str) (g : Graph) : Graph :=
  g.onCall r fun node =>
    { node.onAttempt (r.attempt.getD 1) fun a => { a with live := some output } with
      live := some output }

/-- `_on_call_finished`. -/
def callFinished (r : CallRecord) (g : Graph) : Graph :=
  g.onCall r fun node =>
    let node := node.onAttempt (r.attempt.getD 1) fun a =>
      { a with
        live := none
        lane := r.tier
        outcome :=
          if r.outcome = .failed then .error
          else if r.operation ≠ .work ∧ r.operation ≠ .solve ∧ r.operation ≠ .critique then .passed
          else a.outcome }
    { node with
      live := none
      status := if r.outcome = .failed then .failed else node.status }

/-- `_on_local_sample`. -/
def localSample (tier : Tier) (n : ℕ) (a : Assessment) (g : Graph) : Graph :=
  g.onExisting (judgeId tier) fun node =>
    { node.onAttempt n fun at' =>
        { at' with outcome := if a.needsEscalation then .failed else .passed } with
      samples := node.samples ++ [a] }

/-- `_on_local_critique`. -/
def localCritique (tier critic : Tier) (g : Graph) : Graph :=
  g.onExisting (judgeId tier) fun node =>
    node.onAttempt (node.samples.length + 1) fun a => { a with lane := critic }

/-- `_on_local_verdict`. -/
def localVerdict (tier : Tier) (v : Verdict) (g : Graph) : Graph :=
  g.onExisting (judgeId tier) fun node =>
    let node := { node with status := if v.escalate then .escalated else .passed }
    if v.critique.skipped then node
    else node.onAttempt (node.samples.length + 1) fun a =>
      { a with outcome := if v.critique.passed then .passed else .failed }

/-- `_on_local_accepted`. -/
def localAccepted (tier : Tier) (g : Graph) : Graph :=
  match g.nodes.get? (judgeId tier) with
  | some _ => g.onExisting (judgeId tier) fun node => { node with status := .passed }
  | none => g.onExisting triageId fun node => { node with status := .answered }

/-- `_on_escalated`. -/
def escalated (mode : CloudMode) (g : Graph) : Graph :=
  if mode = .direct then
    g.onNode answerId (g.answerNode true) fun node => { node with status := .running }
  else g.onNode planId planNode fun node => { node with status := .running }

/-- A task of the plan gets its node. -/
def addTask (rounds : Dict Str ℕ) (g : Graph) (t : Task) : Graph :=
  let g := { g with taskLane := g.taskLane.set t.id t.preferredTier }
  g.onNode t.id
    { kind := .task, lane := t.preferredTier, round := (rounds.get? t.id).getD 0
      taskId := some t.id, dependsOn := t.dependsOn } id

/-- `_on_plan_created`. A plan whose rounds cannot be told would keep the loop going for
ever; no accepted plan does. -/
def planCreated (tasks : List Task) (g : Graph) : Graph :=
  match planRounds tasks with
  | some rounds =>
      tasks.foldl (addTask rounds)
        (g.onNode planId planNode fun node => { node with status := .passed })
  | none => g

/-- `_on_task_escalated`. -/
def taskEscalated (taskId : Str) (tier fromTier : Tier) (g : Graph) : Graph :=
  (g.onTask taskId fromTier id).onTask taskId tier id
    |>.onTask taskId fromTier fun node => { node with status := .escalated }

/-- `_on_task_started`. -/
def taskStarted (taskId : Str) (tier : Tier) (n : ℕ) (g : Graph) : Graph :=
  g.onTask taskId tier fun node =>
    { node.onAttempt n fun a => { a with lane := tier } with status := .running }

/-- `_on_task_invalid`. -/
def taskInvalid (taskId : Str) (tier : Tier) (n : ℕ) (g : Graph) : Graph :=
  g.onTask taskId tier fun node =>
    { node.onAttempt n fun a => { a with outcome := .failed } with status := .failed }

/-- `_on_task_completed`. -/
def taskCompleted (taskId : Str) (tier : Tier) (n : ℕ) (g : Graph) : Graph :=
  let g' := g.onTask taskId tier fun node =>
    { node.onAttempt n fun a => { a with outcome := .passed } with status := .passed }
  { g' with accepted := g'.accepted.set taskId (g.taskNodeId taskId tier) }

/-- Nothing runs on after the end. -/
def Node.stop (node : Node) : Node :=
  { node with
    status := if node.status = .running ∨ node.status = .queued then .stopped else node.status
    attempts := node.attempts.map fun a =>
      if a.outcome = .running then { a with outcome := .stopped } else a }

/-- `_stop`. -/
def stop (status : GraphStatus) (metrics : Metrics) (g : Graph) : Graph :=
  { g with
    status
    metrics := some metrics
    nodes := g.nodes.mapValues Node.stop }

/-- `_on_run_completed`. -/
def runCompleted (metrics : Metrics) (g : Graph) : Graph :=
  ({ g with status := .completed, metrics := some metrics, route := metrics.route }).onExisting
    answerId fun node => { node with status := .passed }

/-- `add(event)`. -/
def add (g : Graph) (e : RelayEvent) : Graph :=
  match e.data with
  | .runStarted _ tiers => { g with lanes := tiers.map fun t => (t.1, t.2.1) }
  | .providerNotice => g
  | .localAttempt .. => g.onNode triageId triageNode (Node.onAttempt 1 id)
  | .extractFailed _ => g.onExisting triageId fun node => { node with status := .escalated }
  | .localSkipped tier .. => g.onNode (judgeId tier) (judgeNode tier .skipped) id
  | .localSolve tier _ => g.onNode (judgeId tier) (judgeNode tier .running) id
  | .localSample tier n a => g.localSample tier n a
  | .localCritique tier critic _ => g.localCritique tier critic
  | .localVerdict tier v _ => g.localVerdict tier v
  | .localAccepted tier _ => g.localAccepted tier
  | .escalated _ mode .. => g.escalated mode
  | .answering _ =>
      g.onNode answerId (g.answerNode true) fun node => { node with status := .running }
  | .planInvalid n _ =>
      g.onNode planId planNode (Node.onAttempt n fun a => { a with outcome := .failed })
  | .planCreated tasks _ => g.planCreated tasks
  | .taskEscalated id tier fromTier .. => g.taskEscalated id tier fromTier
  | .taskStarted id tier n _ => g.taskStarted id tier n
  | .taskInvalid id tier n .. => g.taskInvalid id tier n
  | .taskCompleted id tier n .. => g.taskCompleted id tier n
  | .synthesizing _ =>
      g.onNode answerId (g.answerNode false) fun node => { node with status := .running }
  | .callFinished r => g.callFinished r
  | .callOutput r output _ => g.callOutput r output
  | .runCompleted m => g.runCompleted m
  | .runFailed m => g.stop .failed m
  | .runCancelled m => g.stop .cancelled m

/-- The graph of a list of events. -/
def ofEvents (es : List RelayEvent) : Graph := es.foldl add {}

end Graph

end HorizonRelay
