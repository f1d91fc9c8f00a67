import HorizonRelay.Observe.Attempts
import HorizonRelay.Runs.Endings

/-!
# The graph of a run

The decision graph of a run is made of the events handed out.  In every reachable state it
shows nothing unfinished without a reason, and when the end was told no reason is left, unless
some callback kept a follower from its cancellation.  The calls have their places either way.

## Main definitions

* `Run.graph` — the graph the observers of a run see.
* `Graph.Lifeless`, `Graph.Concluded`, `Graph.Silent` — graphs that show nothing unfinished.
* `Graph.placeOf`, `Graph.ShowsCalls` — the node and the attempt a call is shown at.

## Main results

* `ended_graph` — nothing in the graph of a run that ended looks alive.
* `silent_graph` — and no text is shown as being written, under what it takes.
* `calls_apart` — every call is shown at a place of its own, and at the end nothing else is.
-/

namespace HorizonRelay

open Py Coop

variable {x : Setup} {c : State} {e : RelayEvent}

/-- `RunGraph` after all events of a run so far. -/
def Run.graph (s : Run) : Graph := .ofEvents (handed s.log)

/-- No step is shown as waiting or running, and no attempt as running. -/
def Graph.Lifeless (g : Graph) : Prop := ∀ id node, g.nodes.get? id = some node →
  node.status ≠ .running ∧ node.status ≠ .queued ∧ ∀ a ∈ node.attempts, a.outcome ≠ .running

/-- No text is shown as being written. -/
def Graph.Silent (g : Graph) : Prop := ∀ id node, g.nodes.get? id = some node →
  node.live = none ∧ ∀ a ∈ node.attempts, a.live = none

/-- Every step went through, was handed on or was left out. -/
def Graph.Concluded (g : Graph) : Prop := ∀ id node, g.nodes.get? id = some node →
  node.status = .passed ∨ node.status = .escalated ∨ node.status = .skipped ∨
    node.status = .answered

theorem right_of_reach {a : Premises} (h : x.system.Reach {} a.Admits c) :
    c.shared.graph.Right (¬ a.heeded) c.shared.progress := by
  refine Graph.right_of_accepts (observed_of_reach h).story.accepts fun e he => ?_
  exact (Setup.Reachable.recorded h.any).told e.data (List.mem_map_of_mem he)

theorem concluded_of_settled {status : NodeStatus} (h : status.settled = true) :
    (status = .passed ∨ status = .escalated ∨ status = .skipped ∨ status = .answered) ∧
      status ≠ .running ∧ status ≠ .queued := by
  cases status <;> simp_all [NodeStatus.settled]

/-- Text without an unfinished call is not shown. -/
theorem Graph.Right.silent {g : Graph} {late : Prop} {p : Progress} (h : g.Right late p)
    (hl : ¬ late) (hall : ∀ key ∈ p.outputs, key ∈ p.finished) : g.Silent := by
  have hnot : ∀ id m, ¬ g.WritingAt late p id m := by
    rintro id m (hlate | ⟨s, -, key, hout, hfin, -⟩)
    · exact hl hlate
    · exact hfin (hall key hout)
  intro id node hnode
  have hr := h.nodes id node hnode
  refine ⟨?_, fun a ha => ?_⟩
  · by_contra hlive
    obtain ⟨m, hm⟩ := hr.live hlive
    exact hnot id m hm
  · by_contra hlive
    exact hnot id a.n ((hr.attempts a ha).live hlive)

/-- What a graph shows once the run is complete. -/
theorem Graph.Right.completed {g : Graph} {late : Prop} {p : Progress} (h : g.Right late p)
    (hl : ¬ late) (hmain : p.main = .completed) (hdone : p.AllDone)
    (hall : ∀ key ∈ p.outputs, key ∈ p.finished) : g.Lifeless ∧ g.Concluded := by
  have hphase : ∀ id ph, p.tasks id = some ph → ph.busy = none ∧ ph.trying = none := by
    intro id ph hph
    obtain ⟨t, rfl⟩ := hdone id ph hph
    exact ⟨rfl, rfl⟩
  have hgoing : ¬ (late ∨ p.main = .stopped) := by
    rintro (hlate | hstop)
    · exact hl hlate
    · rw [hmain] at hstop
      cases hstop
  have hbusy : ∀ id, ¬ g.BusyAt late p id := by
    rintro id (hstop | ⟨s, -, hs | ⟨i, t, -, ht⟩⟩)
    · exact hgoing hstop
    · rw [hmain] at hs
      cases hs
    · obtain ⟨ph, hph, ht⟩ := Option.bind_eq_some_iff.mp ht
      rw [(hphase i ph hph).1] at ht
      cases ht
  have htrying : ∀ id m, ¬ g.TryingAt late p id m := by
    rintro id m (hstop | ⟨s, -, hs | ⟨i, t, -, ht⟩⟩)
    · exact hgoing hstop
    · rw [hmain] at hs
      cases hs
    · obtain ⟨ph, hph, ht⟩ := Option.bind_eq_some_iff.mp ht
      rw [(hphase i ph hph).2] at ht
      cases ht
  have hsettled : ∀ id node, g.nodes.get? id = some node → node.status.settled = true := by
    intro id node hnode
    by_contra hne
    exact hbusy id ((h.nodes id node hnode).status (by simpa using hne))
  refine ⟨fun id node hnode => ?_, fun id node hnode =>
    (concluded_of_settled (hsettled id node hnode)).1⟩
  obtain ⟨-, hrun, hqueued⟩ := concluded_of_settled (hsettled id node hnode)
  refine ⟨hrun, hqueued, fun a ha hout => ?_⟩
  rcases ((h.nodes id node hnode).attempts a ha).outcome hout with
    ht | hlate | ⟨s, -, key, hkey, hfin, -⟩
  · exact htrying id a.n ht
  · exact hl hlate
  · exact hfin (hall key hkey)

/-- What the last event says about the progress. -/
theorem progress_last {s : Run} (h : (handed s.log).getLast? = some e) :
    ∃ before, handed s.log = before ++ [e] ∧
      s.progress = (Progress.of (before.map RelayEvent.data)).after e.data := by
  obtain ⟨before, hsplit⟩ := List.getLast?_eq_some_iff.mp h
  refine ⟨before, hsplit, ?_⟩
  rw [Run.progress, told, hsplit, List.map_append, List.map_singleton, Progress.of_concat]

/-- What the last event of a complete run says about the progress. -/
theorem completed_of_last {m : Metrics} (h : x.Reachable c)
    (he : (handed c.shared.log).getLast? = some e) (hm : e.data = .runCompleted m) :
    c.shared.progress.main = .completed ∧ c.shared.progress.AllDone ∧
      ∀ call ∈ c.shared.calls, call.key ∈ c.shared.progress.finished := by
  have hobs := h.observed
  obtain ⟨before, hsplit, hprog⟩ := progress_last he
  have hexpects : (Progress.of (before.map RelayEvent.data)).Expects e.data := by
    have haccepts := hobs.story.accepts
    rw [told, hsplit, List.map_append, List.map_singleton] at haccepts
    exact (Progress.accepts_concat.mp haccepts).2.of_teller (by rw [hm]; rintro key ⟨⟩)
  rw [hm] at hexpects hprog
  have hmain : c.shared.progress.main = .completed := by rw [hprog]; rfl
  refine ⟨hmain, ?_, fun call hcall => (hobs.closes.atEnd (.inl hmain)).told hmain call hcall⟩
  rw [hprog]
  exact hexpects.allows.2

/-- **Nothing in the graph of a run that ended looks alive.** When no callback kept a follower
from its cancellation and the last event handed out ends the run, no step of its graph is
running or queued and no attempt is running; when the run is complete, moreover, every step
passed, escalated, was skipped or answered, and no text is shown as being written. -/
theorem ended_graph (h : x.system.Reach {} heeding.Admits c)
    (he : (handed c.shared.log).getLast? = some e)
    (ht : e.Terminal) : c.shared.graph.Lifeless ∧ ∀ m, e.data = .runCompleted m →
      c.shared.graph.Concluded ∧ c.shared.graph.Silent := by
  have hright := right_of_reach h
  have hl : ¬ ¬ heeding.heeded := not_not_intro trivial
  by_cases hcomp : ∃ m, e.data = .runCompleted m
  · obtain ⟨m, hm⟩ := hcomp
    obtain ⟨hmain, hdone, hcalls⟩ := completed_of_last h.any he hm
    have hall : ∀ key ∈ c.shared.progress.outputs, key ∈ c.shared.progress.finished := by
      intro key hkey
      obtain ⟨call, hcall, rfl⟩ := (observed_of_reach h).story.outputs key hkey
      exact hcalls call hcall
    obtain ⟨hlifeless, hconcluded⟩ := hright.completed hl hmain hdone hall
    exact ⟨hlifeless, fun _ _ => ⟨hconcluded, hright.silent hl hall⟩⟩
  · have hmain : c.shared.progress.main = .stopped := by
      obtain ⟨before, -, hprog⟩ := progress_last he
      rw [hprog]
      unfold RelayEvent.Terminal at ht
      cases hd : e.data with
      | runCompleted m => exact absurd ⟨m, hd⟩ hcomp
      | runFailed m => rfl
      | runCancelled m => rfl
      | _ => rw [hd] at ht; cases ht
    exact ⟨hright.stopped hl hmain, fun m hm => absurd ⟨m, hm⟩ hcomp⟩

theorem ended_graph_toldRun : ∃ (c : State) (m : Metrics),
    (c.shared.graph.nodes.keys = ["judge:local".toList, "plan".toList, "one".toList,
        "answer".toList] ∧ c.shared.graph.Lifeless) ∧
      (handed c.shared.log).getLast?.map RelayEvent.data = some (.runCompleted m) ∧
        c.shared.graph.Concluded ∧ c.shared.graph.Silent := by
  obtain ⟨c, hc, h⟩ := exists_reach_letsThrough (x := liveSetup) toldRun
    (p := fun c => decide (c.shared.graph.nodes.keys = ["judge:local".toList, "plan".toList,
        "one".toList, "answer".toList]) &&
      (handed c.shared.log).getLast?.any fun e => match e.data with
        | .runCompleted _ => true
        | _ => false) (by decide +kernel)
  obtain ⟨hkeys, hlast⟩ := Bool.and_eq_true_iff.mp h
  obtain ⟨e, he, hm⟩ := Option.any_eq_true _ _ |>.mp hlast
  split at hm
  · rename_i m hdata
    obtain ⟨hlifeless, hrest⟩ := ended_graph hc he (by rw [RelayEvent.Terminal, hdata]; rfl)
    exact ⟨c, m, ⟨of_decide_eq_true hkeys, hlifeless⟩, by rw [he, Option.map_some, hdata],
      hrest m hdata⟩
  · cases hm

/-- Nothing is cancelled while a call it made has written and was not told to be finished, and
no callback keeps a follower from its cancellation. -/
def calmly : Premises := { calm := True, heeded := True }

/-- **No text is shown as being written once a run ended.** When nobody is cancelled between
the first text of a call and the report of the end of that call, and no callback keeps a
follower from its cancellation, no node and no attempt of the graph has live text after the
event that ends the run. -/
theorem silent_graph (h : x.system.Reach {} calmly.Admits c) (he : e ∈ handed c.shared.log)
    (ht : e.Terminal) : c.shared.graph.Silent := by
  have hobs := observed_of_reach h
  have hover := hobs.closes.atEnd (hobs.ended he ht)
  exact (right_of_reach h).silent (not_not_intro trivial) (hover.calm trivial)

theorem silent_graph_toldRun : ∃ c : State, c.shared.graph.Silent ∧
    ∃ e ∈ handed c.shared.log, e.Terminal := by
  obtain ⟨c, hc, h⟩ := exists_reach_undisturbed (x := liveSetup) calmly toldRun
    (p := fun c => (handed c.shared.log).any fun e => e.data.metrics?.isSome)
    (by decide +kernel)
  obtain ⟨e, he, ht⟩ := List.any_eq_true.mp h
  exact ⟨c, silent_graph hc he ht, e, he, ht⟩

/-! ## The calls of a run in its graph -/

/-- The records of the calls told to be finished, in order. -/
def ended (ds : List EventData) : List CallRecord :=
  ds.filterMap fun
    | .callFinished r => some r
    | _ => none

/-- Where `_on_call_finished` shows a call: the node, and the number of the attempt. -/
def Graph.placeOf (g : Graph) (r : CallRecord) : Str × ℕ :=
  (match r.operation with
    | .attempt => triageId
    | .solve | .critique => judgeId (r.forTier.getD r.tier)
    | .plan => planId
    | .answer | .synthesize => answerId
    | .work => g.taskNodeId (r.taskId.getD []) r.tier,
  r.attempt.getD 1)

/-- The kind of node a call is to be shown at. -/
def Graph.kindFor (g : Graph) (r : CallRecord) : NodeKind :=
  match r.operation with
  | .attempt => .triage
  | .solve | .critique => .judge
  | .plan => .plan
  | .answer | .synthesize => .answer
  | .work => if r.tier = (g.taskLane.get? (r.taskId.getD [])).getD r.tier then .task else .retry

/-- The attempts of all nodes. -/
def Graph.attempts (g : Graph) : List Attempt := g.nodes.values.flatMap Node.attempts

/-- The metrics a complete run ended with. -/
def EventData.completion? : EventData → Option Metrics
  | .runCompleted m => some m
  | _ => none

/-- The tasks of a plan. -/
def EventData.planned : EventData → List Task
  | .planCreated tasks _ => tasks
  | _ => []

/-- No task of the plan that was told has the id of another step's node. -/
def NamesClear (ds : List EventData) : Prop :=
  ∀ tasks s, .planCreated tasks s ∈ ds → ∀ t ∈ tasks,
    t.id ≠ Graph.triageId ∧ t.id ≠ Graph.planId ∧ t.id ≠ Graph.answerId

/-- Every call told to be finished has a place of its own, in its own lane at a node of its
kind, and every task has its own node. -/
structure Graph.ShowsCalls (ds : List EventData) (g : Graph) : Prop where
  apart : ((ended ds).map g.placeOf).Nodup
  shown : ∀ r ∈ ended ds, ∃ node, g.nodes.get? (g.placeOf r).1 = some node ∧
    node.kind = g.kindFor r ∧ ∃ a ∈ node.attempts, a.n = (g.placeOf r).2 ∧ a.lane = r.tier
  tasks : ∀ tasks s, .planCreated tasks s ∈ ds → ∀ t ∈ tasks,
    ∃ node, g.nodes.get? t.id = some node ∧ node.kind = .task

section Places
variable {g : Graph} {late : Prop} {p : Progress} {ds : List EventData} {es : List RelayEvent}

theorem finished_eq (ds : List EventData) :
    (Progress.of ds).finished = (ended ds).map CallRecord.key := by
  induction ds using List.reverseRecOn with
  | nil => rfl
  | append_singleton ds d ih =>
      rw [Progress.of_concat, ended, List.filterMap_append, List.map_append]
      cases d with
      | callFinished r => exact congrArg (· ++ [r.key]) ih
      | _ => exact ih.trans (List.append_nil _).symm

theorem plan_told {tasks : List Task} (h : (Progress.of ds).plan = some tasks) :
    ∃ s, .planCreated tasks s ∈ ds := by
  induction ds using List.reverseRecOn with
  | nil => cases h
  | append_singleton ds d ih =>
      rw [Progress.of_concat] at h
      by_cases hd : ∃ tasks' s, d = .planCreated tasks' s
      · obtain ⟨tasks', s, rfl⟩ := hd
        obtain rfl : tasks' = tasks := Option.some.inj h
        exact ⟨s, by simp⟩
      · rw [Progress.plan_after fun tasks' s hs => hd ⟨tasks', s, hs⟩] at h
        obtain ⟨s, hs⟩ := ih h
        exact ⟨s, by simp [hs]⟩

/-- A plan that was told is the plan. -/
theorem Progress.Accepts.plan_of_told (h : Progress.Accepts late ds) {tasks : List Task} {s : Str}
    (hd : .planCreated tasks s ∈ ds) : (Progress.of ds).plan = some tasks := by
  induction h with
  | nil => cases hd
  | @concat ds d h he ih =>
      rw [Progress.of_concat]
      by_cases hplan : ∃ tasks' s, d = .planCreated tasks' s
      · obtain ⟨tasks', s', rfl⟩ := hplan
        rcases List.mem_append.mp hd with hd | hd
        · obtain ⟨⟨k, hk⟩, -⟩ := (he.of_teller (by rintro key ⟨⟩)).allows
          have hmain := h.planned.main (by rw [ih hd]; rfl)
          simp [hk] at hmain
        · obtain ⟨rfl, -⟩ : tasks = tasks' ∧ s = s' := by simpa using hd
          rfl
      · rw [Progress.plan_after fun tasks' s hs => hplan ⟨tasks', s, hs⟩]
        refine ih ((List.mem_append.mp hd).resolve_right fun hd => hplan ⟨tasks, s, ?_⟩)
        exact (List.mem_singleton.mp hd).symm

theorem clear_of_names (h : Progress.Accepts late ds) (hnames : NamesClear ds) :
    (Progress.of ds).Clear := by
  intro i hi
  cases hplan : (Progress.of ds).plan with
  | none =>
      rw [h.planned.unplanned hplan] at hi
      cases hi
  | some tasks =>
      obtain ⟨t, ht, rfl⟩ := List.mem_map.mp ((h.known hplan).mp hi)
      obtain ⟨s, hs⟩ := plan_told hplan
      exact hnames tasks s hs t ht

/-- The place of a call is that of its step. -/
theorem placeOf_eq {c : Call} (hc : c.Recorded) :
    g.placeOf c.record = (g.nodeOf c.record.key.step, c.record.key.slot.number) ∧
      g.kindFor c.record = g.kindOf c.record.key.step := by
  rw [← Graph.attempt_number hc]
  unfold Graph.placeOf Graph.kindFor CallRecord.key Key.step CallRecord.slot
  cases c.record.operation <;> exact ⟨rfl, rfl⟩

/-- The records told are those of calls. -/
theorem recorded_of_ended (hes : ∀ e ∈ es, e.data.Proper) {r : CallRecord}
    (hr : r ∈ ended (es.map RelayEvent.data)) : ∃ c : Call, c.Recorded ∧ c.record = r := by
  obtain ⟨d, hd, hdr⟩ := List.mem_filterMap.mp hr
  obtain ⟨e, he, rfl⟩ := List.mem_map.mp hd
  have hproper := hes e he
  cases hdata : e.data <;> rw [hdata] at hdr hproper <;> cases hdr
  exact hproper

theorem showsCalls_of_accepts (h : Progress.Accepts late (es.map RelayEvent.data))
    (hes : ∀ e ∈ es, e.data.Proper) (hnames : NamesClear (es.map RelayEvent.data)) :
    (Graph.ofEvents es).ShowsCalls (es.map RelayEvent.data) := by
  obtain ⟨hapart, -⟩ := Graph.apart_of_accepts h hes
  have hclear := clear_of_names h hnames
  obtain ⟨hpast, hnodup⟩ := h.places
  have hkeys : ∀ r ∈ ended (es.map RelayEvent.data),
      r.key ∈ (Progress.of (es.map RelayEvent.data)).finished := by
    intro r hr
    rw [finished_eq]
    exact List.mem_map_of_mem hr
  refine ⟨?_, fun r hr => ?_, fun tasks s htold t ht => ?_⟩
  · rw [finished_eq, List.map_map] at hnodup
    refine (List.nodup_map_iff_inj_on (List.Nodup.of_map _ hnodup)).mpr fun r hr r' hr' heq => ?_
    refine List.inj_on_of_nodup_map hnodup hr hr' ?_
    obtain ⟨c, hc, rfl⟩ := recorded_of_ended hes hr
    obtain ⟨c', hc', rfl⟩ := recorded_of_ended hes hr'
    rw [(placeOf_eq hc).1, (placeOf_eq hc').1, Prod.mk.injEq] at heq
    have hstep := Graph.nodeOf_inj hapart.tasks hclear (hpast _ (hkeys _ hr)).has
      (hpast _ (hkeys _ hr')).has heq.1
    rw [Function.comp_apply, Function.comp_apply, Key.place, Key.place, hstep, heq.2]
  · obtain ⟨c, hc, rfl⟩ := recorded_of_ended hes hr
    have hlane := hapart.shown hclear _ (hkeys _ hr)
    have hhas := (hpast _ (hkeys _ hr)).has
    rw [(placeOf_eq hc).1, (placeOf_eq hc).2]
    obtain ⟨node, hnode, hshows⟩ := Option.bind_eq_some_iff.mp hlane
    refine ⟨node, hnode, ?_, ?_⟩
    · obtain ⟨s, hs, hid, hkind⟩ := hapart.kinds _ node.kind (by rw [Graph.kindAt, hnode]; rfl)
      rw [← hkind, Graph.nodeOf_inj hapart.tasks hclear hs hhas hid]
    · obtain ⟨a, ha, hal⟩ := Option.map_eq_some_iff.mp hshows
      exact ⟨a, List.mem_of_find?_eq_some ha, by simpa using List.find?_some ha, hal⟩
  · have hplan := h.plan_of_told htold
    have hknown : ((Progress.of (es.map RelayEvent.data)).tasks t.id).isSome :=
      (h.known hplan).mpr (List.mem_map_of_mem ht)
    obtain ⟨lane, hlane⟩ := hapart.tasks.lanes _ hknown
    obtain ⟨kind, hkind⟩ := Option.ne_none_iff_exists'.mp (hapart.tasks.nodes _ hknown)
    obtain ⟨node, hnode, rfl⟩ := Option.map_eq_some_iff.mp hkind
    obtain ⟨s, hs, hid, hk⟩ := hapart.kinds _ _ hkind
    refine ⟨node, hnode, ?_⟩
    have hself : (Graph.ofEvents es).nodeOf (.task t.id lane) = t.id := by
      simp [Graph.nodeOf, Graph.taskNodeId, hlane]
    have hhas : (Progress.of (es.map RelayEvent.data)).Has (.task t.id lane) := hknown
    rw [← hk, Graph.nodeOf_inj hapart.tasks hclear hs hhas (hid.trans hself.symm)]
    simp [Graph.kindOf, hlane]

/-- At the end nothing is tried and nothing is written. -/
theorem begun_completed {s : Step} {n : ℕ} (hmain : p.main = .completed) (hdone : p.AllDone)
    (hall : ∀ key ∈ p.outputs, key ∈ p.finished) (h : p.Begun n s) :
    ∃ key ∈ p.finished, key.place = (s, n) := by
  rcases h with h | (htry | ⟨i, t, -, ht⟩) | ⟨key, hout, hplace⟩
  · exact h
  · rw [hmain] at htry
    cases htry
  · obtain ⟨ph, hph, htry⟩ := Option.bind_eq_some_iff.mp ht
    obtain ⟨u, rfl⟩ := hdone i ph hph
    cases htry
  · exact ⟨key, hall key hout, hplace⟩

/-- The attempts of a graph, with where they are shown. -/
def Graph.marks (g : Graph) : List ((Str × ℕ) × Tier) :=
  g.nodes.entries.flatMap fun e => e.2.attempts.map fun a => ((e.1, a.n), a.lane)

theorem map_marks (g : Graph) : g.marks.map Prod.snd = g.attempts.map Attempt.lane := by
  rw [Graph.marks, Graph.attempts, Dict.values, List.map_flatMap, List.map_flatMap,
    List.flatMap_map]
  simp only [List.map_map]
  rfl

/-- With distinct numbers, looking for a number finds its attempt. -/
theorem find?_of_nodup {as : List Attempt} (h : (as.map Attempt.n).Nodup) {a : Attempt}
    (ha : a ∈ as) : as.find? (·.n = a.n) = some a := by
  cases hfind : as.find? (·.n = a.n) with
  | none =>
      rw [List.find?_eq_none] at hfind
      exact absurd (decide_eq_true rfl) (hfind a ha)
  | some b =>
      have hn : b.n = a.n := by simpa using List.find?_some hfind
      rw [List.inj_on_of_nodup_map h (List.mem_of_find?_eq_some hfind) ha hn]

theorem mem_marks {id : Str} {n : ℕ} {t : Tier} (h : g.Right late p) :
    ((id, n), t) ∈ g.marks ↔ g.laneAt id n = some t := by
  rw [Graph.marks, List.mem_flatMap]
  constructor
  · rintro ⟨e, he, hmem⟩
    obtain ⟨a, ha, heq⟩ := List.mem_map.mp hmem
    obtain ⟨⟨rfl, rfl⟩, rfl⟩ : (e.1 = id ∧ a.n = n) ∧ a.lane = t := by simpa using heq
    have hnode : g.nodes.get? e.1 = some e.2 := Dict.mem_entries_iff.mp he
    have hnumbers := (h.nodes e.1 e.2 hnode).numbers
    rw [Graph.laneAt, hnode, Option.bind_some, Node.laneOf, find?_of_nodup hnumbers ha]
    rfl
  · intro hlane
    obtain ⟨node, hnode, hshows⟩ := Option.bind_eq_some_iff.mp hlane
    obtain ⟨a, ha, rfl⟩ := Option.map_eq_some_iff.mp hshows
    refine ⟨(id, node), Dict.mem_entries_iff.mpr hnode,
      List.mem_map.mpr ⟨a, List.mem_of_find?_eq_some ha, ?_⟩⟩
    have hn : a.n = n := by simpa using List.find?_some ha
    rw [hn]

theorem marks_nodup (h : g.Right late p) : (g.marks.map Prod.fst).Nodup := by
  rw [Graph.marks, List.map_flatMap, List.nodup_flatMap]
  refine ⟨fun e he => ?_, ?_⟩
  · have hnumbers := (h.nodes e.1 e.2 (Dict.mem_entries_iff.mp he)).numbers
    rw [List.map_map, show (Prod.fst ∘ fun a : Attempt => ((e.1, a.n), a.lane)) =
      (fun n => (e.1, n)) ∘ Attempt.n from rfl, ← List.map_map]
    exact hnumbers.map fun _ _ heq => (Prod.mk.inj heq).2
  · have hkeys : g.nodes.entries.Pairwise fun e e' => e.1 ≠ e'.1 :=
      List.pairwise_map.mp g.nodes.nodup
    refine hkeys.imp fun {e e'} hne => ?_
    intro place hplace hplace'
    obtain ⟨mark, hmark, rfl⟩ := List.mem_map.mp hplace
    obtain ⟨mark', hmark', heq⟩ := List.mem_map.mp hplace'
    obtain ⟨a, -, rfl⟩ := List.mem_map.mp hmark
    obtain ⟨a', -, rfl⟩ := List.mem_map.mp hmark'
    exact hne (Prod.mk.inj heq).1.symm

/-- **At the end the attempts shown are the calls.** -/
theorem marks_perm (h : Progress.Accepts late (es.map RelayEvent.data))
    (hes : ∀ e ∈ es, e.data.Proper) (hnames : NamesClear (es.map RelayEvent.data))
    (hmain : (Progress.of (es.map RelayEvent.data)).main = .completed)
    (hdone : (Progress.of (es.map RelayEvent.data)).AllDone)
    (hall : ∀ key ∈ (Progress.of (es.map RelayEvent.data)).outputs,
      key ∈ (Progress.of (es.map RelayEvent.data)).finished) :
    (Graph.ofEvents es).marks.Perm ((ended (es.map RelayEvent.data)).map fun r =>
      ((Graph.ofEvents es).placeOf r, r.tier)) := by
  obtain ⟨hapart, -⟩ := Graph.apart_of_accepts h hes
  have hright := Graph.right_of_accepts h hes
  have hshows := showsCalls_of_accepts h hes hnames
  have hclear := clear_of_names h hnames
  have hnodup : ((ended (es.map RelayEvent.data)).map fun r =>
      ((Graph.ofEvents es).placeOf r, r.tier)).Nodup := by
    refine List.Nodup.of_map Prod.fst ?_
    rw [List.map_map]
    exact hshows.apart
  refine (List.perm_ext_iff_of_nodup (List.Nodup.of_map _ (marks_nodup hright)) hnodup).mpr ?_
  rintro ⟨⟨id, n⟩, t⟩
  rw [mem_marks hright, List.mem_map]
  have hplace : ∀ r ∈ ended (es.map RelayEvent.data), (Graph.ofEvents es).placeOf r =
      ((Graph.ofEvents es).nodeOf r.key.step, r.key.slot.number) := by
    intro r hr
    obtain ⟨c, hc, rfl⟩ := recorded_of_ended hes hr
    exact (placeOf_eq hc).1
  have hkeys : ∀ r ∈ ended (es.map RelayEvent.data),
      r.key ∈ (Progress.of (es.map RelayEvent.data)).finished := by
    intro r hr
    rw [finished_eq]
    exact List.mem_map_of_mem hr
  constructor
  · intro hlane
    have hne : (Graph.ofEvents es).laneAt id n ≠ none := by simp [hlane]
    rcases hapart.begun id n hne with hstop | ⟨s, rfl, hbegun⟩
    · rw [hmain] at hstop
      cases hstop
    · obtain ⟨key, hkey, hat⟩ := begun_completed hmain hdone hall hbegun
      rw [finished_eq] at hkey
      obtain ⟨r, hr, rfl⟩ := List.mem_map.mp hkey
      obtain ⟨rfl, rfl⟩ := Prod.mk.inj hat
      rw [hapart.shown hclear _ (hkeys r hr)] at hlane
      exact ⟨r, hr, by rw [hplace r hr, ← Option.some.inj hlane]; rfl⟩
  · rintro ⟨r, hr, heq⟩
    rw [hplace r hr] at heq
    obtain ⟨⟨rfl, rfl⟩, rfl⟩ := Prod.mk.injEq .. ▸ heq
    exact hapart.shown hclear _ (hkeys r hr)

end Places

/-- Once every call was told to be finished, what was told are the calls of the run. -/
theorem ended_tiers_perm (h : x.Reachable c)
    (hall : ∀ call ∈ c.shared.calls, call.key ∈ c.shared.progress.finished) :
    ((ended (told c.shared.log)).map CallRecord.tier).Perm
      (c.shared.calls.map fun call => call.record.tier) := by
  have hobs := h.observed
  have hfin : (c.shared.calls.map Call.key).Nodup := by
    have hslots := h.ok.slots_nodup
    rw [show (Call.slot : Call → Slot) = Key.slot ∘ Call.key from rfl, ← List.map_map] at hslots
    exact List.Nodup.of_map _ hslots
  have htold : c.shared.progress.finished.Nodup := List.Nodup.of_map _ hobs.story.accepts.places.2
  have hperm : c.shared.progress.finished.Perm (c.shared.calls.map Call.key) := by
    refine (List.perm_ext_iff_of_nodup htold hfin).mpr fun key => ⟨fun hkey => ?_, fun hkey => ?_⟩
    · obtain ⟨call, hcall, rfl, -⟩ := hobs.story.finished key hkey
      exact List.mem_map_of_mem hcall
    · obtain ⟨call, hcall, rfl⟩ := List.mem_map.mp hkey
      exact hall call hcall
  have htiers := hperm.map Key.tier
  rw [Run.progress, finished_eq, List.map_map, List.map_map] at htiers
  exact htiers

/-- **Each call is shown at a place of its own.** When no task of the plan took the id of the
planner's, the answer's or the extraction's node, no two calls told to be finished are shown as
the same attempt, each is shown in its own lane at a node of its kind, and once the run is
complete the attempts in the graph are the calls that the metrics count. -/
theorem calls_apart (h : x.Reachable c) (hnames : NamesClear (told c.shared.log)) :
    c.shared.graph.ShowsCalls (told c.shared.log) ∧
      ∀ m, (handed c.shared.log).getLast?.map RelayEvent.data = some (.runCompleted m) →
        c.shared.graph.attempts.countP (·.lane = .cloud) = m.cloudCalls ∧
          c.shared.graph.attempts.countP (·.lane ≠ .cloud) = m.localCalls := by
  have hobs := h.observed
  have hproper : ∀ e ∈ handed c.shared.log, e.data.Proper := fun e he =>
    h.recorded.told e.data (List.mem_map_of_mem he)
  refine ⟨showsCalls_of_accepts hobs.story.accepts hproper hnames, fun m hlast => ?_⟩
  obtain ⟨e, he, hdata⟩ := Option.map_eq_some_iff.mp hlast
  obtain ⟨hmain, hdone, hall⟩ := completed_of_last h he hdata
  have houtputs : ∀ key ∈ c.shared.progress.outputs, key ∈ c.shared.progress.finished := by
    intro key hkey
    obtain ⟨call, hcall, rfl⟩ := hobs.story.outputs key hkey
    exact hall call hcall
  have hlanes : (c.shared.graph.attempts.map Attempt.lane).Perm
      (c.shared.calls.map fun call => call.record.tier) := by
    have hmarks := (marks_perm hobs.story.accepts hproper hnames hmain hdone houtputs).map Prod.snd
    rw [map_marks, List.map_map] at hmarks
    exact hmarks.trans (ended_tiers_perm h hall)
  have hcount : ∀ q : Tier → Bool, c.shared.graph.attempts.countP (fun a => q a.lane) =
      c.shared.calls.countP fun call => q call.record.tier := by
    intro q
    have hq := hlanes.countP_eq q
    rw [List.countP_map, List.countP_map] at hq
    exact hq
  have hmetrics := hobs.closes.metrics e (List.mem_of_getLast? he) m (by rw [hdata]; rfl)
  rw [hmetrics, hcount fun t => t = .cloud, hcount fun t => t ≠ .cloud]
  exact ⟨h.ok.calls.spent.symm, rfl⟩

theorem calls_apart_toldRun : ∃ (c : State) (m : Metrics), m.localCalls = 2 ∧
    c.shared.graph.ShowsCalls (told c.shared.log) ∧
      c.shared.graph.attempts.countP (·.lane = .cloud) = m.cloudCalls ∧
        c.shared.graph.attempts.countP (·.lane ≠ .cloud) = m.localCalls := by
  obtain ⟨c, hc, h⟩ := System.exists_reach_of_steps (S := liveSetup.system) (s := {}) toldRun
    (p := fun c => ((told c.shared.log).all fun d => d.planned.all fun t =>
        decide (t.id ≠ Graph.triageId ∧ t.id ≠ Graph.planId ∧ t.id ≠ Graph.answerId)) &&
      (handed c.shared.log).getLast?.any fun e =>
        e.data.completion?.any fun m => decide (m.localCalls = 2)) (by decide +kernel)
  obtain ⟨hplan, hlast⟩ := Bool.and_eq_true_iff.mp h
  have hnames : NamesClear (told c.shared.log) := by
    intro tasks s htold t ht
    have hall := List.all_eq_true.mp hplan _ htold
    exact of_decide_eq_true (List.all_eq_true.mp hall t ht)
  obtain ⟨e, he, h⟩ := Option.any_eq_true _ _ |>.mp hlast
  obtain ⟨m, hm, hcalls⟩ := Option.any_eq_true _ _ |>.mp h
  obtain ⟨hshows, hcounts⟩ := calls_apart hc hnames
  have hdata : e.data = .runCompleted m := by
    cases hd : e.data <;> rw [hd] at hm <;> cases hm
    rfl
  exact ⟨c, m, of_decide_eq_true hcalls, hshows, hcounts m (by rw [he, Option.map_some, hdata])⟩

end HorizonRelay
